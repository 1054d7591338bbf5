-- Partitions inside partitions: a closure that takes its cells back out of its shard
-- (`into_cells` in `shard.rs`) and calls `partition_map_with` on them (`map.rs`), to
-- any depth. Each call of `drive` is a run of its own inside one task of another, all
-- on one memory, and what they compute is a recursion on lists.
import Melinoe.ChunkArithmetic

open tasks tiles runs

namespace melinoe.nested

open driver_core region sync

variable {T V π : Type}

/-! ## Programs and what they compute -/

/-- What a closure does with its cells: `get` and `get_mut` on a shard over them, and
partitions of them. `reported` is what `available_parallelism` tells that call. -/
inductive Code (T V π : Type)
  | ret (value : V)
  | panic (payload : π)
  | get (index : Nat) (next : Option T → Code T V π)
  /-- `if let Some(cell) = shard.get_mut(index) { *cell = value }`. -/
  | get_mut (index : Nat) (value : T) (next : Code T V π)
  /-- `f` gets the start and the length of its shard. -/
  | partition_map_with (plan : PartitionPlan) (reported : Option NonZeroUsize)
      (f : Nat → Nat → Code T V π) (next : List V → Code T V π)

/-- The values of all, or the payloads of all that panicked. -/
def gather : List (Except (List π) V) → Except (List π) (List V)
  | [] => .ok []
  | .ok value :: rest =>
    match gather rest with
    | .ok values => .ok (value :: values)
    | .error payloads => .error payloads
  | .error payloads :: rest =>
    match gather rest with
    | .ok _ => .error payloads
    | .error more => .error (payloads ++ more)

/-- The shards side by side, and `next` on their values unless one panicked. -/
def together (shards : List (Except (List π) V × List T))
    (next : List V → List T → Except (List π) V × List T) : Except (List π) V × List T :=
  let l := (shards.map (·.2)).flatten
  match gather (shards.map (·.1)) with
  | .ok values => next values l
  | .error payloads => (.error payloads, l)

/-- The plain recursion, with each closure run on the list of its chunk: the value, or
the payloads of the panics, and the cells after it. -/
def Code.eval : Code T V π → List T → Except (List π) V × List T
  | ret value, l => (.ok value, l)
  | panic payload, l => (.error [payload], l)
  | get index next, l => (next l[index]?).eval l
  | get_mut index value next, l => next.eval (l.set index value)
  | partition_map_with plan reported f next, l =>
    together ((chunks (chunk_size_for plan reported l.length) l).map fun (start, shard) =>
      (f start shard.length).eval shard) fun values l' => (next values).eval l'

/-- A run ends as the recursion does; of several panics one comes out. -/
def Gives : Except (List π) V → Except π V → Prop
  | .ok value, .ok out => out = value
  | .error payloads, .error payload => payload ∈ payloads
  | _, _ => False

/-! ## The runs -/

/-- The view that `partition_map_with` makes of its cells. -/
def shards_of (cells : Span) (plan : PartitionPlan) (reported : Option NonZeroUsize) : ParChunks :=
  (WriterShard.new cells).par_chunks (chunk_size_for plan reported cells.len)

/-- The cells of the shard of `index`. -/
def shard_cells (cells : Span) (plan : PartitionPlan) (reported : Option NonZeroUsize)
    (index : Nat) : Span := ((shards_of cells plan reported).get_unchecked_chunk index).cells

instance : Memory Unit Empty Empty where
  get _ a := a.elim
  set m _ _ := m
  get_set_self _ a := a.elim
  get_set_ne _ a := a.elim

/-- A call of `drive` in progress; where its threads are is as `driver_core` has it. -/
structure Calling (n : Nat) (d : Drive Unit Empty Empty V π) : Prop where
  pos : 0 < n
  inv : Inv n False d

/-- What runs on some cells: code, a partition of them, or nothing any more. The tasks
of `d` only say which closures have started and which have ended; what a closure
does is in `children`. -/
inductive Proc (T V π : Type) : Span → Type
  | code {cells : Span} (c : Code T V π) : Proc T V π cells
  | driving {cells : Span} (plan : PartitionPlan) (reported : Option NonZeroUsize)
      (next : List V → Code T V π) (d : Drive Unit Empty Empty V π)
      (calling : Calling (shards_of cells plan reported).len d)
      (children : (index : Nat) → Proc T V π (shard_cells cells plan reported index)) :
      Proc T V π cells
  | done {cells : Span} (out : Except π V) : Proc T V π cells

abbrev Children (T V π : Type) (cells : Span) (plan : PartitionPlan)
    (reported : Option NonZeroUsize) : Type :=
  (index : Nat) → Proc T V π (shard_cells cells plan reported index)

/-- A started task of `d` waits for its child. -/
def waits [Inhabited π] (_index : Nat) : Task Empty Empty SlotCall V π := .panic default

/-- The child of `index` has ended with `out`, and so has its task. -/
def ended (d : Drive Unit Empty Empty V π) (index : Nat) (out : Except π V) :
    Drive Unit Empty Empty V π :=
  { d with pool := { d.pool with status := Function.update d.pool.status index (.ended out) } }

theorem ended_status (d : Drive Unit Empty Empty V π) (index : Nat) (out : Except π V) (i : Nat) :
    (ended d index out).pool.status i = if i = index then .ended out else d.pool.status i :=
  Function.update_apply ..

theorem calling_init {n : Nat} (h : 0 < n) (slot : Option Executor) (others : List SlotCall) :
    Calling n (Drive.init slot others () : Drive Unit Empty Empty V π) :=
  ⟨h, inv_init n False slot others ()⟩

/-- The steps of what runs on `cells`, in a memory that others may use between them. A
call of `drive` finds any executor in the slot and any calls of other threads on it;
an executor meets its contract and returns. -/
inductive Step [Inhabited π] : {cells : Span} →
    List T → Proc T V π cells → List T → Proc T V π cells → Prop
  | ret {cells : Span} {mem : List T} {value : V} :
      Step mem (.code (.ret value) : Proc T V π cells) mem (.done (.ok value))
  | panic {cells : Span} {mem : List T} {payload : π} :
      Step mem (.code (.panic payload) : Proc T V π cells) mem (.done (.error payload))
  | get {cells : Span} {mem : List T} {index : Nat} {next : Option T → Code T V π} :
      Step mem (.code (.get index next) : Proc T V π cells) mem
        (.code (next ((WriterShard.new cells).get mem index)))
  | get_mut {cells : Span} {mem : List T} {index : Nat} {value : T} {next : Code T V π} :
      Step mem (.code (.get_mut index value next) : Proc T V π cells)
        ((WriterShard.new cells).get_mut mem index value) (.code next)
  /-- `if num_chunks == 0 { return Vec::new(); }`. -/
  | no_chunks {cells : Span} {mem : List T} {plan : PartitionPlan}
      {reported : Option NonZeroUsize} {f : Nat → Nat → Code T V π} {next : List V → Code T V π}
      (h : (shards_of cells plan reported).len = 0) :
      Step mem (.code (.partition_map_with plan reported f next) : Proc T V π cells) mem
        (.code (next []))
  | drive {cells : Span} {mem : List T} {plan : PartitionPlan} {reported : Option NonZeroUsize}
      {f : Nat → Nat → Code T V π} {next : List V → Code T V π} (slot : Option Executor)
      (others : List SlotCall) (h : 0 < (shards_of cells plan reported).len) :
      Step mem (.code (.partition_map_with plan reported f next) : Proc T V π cells) mem
        (.driving plan reported next (Drive.init slot others ()) (calling_init h slot others)
          fun index => .code (f (wmul index (chunk_size_for plan reported cells.len))
            (shard_cells cells plan reported index).len))
  /-- Any step of the call in which no closure ends. -/
  | threads {cells : Span} {mem : List T} {plan : PartitionPlan} {reported : Option NonZeroUsize}
      {next : List V → Code T V π} {d d' : Drive Unit Empty Empty V π}
      {calling : Calling (shards_of cells plan reported).len d}
      {calling' : Calling (shards_of cells plan reported).len d'}
      {children : Children T V π cells plan reported}
      (h : driver_core.Step (shards_of cells plan reported).len waits False d d')
      (hends : ∀ index out, d'.pool.status index = .ended out →
        d.pool.status index = .ended out) :
      Step mem (.driving plan reported next d calling children) mem
        (.driving plan reported next d' calling' children)
  /-- A closure that has started goes on. -/
  | child {cells : Span} {mem mem' : List T} {plan : PartitionPlan}
      {reported : Option NonZeroUsize} {next : List V → Code T V π}
      {d : Drive Unit Empty Empty V π} {calling : Calling (shards_of cells plan reported).len d}
      {children : Children T V π cells plan reported}
      {index : Nat} {t : Task Empty Empty SlotCall V π}
      {p : Proc T V π (shard_cells cells plan reported index)}
      (hr : d.pool.status index = .running t) (h : Step mem (children index) mem' p) :
      Step mem (.driving plan reported next d calling children) mem'
        (.driving plan reported next d calling (Function.update children index p))
  | child_ends {cells : Span} {mem : List T} {plan : PartitionPlan}
      {reported : Option NonZeroUsize} {next : List V → Code T V π}
      {d : Drive Unit Empty Empty V π} {calling : Calling (shards_of cells plan reported).len d}
      {children : Children T V π cells plan reported}
      {index : Nat} {t : Task Empty Empty SlotCall V π} {out : Except π V}
      {calling' : Calling (shards_of cells plan reported).len (ended d index out)}
      (hr : d.pool.status index = .running t) (hc : children index = .done out) :
      Step mem (.driving plan reported next d calling children) mem
        (.driving plan reported next (ended d index out) calling' children)
  | returned {cells : Span} {mem : List T} {plan : PartitionPlan}
      {reported : Option NonZeroUsize} {next : List V → Code T V π}
      {d : Drive Unit Empty Empty V π} {calling : Calling (shards_of cells plan reported).len d}
      {children : Children T V π cells plan reported}
      {results : List V} (hx : d.exit = some (.returned results)) :
      Step mem (.driving plan reported next d calling children) mem (.code (next results))
  | resumed {cells : Span} {mem : List T} {plan : PartitionPlan}
      {reported : Option NonZeroUsize} {next : List V → Code T V π}
      {d : Drive Unit Empty Empty V π} {calling : Calling (shards_of cells plan reported).len d}
      {children : Children T V π cells plan reported}
      {payload : π} (hx : d.exit = some (.resumed payload)) :
      Step mem (.driving plan reported next d calling children) mem (.done (.error payload))

/-- Some cells of a memory, and what runs on them. -/
structure State (T V π : Type) (cells : Span) where
  mem : List T
  proc : Proc T V π cells

namespace State

/-- The code has all the cells. -/
def init (code : Code T V π) (cells : List T) : State T V π ⟨0, cells.length⟩ := ⟨cells, .code code⟩

def Step [Inhabited π] {cells : Span} (st st' : State T V π cells) : Prop :=
  nested.Step st.mem st.proc st'.mem st'.proc

end State

/-! ## The shards of a part of the memory -/

section shards

variable {cells : Span} {index : Nat} (plan : PartitionPlan) (reported : Option NonZeroUsize)

theorem chunk_size_fits (hn : cells.len ≤ isizeMax) : 0 < chunk_size_for plan reported cells.len ∧
    chunk_size_for plan reported cells.len ≤ usizeMax := by
  obtain ⟨hpos, hle, -⟩ := chunk_size_for_bounds (Nat.le_trans hn isizeMax_le)
    (rfl : chunk_size_for plan reported cells.len = _)
  exact ⟨hpos, hle⟩

theorem shards_of_len (hn : cells.len ≤ isizeMax) : (shards_of cells plan reported).len =
    count cells.len (chunk_size_for plan reported cells.len) := by
  have hpos := (chunk_size_fits plan reported hn).1
  unfold shards_of WriterShard.par_chunks
  rw [ParChunks.new_eq hpos]
  exact partition_count_eq hpos

/-- The shards are the chunks of the cells, where the cells lie. -/
theorem shard_cells_eq (hn : cells.len ≤ isizeMax)
    (hi : index < (shards_of cells plan reported).len) : shard_cells cells plan reported index =
      (spanAt cells.len (chunk_size_for plan reported cells.len) index).shift cells.start := by
  obtain ⟨hpos, hle⟩ := chunk_size_fits plan reported hn
  unfold shard_cells shards_of WriterShard.par_chunks at *
  rw [ParChunks.new_eq hpos] at hi ⊢
  rw [ParChunks.get_unchecked_chunk_eq hn hle hi]
  rfl

/-- The shards follow one another from the first cell to the last. -/
theorem shards_chain (hn : cells.len ≤ isizeMax) : Chain cells.start
    ((List.range (shards_of cells plan reported).len).map (shard_cells cells plan reported))
    cells.stop := by
  have hchain := chain_shift (chain_spansOf cells.len (chunk_size_fits plan reported hn).1)
    cells.start
  have heq : (spansOf cells.len (chunk_size_for plan reported cells.len)).map
      (Span.shift cells.start) =
        (List.range (shards_of cells plan reported).len).map (shard_cells cells plan reported) := by
    unfold spansOf
    rw [List.map_map, ← shards_of_len plan reported hn]
    apply List.map_congr_left
    intro i hi
    exact (shard_cells_eq plan reported hn (List.mem_range.mp hi)).symm
  rw [heq, Nat.add_zero] at hchain
  exact hchain

/-- What the shards hold, side by side, is what the cells hold. -/
theorem shards_flatten (hn : cells.len ≤ isizeMax) (mem : List T) :
    ((List.range (shards_of cells plan reported).len).map fun index =>
      (shard_cells cells plan reported index).cut mem).flatten = cells.cut mem := by
  have hflat := chain_flatten (shards_chain plan reported hn) mem
  rw [List.map_map] at hflat
  have hlen : cells.stop - cells.start = cells.len := by
    unfold Span.stop
    omega
  rw [hlen] at hflat
  exact hflat

variable {plan : PartitionPlan} {reported : Option NonZeroUsize}

theorem shard_within (hn : cells.len ≤ isizeMax)
    (hi : index < (shards_of cells plan reported).len) :
    cells.start ≤ (shard_cells cells plan reported index).start ∧
      (shard_cells cells plan reported index).stop ≤ cells.stop := by
  have hmem : shard_cells cells plan reported index ∈ _ :=
    List.mem_map_of_mem (List.mem_range.mpr hi)
  obtain ⟨hstart, -, hstop⟩ := chain_mem (shards_chain plan reported hn) hmem
  exact ⟨hstart, hstop⟩

theorem shard_len_le (hn : cells.len ≤ isizeMax)
    (hi : index < (shards_of cells plan reported).len) :
    (shard_cells cells plan reported index).len ≤ isizeMax := by
  obtain ⟨hstart, hstop⟩ := shard_within hn hi
  unfold Span.stop at hstop
  omega

theorem shard_has (hn : cells.len ≤ isizeMax) (hi : index < (shards_of cells plan reported).len)
    {x : Nat} (hx : (shard_cells cells plan reported index).Has x) : cells.Has x := by
  obtain ⟨hstart, hstop⟩ := shard_within hn hi
  exact ⟨Nat.le_trans hstart hx.1, Nat.lt_of_lt_of_le hx.2 hstop⟩

theorem shard_disjoint (hn : cells.len ≤ isizeMax) {i j : Nat}
    (hi : i < (shards_of cells plan reported).len) (hj : j < (shards_of cells plan reported).len)
    (hij : i ≠ j) {x : Nat} (hx : (shard_cells cells plan reported i).Has x) :
    ¬ (shard_cells cells plan reported j).Has x := by
  refine chain_disjoint (shards_chain plan reported hn) (i := i) (j := j) ?_ ?_ hij x hx
  · rw [List.getElem?_map, List.getElem?_range hi, Option.map_some]
  · rw [List.getElem?_map, List.getElem?_range hj, Option.map_some]

/-- A shard shows its chunk of what the cells hold. -/
theorem shard_cut (hn : cells.len ≤ isizeMax) (hi : index < (shards_of cells plan reported).len)
    (mem : List T) : (shard_cells cells plan reported index).cut mem =
      (spanAt cells.len (chunk_size_for plan reported cells.len) index).cut (cells.cut mem) := by
  have hstop := (shard_within hn hi).2
  rw [shard_cells_eq plan reported hn hi] at hstop ⊢
  refine (cut_cut ?_ mem).symm
  simp only [Span.stop, Span.shift] at *
  omega

/-- The chunks of the recursion are what the shards show. -/
theorem chunks_of_shards (hn : cells.len ≤ isizeMax) {mem : List T} (hm : cells.stop ≤ mem.length) :
    chunks (chunk_size_for plan reported (cells.cut mem).length) (cells.cut mem) =
      (List.range (shards_of cells plan reported).len).map fun index =>
        (wmul index (chunk_size_for plan reported cells.len),
          (shard_cells cells plan reported index).cut mem) := by
  have hlen := cells.cut_length mem hm
  rw [chunks_eq, hlen, spansOf, List.map_map, ← shards_of_len plan reported hn]
  apply List.map_congr_left
  intro i hi
  have hlt := List.mem_range.mp hi
  have hstart : i * chunk_size_for plan reported cells.len < cells.len := by
    rwa [shards_of_len plan reported hn, lt_count (chunk_size_fits plan reported hn).1] at hlt
  rw [shard_cut hn hlt, wmul_eq (Nat.le_trans hstart.le (Nat.le_trans hn isizeMax_le))]
  rfl

end shards

/-! ## What the shards give together -/

theorem gather_ok (values : List V) :
    gather (values.map .ok : List (Except (List π) V)) = .ok values := by
  induction values with
  | nil => rfl
  | cons value values ih => rw [List.map_cons, gather, ih]

/-- One panic is enough, and its payload is among the others. -/
theorem gather_error {outs : List (Except (List π) V)} {payload : List π}
    (h : .error payload ∈ outs) :
    ∃ payloads, gather outs = .error payloads ∧ ∀ q ∈ payload, q ∈ payloads := by
  induction outs with
  | nil => cases h
  | cons out outs ih =>
    rcases List.mem_cons.mp h with rfl | h
    · rw [gather]
      cases gather outs with
      | ok _ => exact ⟨payload, rfl, fun _ hq => hq⟩
      | error more => exact ⟨payload ++ more, rfl, fun _ hq => List.mem_append_left _ hq⟩
    · obtain ⟨payloads, hrest, hsub⟩ := ih h
      cases out with
      | ok value => exact ⟨payloads, by rw [gather, hrest], hsub⟩
      | error first =>
        refine ⟨first ++ payloads, by rw [gather, hrest], fun q hq => ?_⟩
        exact List.mem_append_right _ (hsub q hq)

section runs

variable {cells : Span} {mem mem' : List T} {p p' : Proc T V π cells}
  {r : Except (List π) V × List T}

/-! ## A call in progress -/

theorem Calling.lt_of_running {n index : Nat} {d : Drive Unit Empty Empty V π}
    {t : Task Empty Empty SlotCall V π} (h : Calling n d)
    (hr : d.pool.status index = .running t) : index < n :=
  h.inv.lt_of_ended (by simp [hr])

/-- While a closure runs the call is not left. -/
theorem Calling.exit_none {n index : Nat} {d : Drive Unit Empty Empty V π}
    {t : Task Empty Empty SlotCall V π} (h : Calling n d)
    (hr : d.pool.status index = .running t) : d.exit = none := by
  by_contra hne
  obtain ⟨exit, hx⟩ := Option.ne_none_iff_exists'.mp hne
  obtain ⟨out, hout⟩ := h.inv.all_ended (by simp) hx index (h.lt_of_running hr)
  rw [hr] at hout
  cases hout

theorem Calling.ended {n index : Nat} {d : Drive Unit Empty Empty V π}
    {t : Task Empty Empty SlotCall V π} (h : Calling n d)
    (hr : d.pool.status index = .running t) (out : Except π V) : Calling n (ended d index out) := by
  have hx := h.exit_none hr
  have hidle : ∀ i, (nested.ended d index out).pool.status i = .idle ↔ d.pool.status i = .idle := by
    intro i
    rw [ended_status]
    split
    · rename_i heq
      simp [heq, hr]
    · rfl
  refine ⟨h.pos, ⟨fun i hge => ?_, h.inv.once.nodup, fun i => ?_⟩, ?_⟩
  · exact (hidle i).mpr (h.inv.once.idle_above i hge)
  · rw [Ne, hidle i]
    exact h.inv.once.called i
  · refine h.inv.path.move ?_ ?_ (fun i => ?_) fun s i _ hs _ => (hidle i).mpr hs
    · intro hloading
      have hpath := h.inv.path
      rw [hloading] at hpath
      rw [hpath index] at hr
      cases hr
    · intro st hst
      simpa [Drive.exit, hst] using hx
    · rw [ended_status]
      split
      · rename_i heq
        subst heq
        exact .inr ⟨by simp [hr], by simp⟩
      · exact .inl rfl

/-! ## What a state leads to -/

/-- From here the cells and the outcome become those of `r`. -/
def Proc.Leads : {cells : Span} → Proc T V π cells → List T → Except (List π) V × List T → Prop
  | cells, .code c, mem, r => c.eval (cells.cut mem) = r
  | cells, .done out, mem, r => Gives r.1 out ∧ cells.cut mem = r.2
  | cells, .driving plan reported next d _ children, mem, r =>
    ∃ shards : Nat → Except (List π) V × List T,
      (∀ index < (shards_of cells plan reported).len,
        (children index).Leads mem (shards index) ∧
        ∀ out, d.pool.status index = .ended out → children index = .done out) ∧
      together ((List.range (shards_of cells plan reported).len).map shards)
        (fun values l => (next values).eval l) = r

/-- Only the cells of its own matter to what runs on them. -/
theorem leads_congr (hl : p.Leads mem r) (hn : cells.len ≤ isizeMax)
    (hcut : ∀ x, cells.Has x → mem'[x]? = mem[x]?) : p.Leads mem' r := by
  induction p generalizing r with
  | code c =>
    unfold Proc.Leads at *
    rwa [Span.cut_congr hcut]
  | done out =>
    unfold Proc.Leads at *
    rwa [Span.cut_congr hcut]
  | driving plan reported next d calling children ih =>
    obtain ⟨shards, hshards, hr⟩ := hl
    refine ⟨shards, fun index hi => ⟨?_, (hshards index hi).2⟩, hr⟩
    exact ih index (hshards index hi).1 (shard_len_le hn hi)
      fun x hx => hcut x (shard_has hn hi hx)

theorem cut_get_mut (index : Nat) (value : T) :
    cells.cut ((WriterShard.new cells).get_mut mem index value) =
      (cells.cut mem).set index value := by
  show cells.cut (if index < cells.len then mem.set (cells.start + index) value else mem) = _
  unfold Span.cut
  split
  · rw [List.drop_set, if_neg (by omega), List.take_set, Nat.add_sub_cancel_left]
  · rw [List.set_eq_of_length_le]
    rw [List.length_take]
    omega

/-- The recursion on what the cells hold, shard by shard. -/
theorem eval_partition (hn : cells.len ≤ isizeMax) (hm : cells.stop ≤ mem.length)
    (plan : PartitionPlan) (reported : Option NonZeroUsize) (f : Nat → Nat → Code T V π)
    (next : List V → Code T V π) :
    (Code.partition_map_with plan reported f next).eval (cells.cut mem) =
      together ((List.range (shards_of cells plan reported).len).map fun index =>
        (f (wmul index (chunk_size_for plan reported cells.len))
          (shard_cells cells plan reported index).len).eval
            ((shard_cells cells plan reported index).cut mem))
        fun values l => (next values).eval l := by
  rw [Code.eval, chunks_of_shards hn hm, List.map_map]
  congr 1
  apply List.map_congr_left
  intro index hmem
  have hstop := (shard_within hn (List.mem_range.mp hmem)).2
  simp only [Function.comp_apply, Span.cut_length _ mem (Nat.le_trans hstop hm)]

section joined

variable {plan : PartitionPlan} {reported : Option NonZeroUsize}
  {d : Drive Unit Empty Empty V π} {children : Children T V π cells plan reported}
  {shards : Nat → Except (List π) V × List T} {index : Nat}

/-- A closure that has ended leaves in its shard what its recursion gives. -/
theorem shard_gives (h : (children index).Leads mem (shards index)) {out : Except π V}
    (hc : children index = .done out) : Gives (shards index).1 out ∧
      (shard_cells cells plan reported index).cut mem = (shards index).2 := by
  rw [hc] at h
  exact h

/-- When all have ended, the cells are as the recursion has them. -/
theorem shards_joined (hn : cells.len ≤ isizeMax)
    (hleads : ∀ index < (shards_of cells plan reported).len,
      (children index).Leads mem (shards index))
    (hdone : ∀ index < (shards_of cells plan reported).len, ∃ out,
      children index = .done out) :
    (((List.range (shards_of cells plan reported).len).map shards).map (·.2)).flatten =
      cells.cut mem := by
  rw [← shards_flatten plan reported hn mem, List.map_map]
  congr 1
  apply List.map_congr_left
  intro index hmem
  have hi := List.mem_range.mp hmem
  obtain ⟨out, hout⟩ := hdone index hi
  exact (shard_gives (hleads index hi) hout).2.symm

/-- Each closure has a value: the recursion goes on with the values. -/
theorem together_of_values (next : List V → List T → Except (List π) V × List T)
    (hn : cells.len ≤ isizeMax)
    (hleads : ∀ index < (shards_of cells plan reported).len,
      (children index).Leads mem (shards index)) {values : List V}
    (hlen : values.length = (shards_of cells plan reported).len)
    (hdone : ∀ index < (shards_of cells plan reported).len, ∃ value,
      values[index]? = some value ∧ children index = .done (.ok value)) :
    together ((List.range (shards_of cells plan reported).len).map shards) next =
      next values (cells.cut mem) := by
  have hvalues : ((List.range (shards_of cells plan reported).len).map shards).map (·.1) =
      values.map .ok := by
    apply List.ext_getElem?
    intro index
    rw [List.getElem?_map, List.getElem?_map, List.getElem?_map]
    by_cases hi : index < (shards_of cells plan reported).len
    · obtain ⟨value, hvalue, hc⟩ := hdone index hi
      have hgives := (shard_gives (hleads index hi) hc).1
      rw [List.getElem?_range hi, hvalue]
      cases hfirst : (shards index).1 with
      | ok first =>
        rw [hfirst] at hgives
        cases hgives
        simp [hfirst]
      | error payloads =>
        rw [hfirst] at hgives
        cases hgives
    · rw [List.getElem?_eq_none (by simpa using hi), List.getElem?_eq_none (by omega)]
      rfl
  have hcuts := shards_joined hn hleads fun index hi =>
    (hdone index hi).imp' .ok fun value h => h.2
  unfold together
  simp only [hvalues, hcuts, gather_ok]

/-- One closure has panicked: so has the recursion, with that payload among others. -/
theorem together_of_panic (next : List V → List T → Except (List π) V × List T)
    (hn : cells.len ≤ isizeMax)
    (hleads : ∀ index < (shards_of cells plan reported).len,
      (children index).Leads mem (shards index))
    (hdone : ∀ index < (shards_of cells plan reported).len, ∃ out, children index = .done out)
    (hi : index < (shards_of cells plan reported).len) {payload : π}
    (hc : children index = .done (.error payload)) :
    Gives (together ((List.range (shards_of cells plan reported).len).map shards) next).1
      (.error payload) ∧
    (together ((List.range (shards_of cells plan reported).len).map shards) next).2 =
      cells.cut mem := by
  have hgives := (shard_gives (hleads index hi) hc).1
  cases hfirst : (shards index).1 with
  | ok value =>
    rw [hfirst] at hgives
    cases hgives
  | error own =>
    rw [hfirst] at hgives
    have hmem : .error own ∈
        ((List.range (shards_of cells plan reported).len).map shards).map (·.1) := by
      rw [← hfirst, List.map_map]
      exact List.mem_map_of_mem (f := fun i => (shards i).1) (List.mem_range.mpr hi)
    obtain ⟨payloads, hgather, hsub⟩ := gather_error hmem
    have hcuts := shards_joined hn hleads hdone
    unfold together
    simp only [hgather, hcuts]
    exact ⟨hsub payload hgives, trivial⟩

end joined

/-! ## A step stays in its cells, and keeps what they lead to -/

variable [Inhabited π]

theorem step_frame (h : Step mem p mem' p') (hn : cells.len ≤ isizeMax) :
    mem'.length = mem.length ∧ ∀ x, ¬ cells.Has x → mem'[x]? = mem[x]? := by
  induction h with
  | get_mut =>
    unfold WriterShard.get_mut WriterShard.new
    split
    · rename_i hi
      refine ⟨List.length_set, fun x hx => List.getElem?_set_ne ?_⟩
      rintro rfl
      exact hx ⟨Nat.le_add_right _ _, Nat.add_lt_add_left hi _⟩
    · exact ⟨rfl, fun _ _ => rfl⟩
  | @child _ _ _ _ _ _ _ calling _ _ _ _ hr _ ih =>
    have hi := calling.lt_of_running hr
    obtain ⟨hlen, hrest⟩ := ih (shard_len_le hn hi)
    exact ⟨hlen, fun x hx => hrest x fun hs => hx (shard_has hn hi hs)⟩
  | _ => exact ⟨rfl, fun _ _ => rfl⟩

/-- Any step keeps what the code leads to. -/
theorem leads_step (h : Step mem p mem' p') (hn : cells.len ≤ isizeMax)
    (hm : cells.stop ≤ mem.length) (hl : p.Leads mem r) : p'.Leads mem' r := by
  induction h generalizing r with
  | ret =>
    cases hl
    exact ⟨rfl, rfl⟩
  | panic =>
    cases hl
    exact ⟨List.mem_singleton_self _, rfl⟩
  | get => exact hl
  | get_mut =>
    unfold Proc.Leads at *
    rw [cut_get_mut]
    exact hl
  | @no_chunks cells mem plan reported f next h =>
    unfold Proc.Leads at *
    have hflat := shards_flatten plan reported hn mem
    rw [eval_partition hn hm, h] at hl
    rw [h] at hflat
    rw [← hflat]
    exact hl
  | drive slot others h =>
    unfold Proc.Leads at hl
    rw [eval_partition hn hm] at hl
    exact ⟨_, fun index _ => ⟨rfl, fun out ho => by cases ho⟩, hl⟩
  | threads h hends =>
    obtain ⟨shards, hshards, hr⟩ := hl
    refine ⟨shards, fun index hi => ⟨(hshards index hi).1, fun out ho => ?_⟩, hr⟩
    exact (hshards index hi).2 out (hends index out ho)
  | @child cells mem mem' plan reported next d calling children index t p hr h ih =>
    obtain ⟨shards, hshards, hsum⟩ := hl
    have hi := calling.lt_of_running hr
    have hrest := (step_frame h (shard_len_le hn hi)).2
    refine ⟨shards, fun i hlt => ?_, hsum⟩
    obtain ⟨hleads, hdone⟩ := hshards i hlt
    by_cases heq : i = index
    · subst heq
      rw [Function.update_self]
      refine ⟨ih (shard_len_le hn hi) ?_ hleads, fun out ho => ?_⟩
      · exact Nat.le_trans (shard_within hn hi).2 hm
      · rw [hr] at ho
        cases ho
    · rw [Function.update_of_ne heq]
      refine ⟨leads_congr hleads (shard_len_le hn hlt) fun x hx => ?_, hdone⟩
      exact hrest x (shard_disjoint hn hlt hi heq hx)
  | @child_ends cells mem plan reported next d calling children index t out calling' hr hc =>
    obtain ⟨shards, hshards, hsum⟩ := hl
    refine ⟨shards, fun i hi => ⟨(hshards i hi).1, fun o ho => ?_⟩, hsum⟩
    rw [ended_status] at ho
    split at ho
    · rename_i heq
      subst heq
      cases ho
      exact hc
    · exact (hshards i hi).2 o ho
  | @returned cells mem plan reported next d calling children results hx =>
    obtain ⟨shards, hshards, hsum⟩ := hl
    obtain ⟨hlen, hres⟩ := calling.inv.returned hx
    rw [together_of_values _ hn (fun i hi => (hshards i hi).1) hlen fun i hi => ?_] at hsum
    · exact hsum
    · obtain ⟨value, hstatus, hvalue⟩ := hres i hi
      exact ⟨value, hvalue, (hshards i hi).2 _ hstatus⟩
  | @resumed cells mem plan reported next d calling children payload hx =>
    obtain ⟨shards, hshards, hsum⟩ := hl
    obtain ⟨hall, index, hi, hstatus⟩ := calling.inv.resumed hx
    obtain ⟨hgives, hcut⟩ := together_of_panic (fun values l => (next values).eval l) hn
      (fun i hlt => (hshards i hlt).1)
      (fun i hlt => by
        obtain ⟨out, hout⟩ := hall i hlt
        exact ⟨out, (hshards i hlt).2 out hout⟩) hi ((hshards index hi).2 _ hstatus)
    rw [hsum] at hgives hcut
    exact ⟨hgives, hcut.symm⟩

/-! ## No run stops before its end -/

/-- What has not ended can go on. -/
theorem progress (p : Proc T V π cells) (mem : List T) :
    (∃ out, p = .done out) ∨ ∃ mem' p', Step mem p mem' p' := by
  induction p generalizing mem with
  | done out => exact .inl ⟨out, rfl⟩
  | @code cells c =>
    refine .inr ?_
    cases c with
    | ret value => exact ⟨_, _, .ret⟩
    | panic payload => exact ⟨_, _, .panic⟩
    | get index next => exact ⟨_, _, .get⟩
    | get_mut index value next => exact ⟨_, _, .get_mut⟩
    | partition_map_with plan reported f next =>
      rcases Nat.eq_zero_or_pos (shards_of cells plan reported).len with h | h
      · exact ⟨_, _, .no_chunks h⟩
      · exact ⟨_, _, .drive none [] h⟩
  | @driving cells plan reported next d calling children ih =>
    refine .inr ?_
    cases hx : d.exit with
    | some exit =>
      rcases calling.inv.exit_cases (by simp) hx with ⟨results, rfl⟩ | ⟨payload, rfl⟩
      · exact ⟨_, _, .returned hx⟩
      · exact ⟨_, _, .resumed hx⟩
    | none =>
      obtain ⟨d', hd⟩ : ∃ d',
          driver_core.Step (shards_of cells plan reported).len waits False d d' := by
        by_contra hstop
        obtain ⟨exit, hexit⟩ := exit_of_stopped calling.inv fun d' hd => hstop ⟨d', hd⟩
        rw [hx] at hexit
        cases hexit
      have calling' : Calling (shards_of cells plan reported).len d' :=
        ⟨calling.pos, inv_step calling.pos calling.inv hd⟩
      rcases step_pool calling.pos calling.inv hd with hpool | hmove
      · exact ⟨mem, .driving plan reported next d' calling' children,
          .threads hd fun index out ho => by rwa [hpool] at ho⟩
      · generalize hpool : d'.pool = pool at hmove
        cases hmove with
        | @start i hi hidle =>
          refine ⟨mem, .driving plan reported next d' calling' children,
            .threads hd fun index out ho => ?_⟩
          rw [hpool] at ho
          rcases Pool.start_status d.pool i (waits i) index with heq | ⟨-, heq⟩
          · rwa [heq] at ho
          · rw [heq] at ho
            cases ho
        | act i ha =>
          obtain ⟨t, -, ht, -⟩ := Pool.advance_cases ha
          rcases ih i mem with ⟨out, hout⟩ | ⟨mem', p', hstep⟩
          · exact ⟨mem, .driving plan reported next (ended d i out) (calling.ended ht out) children,
              .child_ends ht hout⟩
          · exact ⟨mem', _, .child ht hstep⟩

/-! ## Every run stops -/

/-- One step, whatever the memory was. -/
def Later {cells : Span} (p' p : Proc T V π cells) : Prop := ∃ mem mem', Step mem p mem' p'

theorem acc_of_steps (h : ∀ mem mem' p', Step mem p mem' p' → Acc Later p') : Acc Later p := by
  refine ⟨p, fun p' hs => ?_⟩
  obtain ⟨mem, mem', hs⟩ := hs
  exact h mem mem' p' hs

theorem acc_done (out : Except π V) : Acc Later (.done out : Proc T V π cells) := by
  apply acc_of_steps
  intro mem mem' p' hs
  cases hs

/-- A call ends if its closures do, and what follows it: its threads come closer to
the exit, or one of the closures comes closer to its end. -/
theorem acc_driving {plan : PartitionPlan} {reported : Option NonZeroUsize}
    {next : List V → Code T V π}
    (hnext : ∀ values, Acc Later (.code (next values) : Proc T V π cells))
    {d : Drive Unit Empty Empty V π} (calling : Calling (shards_of cells plan reported).len d)
    {children : Children T V π cells plan reported} (h : ∀ index, Acc Later (children index)) :
    Acc Later (.driving plan reported next d calling children) := by
  let n := (shards_of cells plan reported).len
  induction hm : toLex (d.left n, fun index : Fin n => (h index).rank) using
    WellFoundedLT.induction generalizing d children with
  | ind m ih =>
    subst hm
    apply acc_of_steps
    intro mem mem' p' hs
    cases hs with
    | threads hd hends =>
      exact ih _ (Prod.Lex.left _ _ (left_step calling.pos calling.inv hd)) _ h rfl
    | child hr hs =>
      obtain ⟨h', hlt⟩ := acc_update h (calling.lt_of_running hr) ⟨_, _, hs⟩
      exact ih _ (Prod.Lex.right _ hlt) calling h' rfl
    | child_ends hr hc =>
      refine ih _ (Prod.Lex.left _ _ (left_of_pool ?_)) _ h rfl
      exact left_lt (calling.lt_of_running hr) rfl (hr ▸ .stop _ _)
    | returned hx => exact hnext _
    | resumed hx => exact acc_done _

/-- By induction on the code: what a step leaves is a part of it. -/
theorem acc_code (c : Code T V π) (cells : Span) : Acc Later (.code c : Proc T V π cells) := by
  induction c generalizing cells with
  | ret value =>
    apply acc_of_steps
    intro mem mem' p' hs
    cases hs
    exact acc_done _
  | panic payload =>
    apply acc_of_steps
    intro mem mem' p' hs
    cases hs
    exact acc_done _
  | get index next ih =>
    apply acc_of_steps
    intro mem mem' p' hs
    cases hs
    exact ih _ cells
  | get_mut index value next ih =>
    apply acc_of_steps
    intro mem mem' p' hs
    cases hs
    exact ih cells
  | partition_map_with plan reported f next ihf ihnext =>
    apply acc_of_steps
    intro mem mem' p' hs
    cases hs with
    | no_chunks h => exact ihnext _ cells
    | drive slot others h =>
      exact acc_driving (fun values => ihnext values cells) _ fun index => ihf _ _ _

theorem acc_proc (p : Proc T V π cells) : Acc Later p := by
  induction p with
  | code c => exact acc_code c _
  | done out => exact acc_done out
  | driving plan reported next d calling children ih =>
    exact acc_driving (fun values => acc_code _ _) calling ih

theorem nested_ends (st : State T V π cells) :
    Ends State.Step (fun st => ∃ out, st.proc = .done out) st := by
  obtain ⟨mem, p⟩ := st
  induction acc_proc p generalizing mem with
  | intro p _ ih =>
    refine .intro (fun t ht => ih t.proc ⟨mem, t.mem, ht⟩ t.mem) fun hst => ?_
    rcases progress p mem with hdone | ⟨mem', p', hs⟩
    · exact hdone
    · exact absurd hs (hst ⟨mem', p'⟩)

/-! ## The whole run -/

theorem leads_of_run {code : Code T V π} {cells : List T} (hlen : cells.length ≤ isizeMax)
    {st : State T V π ⟨0, cells.length⟩} (h : Reaches State.Step (State.init code cells) st) :
    st.mem.length = cells.length ∧ st.proc.Leads st.mem (code.eval cells) := by
  refine inv_of_reaches (I := fun st =>
    st.mem.length = cells.length ∧ st.proc.Leads st.mem (code.eval cells)) h ⟨rfl, ?_⟩
    fun a b ⟨hmem, hleads⟩ hs => ?_
  · unfold State.init Proc.Leads
    rw [Span.cut_all]
  · refine ⟨(step_frame hs hlen).1.trans hmem, leads_step hs hlen ?_ hleads⟩
    simp only [Span.stop]
    omega

/-- Partitions in partitions, to any depth, under any plans, executors and schedules: every
run ends, with the value of the plain recursion or the payload of one of its panics,
and leaves the cells as the recursion does, also where it panics. -/
theorem a_nested_partition_runs_as_its_recursion (code : Code T V π) (cells : List T)
    (hlen : cells.length ≤ isizeMax) :
    Ends State.Step (fun st => ∃ out, st.proc = .done out) (State.init code cells) ∧
    ∀ st out, Reaches State.Step (State.init code cells) st → st.proc = .done out →
      Gives (code.eval cells).1 out ∧ st.mem = (code.eval cells).2 := by
  refine ⟨nested_ends _, fun st out hr hdone => ?_⟩
  obtain ⟨hmem, hleads⟩ := leads_of_run hlen hr
  rw [hdone] at hleads
  obtain ⟨hout, hcut⟩ := hleads
  have hall := Span.cut_all st.mem
  rw [hmem] at hall
  exact ⟨hout, hall.symm.trans hcut⟩

end runs

/-- Halves the cells down to single ones, adds one to each and sums what they held. -/
def halves : Nat → Code Nat Nat Nat
  | 0 => .get 0 fun
    | some value => .get_mut 0 (value + 1) (.ret value)
    | none => .panic 7
  | depth + 1 => .partition_map_with (.parts ⟨2, by decide⟩) none (fun _ _ => halves depth)
    fun sums => .ret sums.sum

theorem the_halves_of_four_add_up : ∃ st,
    Reaches State.Step (State.init (halves 2) [1, 2, 3, 4]) st ∧
      st.proc = .done (.ok 10) ∧ st.mem = [2, 3, 4, 5] := by
  obtain ⟨hends, hruns⟩ := a_nested_partition_runs_as_its_recursion (halves 2) [1, 2, 3, 4]
    (by decide)
  obtain ⟨st, hr, out, hdone⟩ := hends.exists_run
  obtain ⟨hout, hmem⟩ := hruns st out hr hdone
  rw [show (halves 2).eval [1, 2, 3, 4] = (.ok 10, [2, 3, 4, 5]) from rfl] at hout hmem
  cases out with
  | ok value =>
    cases hout
    exact ⟨st, hr, hdone, hmem⟩
  | error payload => cases hout

end melinoe.nested
