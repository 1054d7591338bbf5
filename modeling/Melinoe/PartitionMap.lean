-- The partition drivers: `map.rs` and `read_map.rs`. A closure is a task on the
-- cells of its shard, which it names by their places in the shard.
import Melinoe.DriverRuns
import Melinoe.PartitionPlan
import Melinoe.Windows

open tasks tiles runs

namespace melinoe.sync

open driver_core region

/-! ## The functions of the source -/

/-- What a partition driver does: it returns at once, or it calls `drive`. Task
`index` evaluates `arg index`, which may panic, and calls `f` on it. -/
inductive Call (σ κ α ρ π : Type)
  | done (results : List ρ)
  | drive (num_chunks : Nat) (arg : Nat → Except π σ) (f : σ → Task κ α SlotCall ρ π)

variable {μ κ α σ T ρ π : Type}

/-- The closure that a driver hands to `drive`. -/
def Call.run (arg : Nat → Except π σ) (f : σ → Task κ α SlotCall ρ π) (index : Nat) :
    Task κ α SlotCall ρ π :=
  match arg index with
  | .ok a => f a
  | .error payload => .panic payload

/-- How many tasks the call has. -/
def Call.num_chunks : Call σ κ α ρ π → Nat
  | .done _ => 0
  | .drive num_chunks _ _ => num_chunks

/-- What task `index` evaluates before it calls `f`: the arguments, or a panic. -/
def Call.task_arg : Call σ κ α ρ π → Nat → Option (Except π σ)
  | .done _, _ => none
  | .drive num_chunks arg _, index => if index < num_chunks then some (arg index) else none

/-- A closure with the shard: its places are those of the shard's cells. -/
def shard_task (shard : WriterShard) (t : Task Nat T SlotCall ρ π) : Task Nat T SlotCall ρ π :=
  t.relocate shard.cells.addr

def partition_map_with (cells_len : Nat) (plan : PartitionPlan) (reported : Option NonZeroUsize)
    (f : Nat → Nat → Task Nat T SlotCall ρ π) : Call (Nat × WriterShard) Nat T ρ π :=
  let chunk := plan.resolve reported cells_len
  let chunk_size := max chunk 1
  let par := (WriterShard.new ⟨0, cells_len⟩).par_chunks chunk_size
  let num_chunks := par.len
  if num_chunks = 0 then .done []
  else .drive num_chunks
    (fun index => .ok (wmul index chunk_size, par.get_unchecked_chunk index))
    fun (start, shard) => shard_task shard (f start shard.len)

def partition_map (cells_len : Nat) (parts : Usize) (reported : Option NonZeroUsize)
    (f : Nat → Nat → Task Nat T SlotCall ρ π) : Call (Nat × WriterShard) Nat T ρ π :=
  partition_map_with cells_len (PartitionPlan.parts parts) reported f

def partition_map_available (cells_len : Nat) (reported : Option NonZeroUsize)
    (f : Nat → Nat → Task Nat T SlotCall ρ π) : Call (Nat × WriterShard) Nat T ρ π :=
  partition_map_with cells_len PartitionPlan.available_parallelism reported f

/-- `slice_fail` is the payload of the panic of `slice[start..end]`. -/
def partition_read_map_with (slice : List T) (plan : PartitionPlan)
    (reported : Option NonZeroUsize) (slice_fail : π)
    (f : Nat → List T → Task κ α SlotCall ρ π) : Call (Nat × List T) κ α ρ π :=
  let chunk := plan.resolve reported slice.length
  let chunk_size := max chunk 1
  let slice_len := slice.length
  let num_chunks := partition_count slice_len chunk_size
  if num_chunks = 0 then .done []
  else .drive num_chunks
    (fun index =>
      let start := wmul index chunk_size
      let stop := min (wadd start chunk_size) slice_len
      if start ≤ stop ∧ stop ≤ slice_len then .ok (start, (Span.mk start (stop - start)).cut slice)
      else .error slice_fail)
    fun (start, shard) => f start shard

/-! ## A call from its start to its exit -/

namespace Call

variable [Memory μ κ α]

/-- The call is left with `exit`, and `pool` is what it did. The executor, if
one is registered, meets its contract and returns. -/
inductive Exits (slot : Option Executor) (others : List SlotCall) (mem : μ) :
    Call σ κ α ρ π → Exit ρ π → Pool μ κ α SlotCall ρ π → Prop
  | done (results : List ρ) : Exits slot others mem (.done results) (.returned results) (.init mem)
  | drive {num_chunks : Nat} {arg : Nat → Except π σ} {f : σ → Task κ α SlotCall ρ π}
      {d : Drive μ κ α ρ π} {exit : Exit ρ π}
      (h : Reaches (Step num_chunks (run arg f) False) (Drive.init slot others mem) d)
      (hx : d.exit = some exit) : Exits slot others mem (.drive num_chunks arg f) exit d.pool

/-- Under every schedule the call ends with an exit. -/
def Terminates (slot : Option Executor) (others : List SlotCall) (mem : μ) :
    Call σ κ α ρ π → Prop
  | .done _ => True
  | .drive num_chunks arg f => Ends (Step num_chunks (run arg f) False)
      (fun d => ∃ exit, d.exit = some exit) (Drive.init slot others mem)

/-- The arguments that `f` was called with, and the memory at each call. -/
def called : Call σ κ α ρ π → Pool μ κ α SlotCall ρ π → List (σ × μ)
  | .done _, _ => []
  | .drive _ arg _, pool => pool.calls.filterMap fun (index, m) => (arg index).toOption.map (·, m)

end Call

theorem called_drive {num_chunks : Nat} {arg : Nat → Except π σ} {f : σ → Task κ α SlotCall ρ π}
    {pool : Pool μ κ α SlotCall ρ π} {a : Nat → σ} (h : ∀ c ∈ pool.calls, arg c.1 = .ok (a c.1)) :
    (Call.drive num_chunks arg f).called pool = pool.calls.map fun c => (a c.1, c.2) := by
  simp only [Call.called]
  generalize pool.calls = calls at *
  induction calls with
  | nil => rfl
  | cons c rest ih =>
    rw [List.filterMap_cons, h c (by simp), ih fun c hc => h c (by simp [hc])]
    rfl

/-- A driver that calls `drive` unless there is nothing to do has `n` tasks. -/
theorem num_chunks_drive (n : Nat) (arg : Nat → Except π σ) (f : σ → Task κ α SlotCall ρ π) :
    (if n = 0 then .done [] else .drive n arg f : Call σ κ α ρ π).num_chunks = n := by
  split
  · rename_i hn
    rw [hn]
    rfl
  · rfl

theorem task_arg_drive {n index : Nat} (hi : index < n) (arg : Nat → Except π σ)
    (f : σ → Task κ α SlotCall ρ π) :
    (if n = 0 then .done [] else .drive n arg f : Call σ κ α ρ π).task_arg index =
      some (arg index) := by
  rw [if_neg (by omega)]
  exact if_pos hi

theorem terminates_drive [Memory μ κ α] (num_chunks : Nat) (arg : Nat → Except π σ)
    (f : σ → Task κ α SlotCall ρ π) (slot : Option Executor) (others : List SlotCall) (mem : μ) :
    (if num_chunks = 0 then .done [] else .drive num_chunks arg f : Call σ κ α ρ π).Terminates slot
      others mem := by
  split
  · trivial
  · exact (drive_ends (by omega) slot others mem).mono fun _ _ h => h.2

/-! ## Tasks with windows, driven to the exit -/

section windows

variable [Memory μ κ α] {n : Nat} {addr : Nat → Nat → Option κ} {mem : μ} {view : Nat → List α}
  {body : Nat → Task Nat α SlotCall ρ π} {run : Nat → Task κ α SlotCall ρ π}
  {slot : Option Executor} {others : List SlotCall} {d : Drive μ κ α ρ π}

/-- What is known of a call of `drive` whose tasks keep to their windows. -/
structure Driven (n : Nat) (addr : Nat → Nat → Option κ) (mem : μ) (view : Nat → List α)
    (body : Nat → Task Nat α SlotCall ρ π) (exit : Exit ρ π) (pool : Pool μ κ α SlotCall ρ π) :
    Prop where
  calls : (pool.calls.map (·.1)).Perm (List.range n)
  called : ∀ c ∈ pool.calls, Shows (addr c.1) c.2 (view c.1)
  memory : ∀ i < n, Shows (addr i) pool.mem ((body i).exec (view i)).2
  cells : ∀ a, (Memory.get pool.mem a).isSome = (Memory.get mem a).isSome
  exit : (∃ results, exit = .returned results ∧
      (List.range n).map (fun i => ((body i).exec (view i)).1) = results.map .ok) ∨
    ∃ payload, exit = .resumed payload ∧ ∃ i < n, ((body i).exec (view i)).1 = .error payload

theorem driven_of_exit (hn : 0 < n) (w : Windows n addr mem view)
    (hrun : ∀ i < n, run i = (body i).relocate (addr i))
    (h : Reaches (Step n run False) (Drive.init slot others mem) d) {exit : Exit ρ π}
    (hx : d.exit = some exit) : Driven n addr mem view body exit d.pool := by
  have hinv : Inv n False d := inv_of_reaches_init hn h
  have hiso : Isolated run (fun i => InWindow (addr i)) n mem d.pool :=
    pool_inv_of_reaches hn h (isolated_init ..) fun _ _ => w.isolated_move hrun
  have hall := hinv.all_ended (by simp) hx
  have hlt : ∀ c ∈ d.pool.calls, c.1 < n := fun c hc =>
    hinv.lt_of_ended ((hinv.once.called c.1).mp (List.mem_map_of_mem hc))
  refine ⟨hinv.calls_perm hall, fun c hc => w.called hiso (hlt c hc) hc, fun i hi => ?_, ?_, ?_⟩
  · obtain ⟨o, ho⟩ := hall i hi
    exact (w.ended hrun hiso hi ho).2
  · exact pool_inv_of_reaches
      (P := fun p => ∀ a, (Memory.get p.mem a).isSome = (Memory.get mem a).isSome) hn h
      (fun _ => rfl) fun p p' hp hm a => (isSome_move hm a).trans (hp a)
  · rcases hinv.exit_cases (by simp) hx with ⟨results, rfl⟩ | ⟨payload, rfl⟩
    · obtain ⟨hlen, hres⟩ := hinv.returned hx
      refine .inl ⟨results, rfl, List.ext_getElem? fun i => ?_⟩
      by_cases hi : i < n
      · obtain ⟨val, hval, hget⟩ := hres i hi
        simp [hi, hget, (w.ended hrun hiso hi hval).1]
      · simp [hi, hlen]
    · obtain ⟨-, i, hi, hs⟩ := hinv.resumed hx
      exact .inr ⟨payload, rfl, i, hi, (w.ended hrun hiso hi hs).1.symm⟩

/-- A driver that calls `drive` unless there is nothing to do. -/
theorem driven_of_exits {arg : Nat → Except π σ} {f : σ → Task κ α SlotCall ρ π} {a : Nat → σ}
    (w : Windows n addr mem view) (hargs : ∀ i < n, arg i = .ok (a i))
    (hrun : ∀ i < n, f (a i) = (body i).relocate (addr i)) {exit : Exit ρ π}
    {pool : Pool μ κ α SlotCall ρ π}
    (h : (if n = 0 then .done [] else .drive n arg f : Call σ κ α ρ π).Exits slot others mem exit
      pool) :
    Driven n addr mem view body exit pool ∧
    (if n = 0 then .done [] else .drive n arg f : Call σ κ α ρ π).called pool =
      pool.calls.map fun c => (a c.1, c.2) := by
  by_cases hn : n = 0
  · subst hn
    cases h with
    | done =>
      exact ⟨⟨.refl _, by simp [Pool.init], by simp, fun _ => rfl, .inl ⟨[], rfl, rfl⟩⟩, rfl⟩
  · rw [if_neg hn] at h ⊢
    cases h with
    | drive hreach hx =>
      have hcall : ∀ i < n, Call.run arg f i = (body i).relocate (addr i) := fun i hi => by
        unfold Call.run
        rw [hargs i hi]
        exact hrun i hi
      have hdriven := driven_of_exit (by omega) w hcall hreach hx
      refine ⟨hdriven, called_drive fun c hc => hargs c.1 ?_⟩
      exact List.mem_range.mp (hdriven.calls.mem_iff.mp (List.mem_map_of_mem hc))

/-- Over the shards, `f` was called with each of them, once, and the call has
returned what `f` gave for them, in order, or re-raised a panic of `f`. -/
structure Mapped (shards : List (Nat × List α)) (f : Nat → Nat → Task Nat α SlotCall ρ π)
    (called : List (Nat × List α)) (exit : Exit ρ π) : Prop where
  called : called.Perm shards
  exit : (∃ results, exit = .returned results ∧
      shards.map (fun s => ((f s.1 s.2.length).exec s.2).1) = results.map .ok) ∨
    ∃ payload, exit = .resumed payload ∧
      ∃ s ∈ shards, ((f s.1 s.2.length).exec s.2).1 = .error payload

theorem Driven.mapped {f : Nat → Nat → Task Nat α SlotCall ρ π} {start : Nat → Nat}
    {exit : Exit ρ π} {pool : Pool μ κ α SlotCall ρ π}
    (h : Driven n addr mem view (fun i => f (start i) (view i).length) exit pool)
    {called : List (Nat × List α)} (look : Nat → μ → List α)
    (hcalled : called = pool.calls.map fun c => (start c.1, look c.1 c.2))
    (hlook : ∀ i < n, ∀ m l, Shows (addr i) m l → look i m = l) :
    Mapped ((List.range n).map fun i => (start i, view i)) f called exit := by
  refine ⟨?_, ?_⟩
  · have hview : called = (pool.calls.map (·.1)).map fun i => (start i, view i) := by
      rw [hcalled, List.map_map]
      apply List.map_congr_left
      intro c hc
      have hi : c.1 < n := List.mem_range.mp (h.calls.mem_iff.mp (List.mem_map_of_mem hc))
      simp only [Function.comp, hlook c.1 hi c.2 _ (h.called c hc)]
    rw [hview]
    exact h.calls.map _
  · rcases h.exit with ⟨results, rfl, hres⟩ | ⟨payload, rfl, i, hi, hp⟩
    · exact .inl ⟨results, rfl, by rw [← hres, List.map_map]; rfl⟩
    · exact .inr ⟨payload, rfl, (start i, view i),
        List.mem_map.mpr ⟨i, List.mem_range.mpr hi, rfl⟩, hp⟩

end windows

theorem shows_addr {s : Span} {m l : List T} : Shows s.addr m l ↔ s.cut m = l := by
  rw [shows_iff]
  constructor
  · intro h
    apply List.ext_getElem?
    intro i
    rw [h i, Span.cut_getElem?_addr]
    rfl
  · rintro rfl i
    exact Span.cut_getElem?_addr s m i

/-- A memory with the same cells as a list is a list of its length. -/
theorem length_of_cells {m l : List T}
    (h : ∀ a, (Memory.get m a).isSome = (Memory.get l a).isSome) : m.length = l.length := by
  have hlt : ∀ a, a < m.length ↔ a < l.length := fun a => by
    have := h a
    rw [get_list, get_list] at this
    rw [← isSome_getElem? m a, this, isSome_getElem? l a]
  have h1 := hlt m.length
  have h2 := hlt l.length
  omega

/-! ## The region driver -/

section region

variable {cells : List T} {plan : PartitionPlan} {reported : Option NonZeroUsize}
  {f : Nat → Nat → Task Nat T SlotCall ρ π} {slot : Option Executor} {others : List SlotCall}

theorem region_windows {c : Nat} (hc : 0 < c) (cells : List T) :
    Windows (count cells.length c) (fun i => (spanAt cells.length c i).addr) cells
      fun i => (cells.drop (i * c)).take c where
  inj i _ a b x ha hb := by
    obtain ⟨-, rfl⟩ := Span.addr_eq_some.mp ha
    obtain ⟨-, hb⟩ := Span.addr_eq_some.mp hb
    omega
  disjoint i hi j hj hij x := by
    rintro ⟨a, ha⟩ ⟨b, hb⟩
    exact spanAt_disjoint hc hi hj hij x (Span.addr_has ha) (Span.addr_has hb)
  shows i _ := shows_addr.mpr (spanAt_cut c i cells)

/-- The contents of the shards that a call handed out, when each was. -/
def contents (called : List ((Nat × WriterShard) × List T)) : List (Nat × List T) :=
  called.map fun ((start, shard), m) => (start, shard.as_slice m)

/-- The closure of `partition_map_with`, with the arguments of its call of `f`. -/
theorem partition_map_with_eq {n c : Nat} (hn : n ≤ usizeMax) (hc : plan.resolve reported n = c) :
    partition_map_with n plan reported f =
      if count n c = 0 then .done []
      else .drive (count n c)
        (fun index => .ok (wmul index c, (ParChunks.new ⟨0, n⟩ c).get_unchecked_chunk index))
        fun (start, shard) => shard_task shard (f start shard.len) := by
  obtain ⟨hpos, -⟩ := resolve_bounds plan reported hn hc
  unfold partition_map_with WriterShard.par_chunks
  simp only [hc, Nat.max_eq_left hpos, ParChunks.len, WriterShard.new, ParChunks.new,
    partition_count_eq hpos]

theorem partition_map_with_run (hlen : cells.length ≤ isizeMax) {c i : Nat} (hpos : 0 < c)
    (hle : c ≤ usizeMax) (hi : i < count cells.length c) :
    wmul i c = i * c ∧
    (ParChunks.new ⟨0, cells.length⟩ c).get_unchecked_chunk i = ⟨spanAt cells.length c i⟩ ∧
    ((cells.drop (i * c)).take c).length = (spanAt cells.length c i).len := by
  have hfits := chunk_end_fits ((lt_count hpos).mp hi) hlen hle
  refine ⟨wmul_eq (Nat.le_trans (Nat.le_add_right _ _) hfits),
    ParChunks.get_unchecked_chunk_spanAt (Nat.le_trans hlen isizeMax_le) hfits hpos hi, ?_⟩
  simp only [spanAt, List.length_take, List.length_drop]
  omega

theorem partition_map_with_exits (hlen : cells.length ≤ isizeMax) {exit : Exit ρ π}
    {pool : Pool (List T) Nat T SlotCall ρ π}
    (h : (partition_map_with cells.length plan reported f).Exits slot others cells exit pool) :
    Mapped (chunks (plan.resolve reported cells.length) cells) f
      (contents ((partition_map_with cells.length plan reported f).called pool)) exit ∧
    (∀ call ∈ (partition_map_with cells.length plan reported f).called pool,
      0 < call.1.2.len ∧ call.1.2.cells.stop ≤ cells.length) ∧
    pool.mem.length = cells.length ∧
    ∀ s ∈ chunks (plan.resolve reported cells.length) cells,
      (Span.mk s.1 s.2.length).cut pool.mem = ((f s.1 s.2.length).exec s.2).2 := by
  have hmax : cells.length ≤ usizeMax := Nat.le_trans hlen isizeMax_le
  obtain ⟨hpos, hle⟩ := resolve_bounds plan reported hmax rfl
  rw [partition_map_with_eq hmax rfl] at h ⊢
  generalize plan.resolve reported cells.length = c at *
  have hargs : ∀ i < count cells.length c, (Except.ok (wmul i c,
      (ParChunks.new ⟨0, cells.length⟩ c).get_unchecked_chunk i) : Except π _) =
      .ok (i * c, ⟨spanAt cells.length c i⟩) := by
    intro i hi
    obtain ⟨hw, hs, -⟩ := partition_map_with_run hlen hpos hle hi
    rw [hw, hs]
  have hrun : ∀ i < count cells.length c,
      shard_task ⟨spanAt cells.length c i⟩ (f (i * c) (spanAt cells.length c i).len) =
      (f (i * c) ((cells.drop (i * c)).take c).length).relocate (spanAt cells.length c i).addr := by
    intro i hi
    rw [(partition_map_with_run hlen hpos hle hi).2.2]
    rfl
  obtain ⟨hdriven, hcalled⟩ := driven_of_exits (region_windows hpos cells) hargs hrun h
  rw [hcalled]
  refine ⟨?_, ?_, length_of_cells hdriven.cells, fun s hs => ?_⟩
  · refine hdriven.mapped (fun i m => (spanAt cells.length c i).cut m) ?_
      fun i _ m l => shows_addr.mp
    rw [contents, List.map_map]
    rfl
  · intro call hcall
    obtain ⟨c', hc', rfl⟩ := List.mem_map.mp hcall
    have hi := hdriven.calls.mem_iff.mp (List.mem_map_of_mem hc')
    have hlt := (lt_count hpos).mp (List.mem_range.mp hi)
    simp only [WriterShard.len, spanAt, Span.stop]
    omega
  · obtain ⟨i, hi, rfl⟩ := List.mem_map.mp hs
    have hi := List.mem_range.mp hi
    have := shows_addr.mp (hdriven.memory i hi)
    rw [← this, (partition_map_with_run hlen hpos hle hi).2.2]
    rfl

theorem partition_map_with_terminates (hlen : cells.length ≤ usizeMax) :
    (partition_map_with cells.length plan reported f).Terminates slot others cells := by
  rw [partition_map_with_eq hlen rfl]
  exact terminates_drive ..

/-- The region after a call is what the shards' tasks made of them, put together. -/
theorem mem_of_shards {c : Nat} (hc : 0 < c) {mem : List T} (hmem : mem.length = cells.length)
    (g : Nat → List T → List T)
    (h : ∀ s ∈ chunks c cells, (Span.mk s.1 s.2.length).cut mem = g s.1 s.2) :
    mem = ((chunks c cells).map fun s => g s.1 s.2).flatten := by
  rw [chunks_eq, List.map_map]
  refine chain_rebuild (hmem ▸ chain_spansOf cells.length hc) _ fun s hs => ?_
  have hstop := (chain_mem (chain_spansOf cells.length hc) hs).2.2
  have hcut := h (s.start, s.cut cells) (by
    rw [chunks_eq]
    exact List.mem_map.mpr ⟨s, hs, rfl⟩)
  rwa [Span.cut_length s cells hstop] at hcut

/-- Shards on which `f` does what `g` says give the results of `g`, in order. -/
theorem Mapped.returned {shards called : List (Nat × List T)} {exit : Exit ρ π}
    (h : Mapped shards f called exit) {g : Nat → List T → ρ × List T}
    (hf : ∀ s ∈ shards, (f s.1 s.2.length).exec s.2 = (.ok (g s.1 s.2).1, (g s.1 s.2).2)) :
    exit = .returned (shards.map fun s => (g s.1 s.2).1) := by
  rcases h.exit with ⟨results, rfl, hres⟩ | ⟨payload, rfl, s, hs, hp⟩
  · have hok : shards.map (fun s => ((f s.1 s.2.length).exec s.2).1) =
        (shards.map fun s => (g s.1 s.2).1).map .ok := by
      rw [List.map_map]
      exact List.map_congr_left fun s hs => by rw [hf s hs]; rfl
    rw [hok] at hres
    rw [List.map_injective_iff.mpr (fun _ _ => Except.ok.inj) hres]
  · rw [hf s hs] at hp
    cases hp

/-- A closure that does what `g` says, whatever `g` is: it reads its shard, and
writes it back as `g` made it. -/
def shard_closure (g : Nat → List T → ρ × List T) (start len : Nat) : Task Nat T SlotCall ρ π :=
  Task.updating (g start) len

theorem shard_closure_exec {g : Nat → List T → ρ × List T}
    (hg : ∀ start l, (g start l).2.length = l.length) (start : Nat) (l : List T) :
    (shard_closure g start l.length : Task Nat T SlotCall ρ π).exec l =
      (.ok (g start l).1, (g start l).2) :=
  Task.exec_updating (hg start l)

/-- Whichever driver the call picks, and in whatever order the tasks run, the
results are those of `g` over the consecutive chunks of the region, in order,
each chunk is handed out once, and the region is the chunks as `g` made them. -/
theorem partition_map_with_is_the_sequential_map (cells : List T)
    (hlen : cells.length ≤ isizeMax) (plan : PartitionPlan) (reported : Option NonZeroUsize)
    (f : Nat → Nat → Task Nat T SlotCall ρ π) (g : Nat → List T → ρ × List T)
    (hf : ∀ s ∈ chunks (plan.resolve reported cells.length) cells,
      (f s.1 s.2.length).exec s.2 = (.ok (g s.1 s.2).1, (g s.1 s.2).2))
    (slot : Option Executor) (others : List SlotCall) :
    let call := partition_map_with cells.length plan reported f
    let shards := chunks (plan.resolve reported cells.length) cells
    ((shards.map (·.2)).flatten = cells ∧ ∀ s ∈ shards, s.2 ≠ []) ∧
    call.Terminates slot others cells ∧
    ∀ exit pool, call.Exits slot others cells exit pool →
      exit = .returned (shards.map fun s => (g s.1 s.2).1) ∧
      (contents (call.called pool)).Perm shards ∧
      pool.mem = (shards.map fun s => (g s.1 s.2).2).flatten ∧
      (cells = [] → call.called pool = [] ∧ exit = .returned []) := by
  have hpos : 0 < plan.resolve reported cells.length :=
    (resolve_bounds plan reported (Nat.le_trans hlen isizeMax_le) rfl).1
  refine ⟨⟨chunks_flatten hpos cells, fun s hs => (chunks_mem hpos hs).1⟩,
    partition_map_with_terminates (Nat.le_trans hlen isizeMax_le), fun exit pool hexit => ?_⟩
  obtain ⟨hmapped, -, hmem, hcut⟩ := partition_map_with_exits hlen hexit
  refine ⟨hmapped.returned hf, hmapped.called, ?_, ?_⟩
  · exact mem_of_shards hpos hmem (fun start l => (g start l).2) fun s hs => by
      rw [hcut s hs, hf s hs]
  · rintro rfl
    have hnil : ∀ c, chunks c ([] : List T) = [] := fun c => by simp [chunks, count]; omega
    have hcalled := hmapped.called
    rw [hnil] at hcalled
    refine ⟨List.map_eq_nil_iff.mp hcalled.eq_nil, ?_⟩
    rw [hmapped.returned hf, hnil]
    rfl

/-- Each shard gives the sum of its cells, and adds one to each of them. -/
def sum_and_bump (_start : Nat) (l : List Nat) : Nat × List Nat := (l.sum, l.map (· + 1))

theorem sum_and_bump_over_five_cells :
    (partition_map_with 5 (.chunk_size ⟨2, by decide⟩) none
      (shard_closure sum_and_bump : Nat → Nat → Task Nat Nat SlotCall Nat Nat)).Terminates
      (some ⟨0⟩) [none] [1, 2, 3, 4, 5] ∧
    ∀ exit pool, (partition_map_with 5 (.chunk_size ⟨2, by decide⟩) none
      (shard_closure sum_and_bump : Nat → Nat → Task Nat Nat SlotCall Nat Nat)).Exits
      (some ⟨0⟩) [none] [1, 2, 3, 4, 5] exit pool →
      exit = .returned [3, 7, 5] ∧ pool.mem = [2, 3, 4, 5, 6] := by
  obtain ⟨-, hends, hexits⟩ := partition_map_with_is_the_sequential_map [1, 2, 3, 4, 5] (by decide)
    (.chunk_size ⟨2, by decide⟩) none
    (shard_closure sum_and_bump : Nat → Nat → Task Nat Nat SlotCall Nat Nat) sum_and_bump
    (fun s _ => shard_closure_exec (by simp [sum_and_bump]) s.1 s.2) (some ⟨0⟩) [none]
  refine ⟨hends, fun exit pool hexit => ?_⟩
  obtain ⟨hret, -, hmem, -⟩ := hexits exit pool hexit
  exact ⟨hret, hmem⟩

/-! ## Panics -/

/-- Every index of a call of `drive` runs, once. The call returns when no task
panicked, and else re-raises the payload of a task that did: of the first to
take the panic mutex, or, without an executor, of the last index or the least.
Each shard of a region then holds what its own task wrote. -/
theorem drive_runs_every_task_once_and_re_raises_a_panic {μ κ α : Type} [Memory μ κ α] {n : Nat}
    (hn : 0 < n) (run : Nat → Task κ α SlotCall ρ π) (slot : Option Executor)
    (others : List SlotCall) (mem : μ) (cells : List T) (hlen : cells.length ≤ isizeMax)
    (plan : PartitionPlan) (reported : Option NonZeroUsize)
    (f : Nat → Nat → Task Nat T SlotCall ρ π) :
    Ends (Step n run False) (fun d => ∃ exit, d.exit = some exit)
      (Drive.init slot others mem) ∧
    (∀ d exit, Reaches (Step n run False) (Drive.init slot others mem) d → d.exit = some exit →
      (d.pool.calls.map (·.1)).Perm (List.range n) ∧
      (∀ i < n, ∃ o, d.pool.status i = .ended o) ∧
      ((∃ results, exit = .returned results) ↔
        ∀ i < n, ∀ q, d.pool.status i ≠ .ended (.error q)) ∧
      ((∀ results, exit ≠ .returned results) → ∃ payload, exit = .resumed payload ∧
        (∃ i < n, d.pool.status i = .ended (.error payload)) ∧
        (∀ st, d.path = .registered st →
          (∀ i, i ∈ st.lock_order ↔ i < n ∧ ∃ q, d.pool.status i = .ended (.error q)) ∧
          ∃ i, st.lock_order.head? = some i ∧ d.pool.status i = .ended (.error payload)) ∧
        ((∀ st, d.path ≠ .registered st) → Chosen n d.pool.status payload))) ∧
    ∀ exit pool, (partition_map_with cells.length plan reported f).Exits slot others cells exit
        pool → ∀ s ∈ chunks (plan.resolve reported cells.length) cells,
      (Span.mk s.1 s.2.length).cut pool.mem = ((f s.1 s.2.length).exec s.2).2 := by
  refine ⟨(drive_ends hn slot others mem).mono fun _ _ h => h.2, fun d exit hreach hx => ?_,
    fun exit pool hexit => (partition_map_with_exits hlen hexit).2.2.2⟩
  have hinv : Inv n False d := inv_of_reaches_init hn hreach
  have hall := hinv.all_ended (by simp) hx
  refine ⟨hinv.calls_perm hall, hall, ?_⟩
  rcases hinv.exit_cases (by simp) hx with ⟨results, rfl⟩ | ⟨payload, rfl⟩
  · exact ⟨⟨fun _ i hi q => (hinv.returned hx).no_panic hi q, fun _ => ⟨results, rfl⟩⟩,
      fun hne => absurd rfl (hne results)⟩
  · obtain ⟨-, i, hi, hs⟩ := hinv.resumed hx
    refine ⟨⟨by simp, fun hnone => absurd hs (hnone i hi payload)⟩,
      fun _ => ⟨payload, rfl, ⟨i, hi, hs⟩, fun st hp => ?_, fun hr => (hinv.leftWith hx hr).1⟩⟩
    obtain ⟨-, horder, hfirst, -⟩ := hinv.accounted hp (by simpa [Drive.exit, hp] using hx)
    refine ⟨fun j => ?_, hfirst⟩
    rw [horder, Option.isSome_iff_exists]
    simp only [payload_of_eq_some]

/-- Each one-cell shard writes a 9, and all but the first then panic. -/
def nine_then_panic (start _len : Nat) : Task Nat Nat SlotCall Nat Nat :=
  .store 0 9 (one_returns start)

/-- Without an executor, each cell holds what its own task wrote. On an executor where
task 2 is at the mutex before task 1, the payload of task 2 is raised again. -/
theorem nine_then_panic_over_three_cells :
    (Ends (Step 3 one_returns False) (fun d => ∃ exit, d.exit = some exit)
      (Drive.init none [some ⟨4⟩] [0] : Drive (List Nat) Nat Nat Nat Nat) ∧
    ∀ exit pool, (partition_map_with 3 (.parts ⟨3, by decide⟩) none nine_then_panic).Exits none
      [some ⟨4⟩] [1, 2, 3] exit pool →
      (Span.mk 0 1).cut pool.mem = [9] ∧ (Span.mk 2 1).cut pool.mem = [9]) ∧
    ∃ (d : Drive (List Nat) Nat Nat Nat Nat) (st : Registered Nat Nat) (payload : Nat),
      Reaches (Step 3 one_returns False) (Drive.init (some ⟨0⟩) [] [0]) d ∧
      d.path = .registered st ∧ d.exit = some (.resumed payload) ∧
      st.lock_order = [2, 1] ∧ d.pool.status 2 = .ended (.error payload) ∧
      (d.pool.calls.map (·.1)).Perm (List.range 3) := by
  constructor
  · obtain ⟨hends, -, hmem⟩ := drive_runs_every_task_once_and_re_raises_a_panic (n := 3)
      (by decide) one_returns none [some ⟨4⟩] [0] [1, 2, 3] (by decide) (.parts ⟨3, by decide⟩)
      none nine_then_panic
    refine ⟨hends, fun exit pool hexit => ⟨?_, ?_⟩⟩
    · exact hmem exit pool hexit (0, [1]) (by decide)
    · exact hmem exit pool hexit (2, [3]) (by decide)
  · let loaded : Drive (List Nat) Nat Nat Nat Nat :=
      ⟨some ⟨0⟩, [], .init [0], .registered (.init 3)⟩
    let kept : Registered Nat Nat := (Registered.init 3).keep 0 7
    let first : Registered Nat Nat := kept.report 2 2
    let last : Registered Nat Nat := first.report 1 1
    let ran0 := loaded.ran 0 (.ok 7) kept
    let ran2 := ran0.ran 2 (.error 2) first
    let ran1 := ran2.ran 1 (.error 1) last
    have hload : Step 3 one_returns False (Drive.init (some ⟨0⟩) [] [0]) loaded := .load rfl
    have h0 : Reaches (Step 3 one_returns False) loaded ran0 :=
      reaches_returned rfl rfl (by decide) rfl rfl rfl (by decide) rfl
    have h2 : Reaches (Step 3 one_returns False) ran0 ran2 :=
      reaches_panicked rfl rfl (by decide) rfl rfl rfl rfl
    have h1 : Reaches (Step 3 one_returns False) ran2 ran1 :=
      reaches_panicked rfl rfl (by decide) rfl rfl rfl rfl
    have hleave : Step 3 one_returns False ran1
        { ran1 with path := .registered (last.leave (last.after_execute 3)) } := by
      refine .execute_returns rfl rfl fun index hi => ?_
      match index, hi with
      | 0, _ => rfl
      | 1, _ => rfl
      | 2, _ => rfl
    have hrun := (Relation.ReflTransGen.single hload).trans (h0.trans (h2.trans h1)) |>.tail hleave
    obtain ⟨hcalls, -, -, hpanic⟩ := (drive_runs_every_task_once_and_re_raises_a_panic (n := 3)
      (by decide) one_returns (some ⟨0⟩) [] [0] [1, 2, 3] (by decide) (.parts ⟨3, by decide⟩) none
      nine_then_panic).2.1 _ (.resumed 2) hrun rfl
    obtain ⟨payload, hpayload, -, hlock, -⟩ := hpanic nofun
    obtain ⟨-, i, hhead, hstatus⟩ := hlock _ rfl
    cases hpayload
    cases hhead
    exact ⟨_, _, 2, hrun, rfl, rfl, rfl, hstatus, hcalls⟩

end region

end melinoe.sync
