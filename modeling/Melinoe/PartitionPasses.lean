-- Passes through the partitioned drivers of a vector and of a ring buffer. Their
-- shards are pieces of one pass over the values, whichever plan sized them.
import Melinoe.Passes
import Melinoe.DequePartition

open passes tasks tiles runs

namespace melinoe.collections

open driver_core region sync

variable {μ κ σ τ T M π : Type} [AddMonoid M]

/-! ## The closures of a pass -/

/-- A closure for `partition_map_mut_with`: on each shard it makes the pass that
`step` says, however it goes about it. -/
structure PassClosure (T M π : Type) [AddMonoid M] where
  step : ItemStep T M π
  task : Nat → Nat → Task Nat T SlotCall M π
  makes : ∀ start l, (task start l.length).exec l = pass step start l

/-- `for (offset, value) in shard.iter_mut().enumerate()`. -/
def PassClosure.loop (step : ItemStep T M π) : PassClosure T M π where
  step := step
  task start len := sweep step start len 0 0
  makes := exec_sweep step

/-- A closure for `partition_map_with`: it adds up the weights of its shard. -/
def weighing (weight : Nat → T → Except π M) (start : Nat) (shard : List T) :
    Task κ T SlotCall M π :=
  match (pass (weigh weight) start shard).1 with
  | .ok total => .ret total
  | .error payload => .panic payload

/-- A weighing closure touches no cell. -/
theorem weighing_relocate {addr : Nat → Option κ} (weight : Nat → T → Except π M) (start : Nat)
    (shard : List T) : (weighing weight start shard : Task Nat T SlotCall M π).relocate addr =
      weighing weight start shard := by
  unfold weighing
  split <;> rfl

theorem exec_weighing (weight : Nat → T → Except π M) (start : Nat) (l : List T) :
    (weighing weight start l : Task Nat T SlotCall M π).exec l = pass (weigh weight) start l := by
  unfold weighing
  split
  · rename_i total h
    exact Prod.ext h.symm (pass_weigh weight start l).symm
  · rename_i payload h
    exact Prod.ext h.symm (pass_weigh weight start l).symm

/-! ## The calls of a pass -/

/-- The exit of a call, from what its tasks gave. -/
def exit_of : Except π (List M) → Exit M π
  | .ok results => .returned results
  | .error payload => .resumed payload

/-- The call ends under every schedule, and then its shards are pieces of the
pass over the values. -/
def MakesPass [Memory μ κ T] (values : μ → List T) (mem : μ) (step : ItemStep T M π)
    (call : Call σ κ T M π) : Prop :=
  ∀ slot others, call.Terminates slot others mem ∧
    ∀ exit pool, call.Exits slot others mem exit pool →
      ∃ spans out, exit = exit_of out ∧ Pieces step spans (values mem) (values pool.mem) out

/-- The storage of a collection: the values in it, in order, and the calls that
hand it out in shards, with `None` for a plan whose shards no allocation holds the
descriptors of. Each storage comes with the proof that its calls make passes, for as
many values as an allocation holds, and that for some plan there is a call. -/
structure Storage (μ κ σ τ T M π : Type) [Memory μ κ T] [AddMonoid M] where
  values : μ → List T
  partition_map_mut_with : μ → PartitionPlan → Option NonZeroUsize →
    (Nat → Nat → Task Nat T SlotCall M π) → Option (Call σ κ T M π)
  partition_map_with : μ → PartitionPlan → Option NonZeroUsize →
    (Nat → List T → Task κ T SlotCall M π) → Option (Call τ κ T M π)
  stores : ∀ l, ∃ mem, values mem = l
  writes : ∀ mem plan reported (closure : PassClosure T M π) call,
    (values mem).length ≤ isizeMax →
    partition_map_mut_with mem plan reported closure.task = some call →
      MakesPass values mem closure.step call
  writes_some : ∀ mem (closure : PassClosure T M π), (values mem).length ≤ isizeMax →
    ∃ plan reported call, partition_map_mut_with mem plan reported closure.task = some call
  reads : ∀ mem plan reported weight call, (values mem).length ≤ isizeMax →
    partition_map_with mem plan reported (weighing weight) = some call →
      MakesPass values mem (weigh weight) call
  reads_some : ∀ mem weight, (values mem).length ≤ isizeMax →
    ∃ plan reported call, partition_map_with mem plan reported (weighing weight) = some call

omit [AddMonoid M] in
/-- A mapped exit, as what its tasks gave. -/
theorem Mapped.out {shards called : List (Nat × List T)} {exit : Exit M π}
    {f : Nat → Nat → Task Nat T SlotCall M π} (h : Mapped shards f called exit) :
    ∃ out, exit = exit_of out ∧ match out with
      | .ok results => shards.map (fun s => ((f s.1 s.2.length).exec s.2).1) = results.map .ok
      | .error payload => ∃ s ∈ shards, ((f s.1 s.2.length).exec s.2).1 = .error payload := by
  rcases h.exit with ⟨results, rfl, hres⟩ | ⟨payload, rfl, hp⟩
  · exact ⟨.ok results, rfl, hres⟩
  · exact ⟨.error payload, rfl, hp⟩

/-- Shards whose tasks make the pass on them are pieces of the pass. -/
theorem pieces_of_mapped {step : ItemStep T M π} {spans : List Span} {l l' : List T}
    {called : List (Nat × List T)} {f : Nat → Nat → Task Nat T SlotCall M π} {exit : Exit M π}
    (hchain : Chain 0 spans l.length) (hlen : l'.length = l.length)
    (h : Mapped (spans.map fun s => (s.start, s.cut l)) f called exit)
    (hcut : ∀ s ∈ spans, s.cut l' = ((f s.start s.len).exec (s.cut l)).2)
    (hf : ∀ s ∈ spans, (f s.start s.len).exec (s.cut l) = pass step s.start (s.cut l)) :
    ∃ out, exit = exit_of out ∧ Pieces step spans l l' out := by
  obtain ⟨out, rfl, hout⟩ := Mapped.out h
  have hview : ∀ s ∈ spans, (s.cut l).length = s.len := fun s hs =>
    s.cut_length l (chain_mem hchain hs).2.2
  refine ⟨out, rfl, hchain, hlen, fun s hs => by rw [hcut s hs, hf s hs], ?_⟩
  cases out with
  | ok results =>
    simp only [List.map_map] at hout ⊢
    rw [← hout]
    apply List.map_congr_left
    intro s hs
    simp only [Function.comp, hview s hs, hf s hs]
  | error payload =>
    obtain ⟨p, hp, herror⟩ := hout
    obtain ⟨s, hs, rfl⟩ := List.mem_map.mp hp
    simp only [hview s hs, hf s hs] at herror
    exact ⟨s, hs, herror⟩

/-! ## A vector -/

section vec

variable {cells : List T} {plan : PartitionPlan} {reported : Option NonZeroUsize}
  {slot : Option Executor} {others : List SlotCall}

/-- `BrandedVec::partition_map_mut_with`: the closure gets the shard as a slice. -/
def BrandedVec.partition_map_mut_with (cells_len : Nat) (plan : PartitionPlan)
    (reported : Option NonZeroUsize) (f : Nat → Nat → Task Nat T SlotCall M π) :
    Call (Nat × WriterShard) Nat T M π :=
  sync.partition_map_with cells_len plan reported f

theorem vec_writes (cells : List T) (plan : PartitionPlan) (reported : Option NonZeroUsize)
    (closure : PassClosure T M π) (hlen : cells.length ≤ isizeMax) :
    MakesPass id cells closure.step
      (BrandedVec.partition_map_mut_with cells.length plan reported closure.task) := by
  have hmax : cells.length ≤ usizeMax := Nat.le_trans hlen isizeMax_le
  have hchain := chain_spansOf cells.length (resolve_bounds plan reported hmax rfl).1
  refine fun slot others => ⟨partition_map_with_terminates hmax, fun exit pool hexit => ?_⟩
  obtain ⟨hmapped, -, hmem, hcut⟩ := partition_map_with_exits hlen hexit
  rw [chunks_eq] at hmapped hcut
  have hview : ∀ s ∈ spansOf cells.length (plan.resolve reported cells.length),
      (s.cut cells).length = s.len := fun s hs =>
    s.cut_length cells (chain_mem hchain hs).2.2
  refine ⟨_, pieces_of_mapped hchain hmem hmapped (fun s hs => ?_) fun s hs => ?_⟩
  · have hone := hcut (s.start, s.cut cells) (List.mem_map_of_mem hs)
    simp only [hview s hs] at hone
    exact hone
  · have hmakes := closure.makes s.start (s.cut cells)
    rw [hview s hs] at hmakes
    exact hmakes

/-- The shards that the read driver hands out, in the memory of the values. -/
theorem vec_reads_exits (weight : Nat → T → Except π M) (slice_fail : π)
    (hlen : cells.length ≤ isizeMax) {exit : Exit M π} {pool : Pool (List T) Nat T SlotCall M π}
    (h : (BrandedVec.partition_map_with cells plan reported slice_fail (weighing weight)).Exits
      slot others cells exit pool) :
    ∃ spans out, exit = exit_of out ∧ Pieces (weigh weight) spans cells pool.mem out := by
  obtain ⟨hpos, hle⟩ := resolve_bounds plan reported (Nat.le_trans hlen isizeMax_le) rfl
  unfold BrandedVec.partition_map_with at h
  rw [partition_read_map_with_eq rfl hpos] at h
  generalize plan.resolve reported cells.length = c at *
  have hchain := chain_spansOf cells.length hpos
  let f : Nat → Nat → Task Nat T SlotCall M π := fun start len =>
    weighing weight start ((Span.mk start len).cut cells)
  have hview : ∀ i < count cells.length c, (Span.mk (i * c)
      ((cells.drop (i * c)).take c).length).cut cells = (cells.drop (i * c)).take c := by
    intro i _
    simp [Span.cut]
  have hargs : ∀ i < count cells.length c, read_arg cells slice_fail c i =
      .ok (i * c, (cells.drop (i * c)).take c) := fun i hi =>
    read_arg_eq hpos (chunk_end_fits ((lt_count hpos).mp hi) hlen hle) hi
  have hrun : ∀ i < count cells.length c,
      (weighing weight (i * c) ((cells.drop (i * c)).take c) : Task Nat T SlotCall M π) =
      (f (i * c) ((cells.drop (i * c)).take c).length).relocate
        (spanAt cells.length c i).addr := by
    intro i hi
    simp only [f, hview i hi, weighing_relocate]
  obtain ⟨hdriven, -⟩ := driven_of_exits (region_windows hpos cells) hargs hrun h
  have hmapped := hdriven.mapped (fun i m => (spanAt cells.length c i).cut m) rfl
    fun i _ m l => shows_addr.mp
  change Mapped (chunks c cells) f _ exit at hmapped
  rw [chunks_eq] at hmapped
  refine ⟨_, pieces_of_mapped hchain (length_of_cells hdriven.cells) hmapped ?_ fun s _ => ?_⟩
  · intro s hs
    obtain ⟨i, hi, rfl⟩ := List.mem_map.mp hs
    have hi := List.mem_range.mp hi
    have hshows := shows_addr.mp (hdriven.memory i hi)
    rw [hshows, ← spanAt_cut, (spanAt cells.length c i).cut_length cells
      (chain_mem hchain hs).2.2]
    rfl
  · exact exec_weighing weight s.start (s.cut cells)

/-- A branded vector: its cells are its values. `slice_fail` is the payload of
the panics of slicing. -/
def BrandedVec.storage (slice_fail : π) :
    Storage (List T) Nat (Nat × WriterShard) (Nat × List T) T M π where
  values := id
  partition_map_mut_with cells plan reported f :=
    some (BrandedVec.partition_map_mut_with cells.length plan reported f)
  partition_map_with cells plan reported f :=
    some (BrandedVec.partition_map_with cells plan reported slice_fail f)
  stores l := ⟨l, rfl⟩
  writes cells plan reported closure call hlen hcall := by
    cases hcall
    exact vec_writes cells plan reported closure hlen
  writes_some _ _ _ := ⟨.AvailableParallelism, none, _, rfl⟩
  reads _ _ _ weight call hlen hcall := by
    cases hcall
    exact fun _ _ => ⟨partition_read_map_with_terminates (Nat.le_trans hlen isizeMax_le),
      fun _ _ hexit => vec_reads_exits weight slice_fail hlen hexit⟩
  reads_some _ _ _ := ⟨.AvailableParallelism, none, _, rfl⟩

end vec

/-! ## A ring buffer -/

theorem map_ok_iff {ε β γ : Type} {f : β → γ} {e : Except ε β} {y : γ} :
    e.map f = .ok y ↔ ∃ x, e = .ok x ∧ f x = y := by
  cases e with
  | ok x => simp [Except.map]
  | error failure => simp [Except.map]

theorem ok_of_toOption {ε β : Type} {e : Except ε β} {y : β} (h : e.toOption = some y) :
    e = .ok y := by
  cases e with
  | ok x => exact congrArg Except.ok (Option.some.inj h)
  | error failure => cases h

section queue

variable {cells : DequeCells T} {plan : PartitionPlan} {reported : Option NonZeroUsize}
  {slice_fail : π} {slot : Option Executor} {others : List SlotCall}

/-- The plan for a queue: its spans tile the values, and none crosses the wrap. -/
theorem queue_plan (cells : DequeCells T) (hlen : (cells.front ++ cells.back).length ≤ isizeMax)
    {p : DequeShardPlan} (hp : DequeShardPlan.from_lengths cells.front.length cells.back.length plan
      reported = .ok p) :
    ∃ spans, Chain 0 spans (cells.front ++ cells.back).length ∧
      (∀ s ∈ spans, s.stop ≤ cells.front.length ∨ cells.front.length ≤ s.start) ∧
      p = ⟨spans.map (descr cells.front.length)⟩ := by
  rw [List.length_append] at hlen ⊢
  obtain ⟨hpos, -⟩ := resolve_bounds plan reported (Nat.le_trans hlen isizeMax_le) rfl
  have hcount : count (cells.front.length + cells.back.length)
      (plan.resolve reported (cells.front.length + cells.back.length)) ≤
      DequeShardPlan.max_chunks := by
    by_contra hmany
    rw [from_lengths_overflows hlen rfl (Nat.lt_of_not_le hmany)] at hp
    cases hp
  rw [from_lengths_eq hlen rfl hcount] at hp
  cases hp
  exact ⟨_, shardSpans_chain cells.front.length _ hpos, fun s hs => cutSpans_mem hs, rfl⟩

/-- A plan of one part always has room for its descriptors. -/
theorem queue_plan_some (cells : DequeCells T)
    (hlen : (cells.front ++ cells.back).length ≤ isizeMax) :
    ∃ p, DequeShardPlan.from_lengths cells.front.length cells.back.length .AvailableParallelism
      none = .ok p := by
  rw [List.length_append] at hlen
  refine ⟨_, from_lengths_eq hlen rfl ?_⟩
  obtain ⟨hpos, -⟩ := resolve_bounds .AvailableParallelism none (Nat.le_trans hlen isizeMax_le)
    (rfl : PartitionPlan.AvailableParallelism.resolve none _ = _)
  have hone : count (cells.front.length + cells.back.length)
      (PartitionPlan.AvailableParallelism.resolve none
        (cells.front.length + cells.back.length)) ≤ 1 := by
    rw [count_le_iff hpos, Nat.one_mul]
    have hcount : partition_count (cells.front.length + cells.back.length) 1 =
        cells.front.length + cells.back.length := by
      rw [partition_count_eq Nat.one_pos, count_one]
    exact hcount.symm.le.trans (Nat.le_max_left _ _)
  exact Nat.le_trans hone (by decide)

theorem queue_writes (cells : DequeCells T) (plan : PartitionPlan)
    (reported : Option NonZeroUsize) (slice_fail : π) (closure : PassClosure T M π)
    (hlen : (cells.front ++ cells.back).length ≤ isizeMax)
    {call : Call (Nat × List DequeShard) (DequeSegment × Nat) T M π}
    (hcall : BrandedVecDeque.partition_map_mut_with cells.front.length cells.back.length plan
      reported slice_fail closure.task = .ok call) :
    MakesPass (fun m => m.front ++ m.back) cells closure.step call := by
  unfold BrandedVecDeque.partition_map_mut_with at hcall
  obtain ⟨p, hp, rfl⟩ := map_ok_iff.mp hcall
  obtain ⟨spans, hchain, hside, rfl⟩ := queue_plan cells hlen hp
  refine fun slot others => ⟨?_, fun exit pool hexit => ?_⟩
  · rw [map_mut_eq]
    exact terminates_drive ..
  · obtain ⟨hmapped, hfront, hback, hcut⟩ :=
      map_mut_exits cells hchain List.length_append.symm hlen hside hexit
    refine ⟨spans, pieces_of_mapped hchain ?_ hmapped hcut fun s hs => ?_⟩
    · rw [List.length_append, List.length_append, hfront, hback]
    · have hmakes := closure.makes s.start (s.cut (cells.front ++ cells.back))
      rw [s.cut_length _ (chain_mem hchain hs).2.2] at hmakes
      exact hmakes

omit [AddMonoid M] in
theorem map_read_eq (cells : DequeCells T) (reported : Option NonZeroUsize) (slice_fail : π)
    (shards : List DequeShard) (f : Nat → List T → Task κ T SlotCall M π) :
    (DequeShardPlan.mk shards).map_read cells reported slice_fail f =
      if shards.length = 0 then .done []
      else .drive shards.length (read_arg shards slice_fail 1)
        fun (start, shard) => DequeShardPlan.read_shard cells slice_fail f start shard := by
  have hcount : count shards.length 1 = shards.length := by simp [count]
  unfold DequeShardPlan.map_read DequeShardPlan.is_empty
  rw [partition_read_map_with_eq (c := 1) rfl Nat.one_pos, hcount]
  cases shards with
  | nil => rfl
  | cons shard rest => rfl

/-- The shards that `map_read` hands out, in the memory of the values. -/
theorem queue_reads_exits {spans : List Span} (weight : Nat → T → Except π M)
    (hchain : Chain 0 spans (cells.front ++ cells.back).length)
    (hside : ∀ s ∈ spans, s.stop ≤ cells.front.length ∨ cells.front.length ≤ s.start)
    (hlen : (cells.front ++ cells.back).length ≤ isizeMax) {exit : Exit M π}
    {pool : Pool (DequeCells T) (DequeSegment × Nat) T SlotCall M π}
    (h : ((DequeShardPlan.mk (spans.map (descr cells.front.length))).map_read cells reported
      slice_fail (weighing weight)).Exits slot others cells exit pool) :
    ∃ out, exit = exit_of out ∧ Pieces (weigh weight) spans (cells.front ++ cells.back)
      (pool.mem.front ++ pool.mem.back) out := by
  have hmax : (cells.front ++ cells.back).length ≤ usizeMax := Nat.le_trans hlen isizeMax_le
  have hcount := chain_length_le hchain
  rw [map_read_eq, List.length_map] at h
  let f : Nat → Nat → Task Nat T SlotCall M π := fun start len =>
    weighing weight start ((Span.mk start len).cut (cells.front ++ cells.back))
  have hmem : ∀ i < spans.length, spans.getD i ⟨0, 0⟩ ∈ spans := fun i hi =>
    List.mem_of_getElem? (getD_getElem? hi ⟨0, 0⟩)
  have hview : ∀ s ∈ spans, (s.cut (cells.front ++ cells.back)).length = s.len := fun s hs =>
    s.cut_length _ (chain_mem hchain hs).2.2
  have hargs : ∀ i < spans.length,
      read_arg (spans.map (descr cells.front.length)) slice_fail 1 i =
      .ok (i, [descr cells.front.length (spans.getD i ⟨0, 0⟩)]) :=
    fun i hi => shard_arg cells.front.length (by omega) hi
  have hrun : ∀ i < spans.length, DequeShardPlan.read_shard cells slice_fail
      (weighing weight : _ → _ → Task (DequeSegment × Nat) T SlotCall M π) i
      [descr cells.front.length (spans.getD i ⟨0, 0⟩)] =
      (f (spans.getD i ⟨0, 0⟩).start ((spans.getD i ⟨0, 0⟩).cut (cells.front ++ cells.back)).length
        ).relocate (descr cells.front.length (spans.getD i ⟨0, 0⟩)).addr := by
    intro i hi
    have hs := hmem i hi
    have hstop := (chain_mem hchain hs).2.2
    rw [List.length_append] at hstop hmax
    simp only [DequeShardPlan.read_shard, read_slice_descr (hside _ hs) hstop hmax, descr_start,
      hview _ hs, f, weighing_relocate]
  obtain ⟨hdriven, -⟩ := driven_of_exits (deque_windows hchain hside) hargs hrun h
  have hfront : pool.mem.front.length = cells.front.length :=
    length_of_cells fun i => hdriven.cells (.Front, i)
  have hback : pool.mem.back.length = cells.back.length :=
    length_of_cells fun i => hdriven.cells (.Back, i)
  have hmapped := hdriven.mapped
    (fun i m => (descr cells.front.length (spans.getD i ⟨0, 0⟩)).slice m) rfl
    fun i _ m l => shows_slice.mp
  rw [range_getD ⟨0, 0⟩ fun s => (s.start, s.cut (cells.front ++ cells.back))] at hmapped
  refine pieces_of_mapped hchain ?_ hmapped (fun s hs => ?_) fun s _ => ?_
  · rw [List.length_append, List.length_append, hfront, hback]
  · obtain ⟨i, hi, rfl⟩ := List.getElem_of_mem hs
    have hshows := hdriven.memory i hi
    have hget : spans.getD i ⟨0, 0⟩ = spans[i] := by simp [List.getD_eq_getElem?_getD, hi]
    simp only [hget, hview _ hs] at hshows
    have hsides := hside _ hs
    rw [← hfront] at hshows hsides
    exact (descr_slice pool.mem hsides).symm.trans (shows_slice.mp hshows)
  · exact exec_weighing weight s.start (s.cut (cells.front ++ cells.back))

theorem queue_reads (cells : DequeCells T) (plan : PartitionPlan)
    (reported : Option NonZeroUsize) (slice_fail : π) (weight : Nat → T → Except π M)
    (hlen : (cells.front ++ cells.back).length ≤ isizeMax)
    {call : Call (Nat × List DequeShard) (DequeSegment × Nat) T M π}
    (hcall : BrandedVecDeque.partition_map_with cells plan reported slice_fail (weighing weight) =
      .ok call) : MakesPass (fun m => m.front ++ m.back) cells (weigh weight) call := by
  unfold BrandedVecDeque.partition_map_with at hcall
  obtain ⟨p, hp, rfl⟩ := map_ok_iff.mp hcall
  obtain ⟨spans, hchain, hside, rfl⟩ := queue_plan cells hlen hp
  refine fun slot others => ⟨?_, fun exit pool hexit => ?_⟩
  · rw [map_read_eq]
    exact terminates_drive ..
  · exact ⟨spans, queue_reads_exits weight hchain hside hlen hexit⟩

/-- A branded queue: its values are those of the two segments, in order. -/
def BrandedVecDeque.storage (slice_fail : π) :
    Storage (DequeCells T) (DequeSegment × Nat) (Nat × List DequeShard) (Nat × List DequeShard)
      T M π where
  values cells := cells.front ++ cells.back
  partition_map_mut_with cells plan reported f :=
    (BrandedVecDeque.partition_map_mut_with cells.front.length cells.back.length plan reported
      slice_fail f).toOption
  partition_map_with cells plan reported f :=
    (BrandedVecDeque.partition_map_with cells plan reported slice_fail f).toOption
  stores l := ⟨⟨l, []⟩, List.append_nil l⟩
  writes cells plan reported closure _ hlen hcall :=
    queue_writes cells plan reported slice_fail closure hlen (ok_of_toOption hcall)
  writes_some cells closure hlen := by
    obtain ⟨p, hp⟩ := queue_plan_some cells hlen
    refine ⟨.AvailableParallelism, none, p.map_mut none slice_fail closure.task, ?_⟩
    unfold BrandedVecDeque.partition_map_mut_with
    rw [hp]
    rfl
  reads cells plan reported weight _ hlen hcall :=
    queue_reads cells plan reported slice_fail weight hlen (ok_of_toOption hcall)
  reads_some cells weight hlen := by
    obtain ⟨p, hp⟩ := queue_plan_some cells hlen
    refine ⟨.AvailableParallelism, none, p.map_read cells none slice_fail (weighing weight), ?_⟩
    unfold BrandedVecDeque.partition_map_with
    rw [hp]
    rfl

end queue

end melinoe.collections
