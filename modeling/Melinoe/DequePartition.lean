-- The laws of the partitioned drivers of a ring buffer: where its storage wraps
-- changes neither what a closure reads nor what its writes leave. A plan of 2 ^ 57
-- chunks or more does not come to a call: its descriptors fit no allocation.
import Melinoe.Deque

open tasks tiles runs

namespace melinoe.collections

open driver_core region sync

variable {T μ κ α ρ π : Type} {front back : List T} {c : Nat}

/-! ## A shard's slice -/

theorem descr_start (front_len : Nat) (s : Span) : (descr front_len s).start = s.start := by
  unfold descr
  split <;> rfl

theorem descr_len (front_len : Nat) (s : Span) : (descr front_len s).len = s.len := by
  unfold descr
  split <;> rfl

/-- What the slice of a shard holds. -/
def DequeShard.slice (self : DequeShard) (cells : DequeCells T) : List T :=
  (Span.mk self.offset self.len).cut (cells.segment self.segment)

/-- The arguments of a closure's calls, from the one-shard slices of the plan. -/
def handed (called : List ((Nat × List DequeShard) × DequeCells T)) : List (Nat × List T) :=
  called.flatMap fun ((_, shards), cells) =>
    shards.map fun shard => (shard.start, shard.slice cells)

theorem shardSpans_chain (front_len total : Nat) (hc : 0 < c) :
    Chain 0 (shardSpans front_len total c) total :=
  chain_cutSpans (chain_spansOf total hc) front_len

theorem DequeShard.slice_get (self : DequeShard) (cells : DequeCells T) (i : Nat) :
    (self.slice cells)[i]? = (self.addr i).bind (Memory.get cells) := by
  rw [slice, Span.cut_getElem?]
  unfold addr
  simp only
  split <;> rfl

theorem shows_slice {shard : DequeShard} {cells : DequeCells T} {l : List T} :
    Shows shard.addr cells l ↔ shard.slice cells = l := by
  rw [shows_iff]
  constructor
  · exact fun h => List.ext_getElem? fun i => by rw [h i, shard.slice_get]
  · rintro rfl i
    exact shard.slice_get cells i

/-- On one side of the wrap a shard's slice is the queue at its logical indices. -/
theorem descr_slice (cells : DequeCells T) {s : Span}
    (hs : s.stop ≤ cells.front.length ∨ cells.front.length ≤ s.start) :
    (descr cells.front.length s).slice cells = s.cut (cells.front ++ cells.back) := by
  unfold Span.stop at hs
  apply List.ext_getElem?
  intro i
  unfold DequeShard.slice descr
  by_cases hi : i < s.len
  · by_cases hfront : s.start < cells.front.length
    · simp only [if_pos hfront, Span.cut_getElem?, if_pos hi]
      show cells.front[s.start + i]? = _
      rw [List.getElem?_append_left (by omega)]
    · simp only [if_neg hfront, Span.cut_getElem?, if_pos hi]
      show cells.back[s.start - cells.front.length + i]? = _
      rw [List.getElem?_append_right (by omega)]
      congr 1
      omega
  · split <;> simp only [Span.cut_getElem?, if_neg hi]

theorem read_slice_descr {s : Span} {cells : DequeCells T} {slice_fail : π}
    (hs : s.stop ≤ cells.front.length ∨ cells.front.length ≤ s.start)
    (hstop : s.stop ≤ cells.front.length + cells.back.length)
    (hmax : cells.front.length + cells.back.length ≤ usizeMax) :
    (descr cells.front.length s).read_slice cells slice_fail =
      .ok (s.cut (cells.front ++ cells.back)) := by
  rw [← descr_slice cells hs]
  have hfits : (descr cells.front.length s).offset + (descr cells.front.length s).len ≤
      (cells.segment (descr cells.front.length s).segment).length := by
    unfold Span.stop at *
    unfold descr
    split
    · show s.start + s.len ≤ cells.front.length
      omega
    · show s.start - cells.front.length + s.len ≤ cells.back.length
      omega
  have hsegment : (cells.segment (descr cells.front.length s).segment).length ≤ usizeMax := by
    cases (descr cells.front.length s).segment
    · show cells.front.length ≤ usizeMax
      omega
    · show cells.back.length ≤ usizeMax
      omega
  unfold DequeShard.read_slice
  simp only
  rw [wadd_eq (by omega), if_pos ⟨by omega, hfits⟩, Nat.add_sub_cancel_left]
  rfl

/-! ## Reads -/

section reads

variable [Memory μ κ α] {plan : PartitionPlan} {reported : Option NonZeroUsize} {slice_fail : π}
  {slot : Option Executor} {others : List SlotCall} {mem : μ}

/-- The arguments of the reading closure's calls: the queue does not change. -/
def read_handed (cells : DequeCells T) (called : List ((Nat × List DequeShard) × μ)) :
    List (Nat × List T) :=
  handed (called.map fun call => (call.1, cells))

omit [Memory μ κ α] in
theorem read_handed_perm {cells : DequeCells T} {called : List ((Nat × List DequeShard) × μ)}
    {spans : List Span} (hs : ∀ s ∈ spans, s.stop ≤ cells.front.length ∨
      cells.front.length ≤ s.start)
    (h : (called.map (·.1)).Perm (chunks 1 (spans.map (descr cells.front.length)))) :
    (read_handed cells called).Perm
      (spans.map fun s => (s.start, s.cut (cells.front ++ cells.back))) := by
  have hflat : read_handed cells called = (called.map (·.1)).flatMap fun p =>
      p.2.map fun shard => (shard.start, shard.slice cells) := by
    rw [read_handed, handed, List.flatMap_map, List.flatMap_map]
  have hslices : (spans.map (descr cells.front.length)).map
      (fun shard => (shard.start, shard.slice cells)) =
      spans.map fun s => (s.start, s.cut (cells.front ++ cells.back)) := by
    rw [List.map_map]
    apply List.map_congr_left
    intro s hmem
    simp only [Function.comp, descr_slice cells (hs s hmem), descr_start]
  rw [hflat, ← hslices,
    ← chunks_flatMap Nat.one_pos _ (spans.map (descr cells.front.length))]
  exact h.flatMap_right _

/-- Every exit of `map_read` on the plan's own spans, for a pure `g`. -/
theorem map_read_exits (cells : DequeCells T) {spans : List Span} {total : Nat}
    (hchain : Chain 0 spans total) (htotal : cells.front.length + cells.back.length = total)
    (hmax : total ≤ isizeMax)
    (hs : ∀ s ∈ spans, s.stop ≤ cells.front.length ∨ cells.front.length ≤ s.start)
    {g : Nat → List T → ρ} {exit : Exit ρ π} {pool : Pool μ κ α SlotCall ρ π}
    (h : ((DequeShardPlan.mk (spans.map (descr cells.front.length))).map_read cells reported
      slice_fail (pure_closure g)).Exits slot others mem exit pool) :
    exit = .returned (spans.map fun s => g s.start (s.cut (cells.front ++ cells.back))) ∧
    (read_handed cells (((DequeShardPlan.mk (spans.map (descr cells.front.length))).map_read cells
      reported slice_fail (pure_closure g)).called pool)).Perm
      (spans.map fun s => (s.start, s.cut (cells.front ++ cells.back))) := by
  have humax : total ≤ usizeMax := Nat.le_trans hmax isizeMax_le
  unfold DequeShardPlan.map_read DequeShardPlan.is_empty at h ⊢
  cases spans with
  | nil =>
    simp only [List.map_nil, List.isEmpty_nil, if_true] at h ⊢
    cases h with
    | done => exact ⟨rfl, .refl _⟩
  | cons s₀ rest =>
    rw [if_neg (by simp)] at h ⊢
    -- the plan is not empty, so `g` has a value for the slices that are never handed out
    generalize hr : g s₀.start (s₀.cut (cells.front ++ cells.back)) = r
    generalize s₀ :: rest = spans at *
    let g' : Nat → List DequeShard → ρ := fun _ shards =>
      shards.head?.elim r fun shard => g shard.start (shard.slice cells)
    have hf : ∀ p ∈ chunks 1 (spans.map (descr cells.front.length)),
        DequeShardPlan.read_shard cells slice_fail (pure_closure g : _ → _ → Task κ α SlotCall ρ π)
          p.1 p.2 = pure_closure g' p.1 p.2 := by
      intro p hp
      obtain ⟨shard, hshard, hx⟩ := chunks_one_mem hp
      obtain ⟨s, hmem, rfl⟩ := List.mem_map.mp hshard
      have hstop := (chain_mem hchain hmem).2.2
      simp only [DequeShardPlan.read_shard, hx,
        read_slice_descr (hs s hmem) (by omega) (by omega), pure_closure, g',
        List.head?_cons, Option.elim_some, descr_slice cells (hs s hmem)]
    have hfits : ∀ i < count (spans.map (descr cells.front.length)).length 1,
        i * 1 + 1 ≤ usizeMax := by
      intro i hi
      have hlen := chain_length_le hchain
      have := (lt_count Nat.one_pos).mp hi
      rw [List.length_map] at this
      unfold isizeMax at hmax
      unfold usizeMax
      omega
    obtain ⟨hret, hperm⟩ := partition_read_map_with_exits (c := 1) rfl Nat.one_pos hfits hf h
    refine ⟨?_, read_handed_perm hs hperm⟩
    rw [hret]
    refine congrArg Exit.returned ((chunks_one (g' 0) _).trans ?_)
    rw [List.map_map]
    apply List.map_congr_left
    intro s hmem
    simp only [Function.comp, g', List.head?_cons, Option.elim_some, descr_slice cells (hs s hmem),
      descr_start]

/-- Cutting a list in two keeps the total of an additive function. -/
theorem cutAt_sum {M : Type} [AddMonoid M] (k : Nat) (ps : List (Nat × List T))
    {h : Nat → List T → M} (hadd : ∀ start l l', h start (l ++ l') = h start l +
      h (start + l.length) l') :
    ((cutAt k ps).map fun p => h p.1 p.2).sum = (ps.map fun p => h p.1 p.2).sum := by
  induction ps with
  | nil => rfl
  | cons p ps ih =>
    unfold cutAt at *
    rw [List.flatMap_cons, List.map_append, List.sum_append, ih, List.map_cons, List.sum_cons]
    congr 1
    split
    · rename_i hk
      simp only [straddles, decide_eq_true_eq] at hk
      have hlen : (p.2.take (k - p.1)).length = k - p.1 := by
        rw [List.length_take]
        omega
      have hsplit := hadd p.1 (p.2.take (k - p.1)) (p.2.drop (k - p.1))
      rw [List.take_append_drop, hlen, Nat.add_sub_cancel' (by omega)] at hsplit
      simp [hsplit]
    · simp

/-- A call is made, where the chunks are not too many, or none is. -/
theorem queue_map_with_eq (front back : List T) (hlen : (front ++ back).length ≤ isizeMax)
    (plan : PartitionPlan) (reported : Option NonZeroUsize) (slice_fail : π)
    (f : Nat → List T → Task κ α SlotCall ρ π) :
    (count (front ++ back).length (plan.resolve reported (front ++ back).length) ≤
        DequeShardPlan.max_chunks →
      BrandedVecDeque.partition_map_with ⟨front, back⟩ plan reported slice_fail f =
        .ok ((DequeShardPlan.mk ((shardSpans front.length (front ++ back).length
          (plan.resolve reported (front ++ back).length)).map (descr front.length))).map_read
            ⟨front, back⟩ reported slice_fail f)) ∧
    (DequeShardPlan.max_chunks <
        count (front ++ back).length (plan.resolve reported (front ++ back).length) →
      BrandedVecDeque.partition_map_with ⟨front, back⟩ plan reported slice_fail f =
        .error .capacity_overflow) := by
  rw [List.length_append] at hlen ⊢
  unfold BrandedVecDeque.partition_map_with
  constructor
  · intro hcount
    rw [from_lengths_eq hlen rfl hcount]
    rfl
  · intro hcount
    rw [from_lengths_overflows hlen rfl hcount]
    rfl

/-- A queue hands a pure `g` the shards that a vector of the same values does,
with the one that its wrap falls into in two, so it returns the same list where
there is none, and the same total for every additive `g`. A plan of more chunks
than there is room for descriptors of panics before `g` is called. -/
theorem deque_reads_refine_vec_reads (front back : List T)
    (hlen : (front ++ back).length ≤ isizeMax) (plan : PartitionPlan)
    (reported : Option NonZeroUsize) (slice_fail : π) (g : Nat → List T → ρ)
    (slot slot' : Option Executor) (others others' : List SlotCall) (mem mem' : μ) :
    let chunk := plan.resolve reported (front ++ back).length
    let L := chunks chunk (front ++ back)
    let vec : Call (Nat × List T) κ α ρ π :=
      BrandedVec.partition_map_with (front ++ back) plan reported slice_fail (pure_closure g)
    let queue : Except PlanFail (Call (Nat × List DequeShard) κ α ρ π) :=
      BrandedVecDeque.partition_map_with ⟨front, back⟩ plan reported slice_fail (pure_closure g)
    (vec.Terminates slot others mem ∧ ∀ exit pool, vec.Exits slot others mem exit pool →
      exit = .returned (L.map fun s => g s.1 s.2) ∧ ((vec.called pool).map (·.1)).Perm L) ∧
    L.countP (straddles front.length) ≤ 1 ∧
    (count (front ++ back).length chunk ≤ DequeShardPlan.max_chunks →
      ∃ deque, queue = .ok deque ∧ deque.Terminates slot' others' mem' ∧
        ∀ exit pool, deque.Exits slot' others' mem' exit pool →
          exit = .returned ((cutAt front.length L).map fun s => g s.1 s.2) ∧
          (read_handed ⟨front, back⟩ (deque.called pool)).Perm (cutAt front.length L)) ∧
    (DequeShardPlan.max_chunks < count (front ++ back).length chunk →
      queue = .error .capacity_overflow) ∧
    (back = [] ∨ chunk ∣ front.length → cutAt front.length L = L) ∧
    ∀ {M : Type} [AddMonoid M] (h : Nat → List T → M),
      (∀ start l l', h start (l ++ l') = h start l + h (start + l.length) l') →
      ((cutAt front.length L).map fun s => h s.1 s.2).sum = (L.map fun s => h s.1 s.2).sum := by
  intro chunk L vec queue
  have hsum : front.length + back.length = (front ++ back).length := List.length_append.symm
  have hmax : (front ++ back).length ≤ usizeMax := Nat.le_trans hlen isizeMax_le
  obtain ⟨hpos, hle⟩ := resolve_bounds plan reported hmax rfl
  have hchain : Chain 0 (shardSpans front.length (front ++ back).length chunk)
      (front ++ back).length := shardSpans_chain _ _ hpos
  have hcut : cutAt front.length L = (shardSpans front.length (front ++ back).length chunk).map
      fun s => (s.start, s.cut (front ++ back)) := cutAt_chunks front.length hpos (front ++ back)
  obtain ⟨hfew, hmany⟩ := queue_map_with_eq front back hlen plan reported slice_fail
    (pure_closure g : Nat → List T → Task κ α SlotCall ρ π)
  refine ⟨⟨partition_read_map_with_terminates hmax, fun exit pool hexit => ?_⟩, ?_,
    fun hcount => ⟨_, hfew hcount, ?_, fun exit pool hexit => ?_⟩, hmany, ?_,
    fun h hadd => cutAt_sum front.length L hadd⟩
  · exact partition_read_map_with_exits rfl hpos
      (fun i hi => chunk_end_fits ((lt_count hpos).mp hi) hlen hle) (fun _ _ => rfl) hexit
  · show (chunks chunk (front ++ back)).countP _ ≤ 1
    rw [chunks_eq]
    exact straddles_count front.length _ (chain_spansOf _ hpos) (Nat.le_refl _)
  · unfold DequeShardPlan.map_read
    split
    · trivial
    · apply partition_read_map_with_terminates
      have hspans : (shardSpans front.length (front ++ back).length
          (plan.resolve reported (front ++ back).length)).length ≤ (front ++ back).length - 0 :=
        chain_length_le hchain
      rw [List.length_map]
      omega
  · rw [hcut, List.map_map]
    exact map_read_exits ⟨front, back⟩ hchain hsum hlen (fun s hs => cutSpans_mem hs) hexit
  · intro hwrap
    refine cutAt_eq_self fun p hp => chunks_not_straddled hpos (front ++ back) ?_ hp
    rcases hwrap with rfl | hdvd
    · exact .inr (by simp)
    · exact .inl hdvd

theorem five_values_read_across_the_wrap :
    ∃ deque : Call (Nat × List DequeShard) Nat Nat Nat Nat,
      BrandedVecDeque.partition_map_with ⟨[1, 2, 3], [4, 5]⟩ (.chunk_size ⟨2, by decide⟩) none 0
        (pure_closure fun start l => start + l.sum) = .ok deque ∧
      ∀ exit pool, deque.Exits none [] ([] : List Nat) exit pool →
        exit = .returned [3, 5, 7, 9] := by
  obtain ⟨-, -, hfew, -⟩ := deque_reads_refine_vec_reads (κ := Nat) (α := Nat) [1, 2, 3] [4, 5]
    (by decide) (.chunk_size ⟨2, by decide⟩) none 0 (fun start l => start + l.sum) none none [] []
    ([] : List Nat) ([] : List Nat)
  obtain ⟨deque, hplan, -, hexits⟩ := hfew (by decide)
  exact ⟨deque, hplan, fun exit pool hexit => (hexits exit pool hexit).1⟩

/-- A queue of 2 ^ 57 units, one to a chunk: a vector of them makes as many calls, the
queue none. -/
theorem units_are_read_from_a_vector_only :
    (List.replicate (2 ^ 57) () ++ []).length ≤ isizeMax ∧
    (BrandedVec.partition_map_with (List.replicate (2 ^ 57) ()) (.chunk_size ⟨1, by decide⟩) none 0
      (pure_closure fun _ _ => () : _ → _ → Task Nat Nat SlotCall Unit Nat)).num_chunks = 2 ^ 57 ∧
    ¬ ∃ deque : Call (Nat × List DequeShard) Nat Nat Unit Nat,
      BrandedVecDeque.partition_map_with ⟨List.replicate (2 ^ 57) (), []⟩
        (.chunk_size ⟨1, by decide⟩) none 0 (pure_closure fun _ _ => ()) = .ok deque := by
  have hlen : (List.replicate (2 ^ 57) () ++ []).length = 2 ^ 57 := by
    rw [List.append_nil, List.length_replicate]
  refine ⟨?_, ?_, ?_⟩
  · rw [hlen]
    decide
  · unfold BrandedVec.partition_map_with
    rw [partition_read_map_with_eq (c := 1) rfl Nat.one_pos, num_chunks_drive, count_one,
      List.length_replicate]
  · rintro ⟨deque, hdeque⟩
    unfold BrandedVecDeque.partition_map_with at hdeque
    simp only [List.length_replicate, List.length_nil] at hdeque
    rw [from_lengths_overflows (c := 1) (by decide) rfl (by decide)] at hdeque
    cases hdeque

end reads

/-! ## Writes -/

section writes

variable {plan : PartitionPlan} {reported : Option NonZeroUsize} {slice_fail : π}
  {slot : Option Executor} {others : List SlotCall} {cells : DequeCells T} {spans : List Span}

/-- The logical index of a cell. -/
def logical (front_len : Nat) : DequeSegment × Nat → Nat
  | (.Front, i) => i
  | (.Back, i) => front_len + i

theorem descr_addr {front_len i : Nat} {s : Span} {x : DequeSegment × Nat}
    (h : (descr front_len s).addr i = some x) : i < s.len ∧ logical front_len x = s.start + i := by
  unfold descr DequeShard.addr at h
  by_cases hfront : s.start < front_len
  · simp only [if_pos hfront, Option.ite_none_right_eq_some, Option.some.injEq] at h
    obtain ⟨hi, rfl⟩ := h
    exact ⟨hi, rfl⟩
  · simp only [if_neg hfront, Option.ite_none_right_eq_some, Option.some.injEq] at h
    obtain ⟨hi, rfl⟩ := h
    refine ⟨hi, ?_⟩
    simp only [logical]
    omega

theorem getD_getElem? {i : Nat} (hi : i < spans.length) (s : Span) :
    spans[i]? = some (spans.getD i s) := by
  rw [List.getD_eq_getElem?_getD, List.getElem?_eq_getElem hi]
  rfl

theorem range_getD {β : Type} (s : Span) (f : Span → β) :
    (List.range spans.length).map (fun i => f (spans.getD i s)) = spans.map f := by
  apply List.ext_getElem?
  intro i
  rw [List.getElem?_map, List.getElem?_map]
  by_cases hi : i < spans.length
  · rw [List.getElem?_range hi, getD_getElem? hi s]
    rfl
  · rw [List.getElem?_eq_none (by simpa using hi), List.getElem?_eq_none (by omega)]
    rfl

/-- The shards of a plan name no cell of the queue twice. -/
theorem deque_windows {total : Nat} (hchain : Chain 0 spans total)
    (hs : ∀ s ∈ spans, s.stop ≤ cells.front.length ∨ cells.front.length ≤ s.start) :
    Windows spans.length (fun i => (descr cells.front.length (spans.getD i ⟨0, 0⟩)).addr) cells
      fun i => (spans.getD i ⟨0, 0⟩).cut (cells.front ++ cells.back) where
  inj i _ a b x ha hb := by
    have hxa := (descr_addr ha).2
    have hxb := (descr_addr hb).2
    omega
  disjoint i hi j hj hij x := by
    rintro ⟨a, ha⟩ ⟨b, hb⟩
    obtain ⟨hal, hxa⟩ := descr_addr ha
    obtain ⟨hbl, hxb⟩ := descr_addr hb
    refine chain_disjoint hchain (getD_getElem? hi ⟨0, 0⟩) (getD_getElem? hj ⟨0, 0⟩) hij
      (logical cells.front.length x) ⟨by omega, ?_⟩ ⟨by omega, ?_⟩ <;>
    · unfold Span.stop
      omega
  shows i hi := shows_slice.mpr
    (descr_slice cells (hs _ (List.mem_of_getElem? (getD_getElem? hi ⟨0, 0⟩))))

theorem map_mut_eq (shards : List DequeShard) (f : Nat → Nat → Task Nat T SlotCall ρ π) :
    (DequeShardPlan.mk shards).map_mut reported slice_fail f =
      if shards.length = 0 then .done []
      else .drive shards.length (read_arg shards slice_fail 1)
        fun (start, shard) => DequeShardPlan.write_shard slice_fail f start shard := by
  have hcount : count shards.length 1 = shards.length := by simp [count]
  unfold DequeShardPlan.map_mut DequeShardPlan.is_empty
  rw [partition_read_map_with_eq (c := 1) rfl Nat.one_pos, hcount]
  cases shards with
  | nil => rfl
  | cons shard rest => rfl

/-- The one-shard slice that the driver hands to task `i`. -/
theorem shard_arg (front_len : Nat) (hlen : spans.length ≤ isizeMax) {i : Nat}
    (hi : i < spans.length) : read_arg (spans.map (descr front_len)) slice_fail 1 i =
      .ok (i, [descr front_len (spans.getD i ⟨0, 0⟩)]) := by
  have hcount : count (spans.map (descr front_len)).length 1 = spans.length := by simp [count]
  have hfits : i * 1 + 1 ≤ usizeMax := by
    unfold isizeMax at hlen
    unfold usizeMax
    omega
  have hone : ((spans.map (descr front_len)).drop (i * 1)).take 1 =
      [descr front_len (spans.getD i ⟨0, 0⟩)] := by
    rw [Nat.mul_one, List.drop_eq_getElem_cons (by simpa using hi)]
    simp [List.getD_eq_getElem?_getD, hi]
  rw [read_arg_eq Nat.one_pos hfits (by rw [hcount]; exact hi), hone, Nat.mul_one]

/-- Every exit of `map_mut` on the plan's own spans: the closure is called with
each shard once, and each shard ends as its own task left it. -/
theorem map_mut_exits (cells : DequeCells T) {total : Nat} (hchain : Chain 0 spans total)
    (htotal : cells.front.length + cells.back.length = total) (hmax : total ≤ isizeMax)
    (hs : ∀ s ∈ spans, s.stop ≤ cells.front.length ∨ cells.front.length ≤ s.start)
    {f : Nat → Nat → Task Nat T SlotCall ρ π} {exit : Exit ρ π}
    {pool : Pool (DequeCells T) (DequeSegment × Nat) T SlotCall ρ π}
    (h : ((DequeShardPlan.mk (spans.map (descr cells.front.length))).map_mut reported slice_fail
      f).Exits slot others cells exit pool) :
    Mapped (spans.map fun s => (s.start, s.cut (cells.front ++ cells.back))) f
      (handed (((DequeShardPlan.mk (spans.map (descr cells.front.length))).map_mut reported
        slice_fail f).called pool)) exit ∧
    pool.mem.front.length = cells.front.length ∧ pool.mem.back.length = cells.back.length ∧
    ∀ s ∈ spans, s.cut (pool.mem.front ++ pool.mem.back) =
      ((f s.start s.len).exec (s.cut (cells.front ++ cells.back))).2 := by
  have hlen := chain_length_le hchain
  rw [map_mut_eq, List.length_map] at h ⊢
  have hargs : ∀ i < spans.length,
      read_arg (spans.map (descr cells.front.length)) slice_fail 1 i =
      .ok (i, [descr cells.front.length (spans.getD i ⟨0, 0⟩)]) :=
    fun i hi => shard_arg cells.front.length (by omega) hi
  have hmem : ∀ i < spans.length, spans.getD i ⟨0, 0⟩ ∈ spans := fun i hi =>
    List.mem_of_getElem? (getD_getElem? hi ⟨0, 0⟩)
  have hview : ∀ s ∈ spans, (s.cut (cells.front ++ cells.back)).length = s.len := fun s hmem => by
    have hstop := (chain_mem hchain hmem).2.2
    exact s.cut_length _ (by rw [List.length_append]; omega)
  have hrun : ∀ i < spans.length, DequeShardPlan.write_shard slice_fail f i
      [descr cells.front.length (spans.getD i ⟨0, 0⟩)] =
      (f (spans.getD i ⟨0, 0⟩).start ((spans.getD i ⟨0, 0⟩).cut (cells.front ++ cells.back)).length
        ).relocate (descr cells.front.length (spans.getD i ⟨0, 0⟩)).addr := by
    intro i hi
    simp only [DequeShardPlan.write_shard, DequeShard.with_shard_mut, descr_start, descr_len,
      hview _ (hmem i hi)]
  obtain ⟨hdriven, hcalled⟩ := driven_of_exits (deque_windows hchain hs) hargs hrun h
  have hfront : pool.mem.front.length = cells.front.length :=
    length_of_cells fun i => hdriven.cells (.Front, i)
  have hback : pool.mem.back.length = cells.back.length :=
    length_of_cells fun i => hdriven.cells (.Back, i)
  refine ⟨?_, hfront, hback, fun s hs' => ?_⟩
  · have hmapped := hdriven.mapped
      (fun i m => (descr cells.front.length (spans.getD i ⟨0, 0⟩)).slice m) rfl
      fun i _ m l => shows_slice.mp
    rw [range_getD ⟨0, 0⟩ fun s => (s.start, s.cut (cells.front ++ cells.back))] at hmapped
    rw [hcalled, handed, List.flatMap_map]
    simp only [List.map_cons, List.map_nil, descr_start, ← List.map_eq_flatMap]
    exact hmapped
  · obtain ⟨i, hi, rfl⟩ := List.getElem_of_mem hs'
    have hshows := hdriven.memory i hi
    have hget : spans.getD i ⟨0, 0⟩ = spans[i] := by
      simp [List.getD_eq_getElem?_getD, hi]
    simp only [hget, hview _ hs'] at hshows
    have hside := hs _ hs'
    rw [← hfront] at hshows hside
    exact (descr_slice pool.mem hside).symm.trans (shows_slice.mp hshows)

theorem cut_mapIdx (s : Span) (l : List T) (h : Nat → T → T) :
    s.cut (l.mapIdx h) = (s.cut l).mapIdx fun j v => h (s.start + j) v := by
  apply List.ext_getElem?
  intro i
  rw [Span.cut_getElem?, List.getElem?_mapIdx, List.getElem?_mapIdx, Span.cut_getElem?]
  split <;> rfl

/-- The shards of the plan for a queue, and every exit of a mutating call on them. -/
theorem partition_map_mut_with_exits (front back : List T)
    (hlen : (front ++ back).length ≤ isizeMax) (plan : PartitionPlan)
    (reported : Option NonZeroUsize)
    (hcount : count (front ++ back).length (plan.resolve reported (front ++ back).length) ≤
      DequeShardPlan.max_chunks) (slice_fail : π) (f : Nat → Nat → Task Nat T SlotCall ρ π) :
    ∃ spans p, Chain 0 spans (front ++ back).length ∧
      DequeShardPlan.from_lengths front.length back.length plan reported = .ok p ∧
      p.shards.map (fun s => (s.start, s.slice (DequeCells.mk front back))) =
        spans.map (fun s => (s.start, s.cut (front ++ back))) ∧
      cutAt front.length (chunks (plan.resolve reported (front ++ back).length) (front ++ back)) =
        spans.map (fun s => (s.start, s.cut (front ++ back))) ∧
      ∀ slot others,
        (p.map_mut reported slice_fail f).Terminates slot others (DequeCells.mk front back) ∧
        ∀ exit pool,
          (p.map_mut reported slice_fail f).Exits slot others (DequeCells.mk front back) exit pool →
        Mapped (spans.map fun s => (s.start, s.cut (front ++ back))) f
          (handed ((p.map_mut reported slice_fail f).called pool)) exit ∧
        pool.mem.front.length = front.length ∧ pool.mem.back.length = back.length ∧
        pool.mem.front ++ pool.mem.back = (spans.map fun s =>
          ((f s.start s.len).exec (s.cut (front ++ back))).2).flatten := by
  have hsum : front.length + back.length = (front ++ back).length := List.length_append.symm
  have hmax : (front ++ back).length ≤ usizeMax := Nat.le_trans hlen isizeMax_le
  obtain ⟨hpos, hle⟩ := resolve_bounds plan reported hmax rfl
  have hlens : front.length + back.length ≤ isizeMax := hsum ▸ hlen
  have hplan := from_lengths_eq hlens (c := plan.resolve reported (front ++ back).length)
    (by rw [hsum]) (by rwa [hsum])
  rw [hsum] at hplan
  have hchain := shardSpans_chain front.length (front ++ back).length hpos
  have hside : ∀ s ∈ shardSpans front.length (front ++ back).length
      (plan.resolve reported (front ++ back).length),
      s.stop ≤ front.length ∨ front.length ≤ s.start :=
    fun s hs => cutSpans_mem hs
  refine ⟨_, _, hchain, hplan, ?_, cutAt_chunks front.length hpos _, fun slot others => ⟨?_, ?_⟩⟩
  · rw [List.map_map]
    apply List.map_congr_left
    intro s hs
    have hslice : (descr front.length s).slice (DequeCells.mk front back) = s.cut (front ++ back) :=
      descr_slice ⟨front, back⟩ (hside s hs)
    simp only [Function.comp, hslice, descr_start]
  · rw [map_mut_eq]
    exact terminates_drive ..
  · intro exit pool hexit
    obtain ⟨hmapped, hfront, hback, hcut⟩ :=
      map_mut_exits ⟨front, back⟩ hchain hsum hlen hside hexit
    have hmem : (pool.mem.front ++ pool.mem.back).length = (front ++ back).length := by
      rw [List.length_append, hfront, hback, List.length_append]
    exact ⟨hmapped, hfront, hback, chain_rebuild (hmem ▸ hchain) _ hcut⟩

/-- Element-wise updates leave the queue as one pass over its logical indices does. -/
theorem for_each_mut_updates (front back : List T) (hlen : (front ++ back).length ≤ isizeMax)
    (plan : PartitionPlan) (reported : Option NonZeroUsize)
    (hcount : count (front ++ back).length (plan.resolve reported (front ++ back).length) ≤
      DequeShardPlan.max_chunks) (slice_fail : π)
    (update : Nat → T → T) (f : Nat → Nat → Task Nat T SlotCall Unit π)
    (hf : ∀ (start : Nat) (l : List T), (f start l.length).exec l =
      (.ok (), l.mapIdx fun j v => update (start + j) v))
    (slot : Option Executor) (others : List SlotCall) :
    ∃ call, BrandedVecDeque.partition_for_each_mut_with front.length back.length plan reported
        slice_fail f = .ok call ∧
      ∀ exit pool, call.Exits slot others (DequeCells.mk front back) exit pool →
        pool.mem.front ++ pool.mem.back = (front ++ back).mapIdx update := by
  obtain ⟨spans, p, hchain, hplan, -, -, hexits⟩ :=
    partition_map_mut_with_exits front back hlen plan reported hcount slice_fail f
  refine ⟨p.map_mut reported slice_fail f, ?_, fun exit pool hexit => ?_⟩
  · unfold BrandedVecDeque.partition_for_each_mut_with BrandedVecDeque.partition_map_mut_with
    rw [hplan]
    rfl
  · obtain ⟨-, -, -, hmem⟩ := (hexits slot others).2 exit pool hexit
    rw [hmem]
    symm
    apply chain_rebuild (by rw [List.length_mapIdx]; exact hchain)
    intro s hs
    have hstop := (chain_mem hchain hs).2.2
    have hone := hf s.start (s.cut (front ++ back))
    rw [s.cut_length _ hstop] at hone
    rw [hone, cut_mapIdx]

/-- A queue's shards, mutated in any order, end as one pass over them in logical
order would leave them, and element-wise updates leave queues of the same
contents the same, whatever their wraps and their plans. A plan of more chunks
than there is room for descriptors of panics before any shard is handed out. -/
theorem deque_map_mut_is_the_sequential_map (front back : List T)
    (hlen : (front ++ back).length ≤ isizeMax) (plan : PartitionPlan)
    (reported : Option NonZeroUsize) (slice_fail : π) (f : Nat → Nat → Task Nat T SlotCall ρ π)
    (g : Nat → List T → ρ × List T)
    (hf : ∀ s ∈ cutAt front.length
      (chunks (plan.resolve reported (front ++ back).length) (front ++ back)),
      (f s.1 s.2.length).exec s.2 = (.ok (g s.1 s.2).1, (g s.1 s.2).2))
    (slot : Option Executor) (others : List SlotCall) :
    (count (front ++ back).length (plan.resolve reported (front ++ back).length) ≤
        DequeShardPlan.max_chunks →
      ∃ p call, DequeShardPlan.from_lengths front.length back.length plan reported = .ok p ∧
        BrandedVecDeque.partition_map_mut_with front.length back.length plan reported slice_fail f =
          .ok call ∧
        let shards := p.shards.map fun s => (s.start, s.slice (DequeCells.mk front back))
        shards = cutAt front.length
          (chunks (plan.resolve reported (front ++ back).length) (front ++ back)) ∧
        call.Terminates slot others (DequeCells.mk front back) ∧
        ∀ exit pool, call.Exits slot others (DequeCells.mk front back) exit pool →
          exit = .returned (shards.map fun s => (g s.1 s.2).1) ∧
          (handed (call.called pool)).Perm shards ∧
          pool.mem.front.length = front.length ∧
          pool.mem.front ++ pool.mem.back = (shards.map fun s => (g s.1 s.2).2).flatten) ∧
    (DequeShardPlan.max_chunks <
        count (front ++ back).length (plan.resolve reported (front ++ back).length) →
      BrandedVecDeque.partition_map_mut_with front.length back.length plan reported slice_fail f =
        .error .capacity_overflow) ∧
    ∀ (front' back' : List T) (plan' : PartitionPlan) (reported' : Option NonZeroUsize)
      (update : Nat → T → T) (f' : Nat → Nat → Task Nat T SlotCall Unit π),
      front' ++ back' = front ++ back →
      count (front ++ back).length (plan'.resolve reported' (front ++ back).length) ≤
        DequeShardPlan.max_chunks →
      (∀ (start : Nat) (l : List T), (f' start l.length).exec l =
        (.ok (), l.mapIdx fun j v => update (start + j) v)) →
      ∃ call, BrandedVecDeque.partition_for_each_mut_with front'.length back'.length plan'
          reported' slice_fail f' = .ok call ∧
        ∀ exit pool, call.Exits slot others (DequeCells.mk front' back') exit pool →
          pool.mem.front ++ pool.mem.back = (front ++ back).mapIdx update := by
  refine ⟨fun hcount => ?_, fun hcount => ?_,
    fun front' back' plan' reported' update f' hsame hcount hf' => ?_⟩
  · obtain ⟨spans, p, hchain, hplan, hshards, hcut, hexits⟩ :=
      partition_map_mut_with_exits front back hlen plan reported hcount slice_fail f
    obtain ⟨hends, hexits⟩ := hexits slot others
    refine ⟨p, p.map_mut reported slice_fail f, hplan, ?_, hshards.trans hcut.symm, hends,
      fun exit pool hexit => ?_⟩
    · unfold BrandedVecDeque.partition_map_mut_with
      rw [hplan]
      rfl
    obtain ⟨hmapped, hfront, -, hmem⟩ := hexits exit pool hexit
    rw [hcut] at hf
    rw [hshards]
    refine ⟨hmapped.returned hf, hmapped.called, hfront, ?_⟩
    rw [hmem, List.map_map]
    congr 1
    apply List.map_congr_left
    intro s hs
    have hstop := (chain_mem hchain hs).2.2
    have hone := hf (s.start, s.cut (front ++ back)) (List.mem_map.mpr ⟨s, hs, rfl⟩)
    rw [s.cut_length _ hstop] at hone
    rw [hone]
    rfl
  · rw [List.length_append] at hlen hcount
    unfold BrandedVecDeque.partition_map_mut_with
    rw [from_lengths_overflows hlen rfl hcount]
    rfl
  · rw [← hsame] at hlen hcount ⊢
    exact for_each_mut_updates front' back' hlen plan' reported' hcount slice_fail update f' hf'
      slot others

theorem five_values_bumped_across_the_wrap :
    ∃ call : Call (Nat × List DequeShard) (DequeSegment × Nat) Nat Nat Nat,
      BrandedVecDeque.partition_map_mut_with 3 2 (.chunk_size ⟨2, by decide⟩) none 0
        (shard_closure sum_and_bump) = .ok call ∧
      ∀ exit pool, call.Exits (some ⟨0⟩) [none] (DequeCells.mk [1, 2, 3] [4, 5]) exit pool →
        exit = .returned [3, 3, 4, 5] ∧ pool.mem.front ++ pool.mem.back = [2, 3, 4, 5, 6] := by
  obtain ⟨hfew, -⟩ := deque_map_mut_is_the_sequential_map
    [1, 2, 3] [4, 5] (by decide) (.chunk_size ⟨2, by decide⟩) none 0
    (shard_closure sum_and_bump : Nat → Nat → Task Nat Nat SlotCall Nat Nat) sum_and_bump
    (fun s _ => shard_closure_exec (by simp [sum_and_bump]) s.1 s.2) (some ⟨0⟩) [none]
  obtain ⟨p, call, -, hcall, hshards, -, hexits⟩ := hfew (by decide)
  refine ⟨call, hcall, fun exit pool hexit => ?_⟩
  obtain ⟨hret, -, -, hmem⟩ := hexits exit pool hexit
  rw [hshards] at hret hmem
  exact ⟨hret, hmem⟩

/-- A queue of 2 ^ 57 units, one to a chunk, is not mapped. -/
theorem units_are_not_mapped_one_by_one :
    (List.replicate (2 ^ 57) () ++ []).length ≤ isizeMax ∧
    ¬ ∃ call : Call (Nat × List DequeShard) (DequeSegment × Nat) Unit Nat Nat,
      BrandedVecDeque.partition_map_mut_with (List.replicate (2 ^ 57) ()).length
        ([] : List Unit).length (.chunk_size ⟨1, by decide⟩) none 0
        (fun start _ => Task.ret start) = .ok call := by
  have hlen : (List.replicate (2 ^ 57) () ++ []).length = 2 ^ 57 := by
    rw [List.append_nil, List.length_replicate]
  constructor
  · rw [hlen]
    decide
  · rintro ⟨call, hcall⟩
    unfold BrandedVecDeque.partition_map_mut_with at hcall
    rw [List.length_replicate, List.length_nil,
      from_lengths_overflows (c := 1) (by decide) rfl (by decide)] at hcall
    cases hcall

end writes

end melinoe.collections
