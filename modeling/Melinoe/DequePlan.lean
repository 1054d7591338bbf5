-- The loop of `DequeShardPlan::from_lengths`: for which lengths and plans it runs
-- without overflow, and what the descriptors that it makes are. An allocation of
-- `isize::MAX` bytes or less succeeds.
import Melinoe.ChunkArithmetic
import Melinoe.DequePartition

open tiles

namespace melinoe.collections

open region sync

variable {front_len back_len : Nat} {plan : PartitionPlan} {reported : Option NonZeroUsize}
  {total c turn : Nat}

/-! ## The loop -/

/-- Turn `turn` moves `start` on, and none of its sums and differences overflows. -/
structure TurnFits (front_len total_len chunk_len turn : Nat) : Prop where
  goes_on : from_lengths_start total_len chunk_len turn < total_len
  stop : from_lengths_start total_len chunk_len turn + chunk_len ≤ usizeMax
  ascends : from_lengths_start total_len chunk_len turn <
    from_lengths_start total_len chunk_len (turn + 1)
  front : from_lengths_start total_len chunk_len turn < front_len →
    from_lengths_start total_len chunk_len turn ≤
      min (from_lengths_start total_len chunk_len (turn + 1)) front_len
  back_start : front_len ≤ max (from_lengths_start total_len chunk_len turn) front_len ∧
    front_len + (max (from_lengths_start total_len chunk_len turn) front_len - front_len) ≤
      usizeMax
  back : front_len < from_lengths_start total_len chunk_len (turn + 1) →
    max (from_lengths_start total_len chunk_len turn) front_len ≤
      from_lengths_start total_len chunk_len (turn + 1)

/-- The whole call: one turn for each chunk, and then `start` is at the end. -/
structure PlanFits (front_len back_len : Nat) (plan : PartitionPlan)
    (reported : Option NonZeroUsize) (chunk_len : Nat) : Prop where
  capacity : div_ceil (front_len + back_len) chunk_len * 2 ≤ usizeMax
  reserves : DequeShardPlan.capacity (front_len + back_len) chunk_len ≤ ShardVec.max_capacity
  turns : ∀ turn < count (front_len + back_len) chunk_len,
    TurnFits front_len (front_len + back_len) chunk_len turn
  stops : from_lengths_start (front_len + back_len) chunk_len
    (count (front_len + back_len) chunk_len) = front_len + back_len
  returns : DequeShardPlan.from_lengths front_len back_len plan reported =
    .ok ⟨(List.range (count (front_len + back_len) chunk_len)).flatMap fun turn =>
      from_lengths_push front_len (from_lengths_start (front_len + back_len) chunk_len turn)
        (from_lengths_start (front_len + back_len) chunk_len (turn + 1))⟩

/-- The reservation fits exactly when there are no more chunks than it has room for. -/
theorem reservation_fits_iff (hc : 0 < c) :
    div_ceil total c * 2 ≤ usizeMax ∧
      DequeShardPlan.capacity total c ≤ ShardVec.max_capacity ↔
    total ≤ DequeShardPlan.max_chunks * c := by
  rw [div_ceil_eq hc, ← count_le_iff hc, ← le_max_capacity_iff]
  constructor
  · rintro ⟨hfits, hcap⟩
    rwa [capacity_eq hc hfits] at hcap
  · intro hcap
    have hfits : count total c * 2 ≤ usizeMax := Nat.le_trans hcap (by decide)
    exact ⟨hfits, by rwa [capacity_eq hc hfits]⟩

theorem turnFits_of_roundsUp (hc : 0 < c) (htotal : total ≤ usizeMax) (hr : RoundsUp total c)
    (hfront : front_len ≤ total) (ht : turn < count total c) :
    TurnFits front_len total c turn := by
  have hlt := (lt_count hc).mp ht
  have hfits := hr.fits htotal hlt
  have hstart := from_lengths_start_of_roundsUp hc htotal hr (Nat.le_of_lt ht)
  have hstop : from_lengths_start total c (turn + 1) = min ((turn + 1) * c) total :=
    from_lengths_start_of_roundsUp hc htotal hr ht
  rw [Nat.min_eq_left (Nat.le_of_lt hlt)] at hstart
  rw [Nat.add_one_mul] at hstop
  refine ⟨?_, ?_, ?_, ?_, ?_, ?_⟩ <;> rw [hstart]
  · exact hlt
  · exact hfits
  · omega
  · omega
  · omega
  · omega

/-- Turns whose sums fit are at the multiples of the chunk length, so these fit. -/
theorem roundsUp_of_turns (hc : 0 < c) (htotal : total ≤ usizeMax)
    (h : ∀ turn < count total c, from_lengths_start total c turn + c ≤ usizeMax) :
    RoundsUp total c := by
  rw [roundsUp_iff hc htotal]
  intro turn
  induction turn using Nat.strong_induction_on with
  | h turn ih =>
    intro ht
    have hlt := (lt_count hc).mp ht
    have hstart := from_lengths_start_eq hc (fun t h => ih t h (by omega)) (Nat.le_of_lt ht)
    have hstop := h turn ht
    rwa [hstart, Nat.min_eq_left (Nat.le_of_lt hlt)] at hstop

/-- For every two segments and every plan: the planner's reservation is granted, each turn
of its loop moves on, it ends after one turn for each chunk, and nothing overflows, exactly
when the total rounded up to a multiple of the chunk length is a `usize` and there are no
more chunks than an allocation has room for descriptors of. -/
theorem the_planner_ends_without_overflow_iff (front_len back_len : Nat)
    (hlen : front_len + back_len ≤ usizeMax) (plan : PartitionPlan)
    (reported : Option NonZeroUsize) :
    let chunk_len := chunk_size_for plan reported (front_len + back_len)
    PlanFits front_len back_len plan reported chunk_len ↔
      RoundsUp (front_len + back_len) chunk_len ∧
        front_len + back_len ≤ DequeShardPlan.max_chunks * chunk_len := by
  intro chunk_len
  obtain ⟨hpos, -, hres⟩ := chunk_size_for_bounds hlen (c := chunk_len) rfl
  constructor
  · intro h
    exact ⟨roundsUp_of_turns hpos hlen fun turn ht => (h.turns turn ht).stop,
      (reservation_fits_iff hpos).mp ⟨h.capacity, h.reserves⟩⟩
  · rintro ⟨hr, hcap⟩
    obtain ⟨hcapacity, hreserves⟩ := (reservation_fits_iff hpos).mpr hcap
    refine ⟨hcapacity, hreserves, fun turn ht => ?_, ?_, ?_⟩
    · exact turnFits_of_roundsUp hpos hlen hr (Nat.le_add_right _ _) ht
    · have := le_count_mul (n := front_len + back_len) hpos
      rw [from_lengths_start_of_roundsUp hpos hlen hr (Nat.le_refl _)]
      omega
    · exact from_lengths_runs hlen hres hr ((count_le_iff hpos).mpr hcap)

theorem five_values_are_planned_in_three_turns :
    PlanFits 3 2 (PartitionPlan.chunk_size ⟨2, by decide⟩) none 2 :=
  (the_planner_ends_without_overflow_iff 3 2 (by decide)
    (PartitionPlan.chunk_size ⟨2, by decide⟩) none).mpr (by decide)

/-- A turn that starts before the end only gives a plan if what follows does. -/
theorem from_lengths_loop_goes_on {start fuel : Nat} {plan : ShardVec} (hgo : start < total)
    (h : ∀ shards, from_lengths_loop front_len total c fuel (min (wadd start c) total) shards ≠
      .ok plan) (shards : ShardVec) :
    from_lengths_loop front_len total c (fuel + 1) start shards ≠ .ok plan := by
  unfold from_lengths_loop
  rw [if_pos hgo]
  cases hpush : (from_lengths_push front_len start (min (wadd start c) total)).foldlM
    ShardVec.push shards with
  | some shards =>
    simp only [hpush]
    exact h shards
  | none => simp [hpush]

/-- With chunks of `2 ^ 63` the turns over the longest queue go from the start to the
middle and back, until the vector cannot grow. -/
theorem from_lengths_loop_swings (fuel : Nat) (shards plan : ShardVec) :
    from_lengths_loop usizeMax usizeMax (2 ^ 63) fuel 0 shards ≠ .ok plan ∧
    from_lengths_loop usizeMax usizeMax (2 ^ 63) fuel (2 ^ 63) shards ≠ .ok plan := by
  have hmiddle : min (wadd 0 (2 ^ 63)) usizeMax = 2 ^ 63 := by decide
  have hback : min (wadd (2 ^ 63) (2 ^ 63)) usizeMax = 0 := by decide
  induction fuel generalizing shards with
  | zero => exact ⟨nofun, nofun⟩
  | succ fuel ih =>
    constructor
    · refine from_lengths_loop_goes_on (by decide) (fun shards => ?_) shards
      rw [hmiddle]
      exact (ih shards).2
    · refine from_lengths_loop_goes_on (by decide) (fun shards => ?_) shards
      rw [hback]
      exact (ih shards).1

/-- A queue of `usize::MAX` zero-sized values in chunks of `2 ^ 63`: the second turn
goes back to the start, so the loop pushes the same descriptors again and comes to no
plan. -/
theorem the_planner_swings_on_the_longest_queue :
    ¬ PlanFits usizeMax 0 (PartitionPlan.chunk_size ⟨2 ^ 63, by decide⟩) none
        (chunk_size_for (PartitionPlan.chunk_size ⟨2 ^ 63, by decide⟩) none (usizeMax + 0)) ∧
    ∀ p, DequeShardPlan.from_lengths usizeMax 0 (PartitionPlan.chunk_size ⟨2 ^ 63, by decide⟩)
      none ≠ .ok p := by
  have htotal : wadd usizeMax 0 = usizeMax := by decide
  have hchunk : max ((PartitionPlan.chunk_size ⟨2 ^ 63, by decide⟩).chunk_len_for none usizeMax)
      1 = 2 ^ 63 := by decide
  refine ⟨fun h => ?_, fun p hp => ?_⟩
  · exact absurd (h.turns 1 (by decide)).stop (by decide)
  · unfold DequeShardPlan.from_lengths at hp
    simp only [htotal, hchunk] at hp
    generalize usizeMax + 1 = fuel at hp
    cases hreserve : ShardVec.with_capacity (DequeShardPlan.capacity usizeMax (2 ^ 63)) with
    | none =>
      rw [hreserve] at hp
      cases hp
    | some shards =>
      rw [hreserve] at hp
      cases hloop : from_lengths_loop usizeMax usizeMax (2 ^ 63) fuel 0 shards with
      | error failure =>
        simp only [hloop] at hp
        cases hp
      | ok plan => exact (from_lengths_loop_swings fuel shards plan).1 hloop

/-! ## The descriptors -/

namespace DequeSegment

/-- The length of the storage slice. -/
def len (front_len back_len : Nat) : DequeSegment → Nat
  | .Front => front_len
  | .Back => back_len

end DequeSegment

namespace DequeShard

/-- The logical indices of the shard. -/
def span (self : DequeShard) : Span := ⟨self.start, self.len⟩

/-- The two `debug_assert`s of `with_shard_mut`. -/
def debug_asserts (self : DequeShard) (segment_len : Nat) : Prop :=
  self.offset ≤ segment_len ∧ self.len ≤ segment_len - self.offset

end DequeShard

/-- A descriptor that `with_shard_mut` may make a slice of. -/
structure Descriptor (front_len back_len chunk_len : Nat) (shard : DequeShard) : Prop where
  pos : 1 ≤ shard.len
  le_chunk : shard.len ≤ chunk_len
  in_segment : shard.offset + shard.len ≤ shard.segment.len front_len back_len
  front : shard.segment = .Front → shard.start = shard.offset
  back : shard.segment = .Back → shard.start = front_len + shard.offset
  asserts : shard.debug_asserts (shard.segment.len front_len back_len)

theorem descr_span (front_len : Nat) (s : Span) : (descr front_len s).span = s := by
  unfold DequeShard.span
  rw [descr_start, descr_len]

/-- On one side of the wrap the descriptor of a span is one. -/
theorem descriptor_of_span {s : Span} (hpos : 0 < s.len) (hc : s.len ≤ c)
    (hside : s.stop ≤ front_len ∨ front_len ≤ s.start) (hstop : s.stop ≤ front_len + back_len) :
    Descriptor front_len back_len c (descr front_len s) := by
  unfold Span.stop at hside hstop
  unfold descr
  split
  · refine ⟨hpos, hc, ?_, fun _ => rfl, fun h => ?_, ?_⟩
    · simp only [DequeSegment.len]
      omega
    · cases h
    · simp only [DequeShard.debug_asserts, DequeSegment.len]
      omega
  · refine ⟨hpos, hc, ?_, fun h => ?_, fun _ => ?_, ?_⟩
    · simp only [DequeSegment.len]
      omega
    · cases h
    · simp only
      omega
    · simp only [DequeShard.debug_asserts, DequeSegment.len]
      omega

/-- In one segment the offsets are in the order of the logical indices. -/
theorem offsets_apart {a b : DequeShard} (ha : Descriptor front_len back_len c a)
    (hb : Descriptor front_len back_len c b) (hab : a.span.stop ≤ b.span.start)
    (hs : a.segment = b.segment) : a.offset + a.len ≤ b.offset := by
  change a.start + a.len ≤ b.start at hab
  cases hseg : a.segment with
  | Front =>
    have h1 := ha.front hseg
    have h2 := hb.front (hs ▸ hseg)
    omega
  | Back =>
    have h1 := ha.back hseg
    have h2 := hb.back (hs ▸ hseg)
    omega

/-- How many descriptors a plan has: one for each chunk, and one more when the wrap is
inside a chunk. -/
theorem shardSpans_length (hc : 0 < c) : (shardSpans front_len total c).length =
    count total c + if 0 < front_len ∧ front_len < total ∧ ¬ c ∣ front_len then 1 else 0 := by
  unfold shardSpans
  rw [cutSpans_length (chain_spansOf total hc), spansOf, List.length_map, List.length_range]
  congr 1
  have hiff : (∃ s ∈ (List.range (count total c)).map (spanAt total c),
      s.start < front_len ∧ front_len < s.stop) ↔
      0 < front_len ∧ front_len < total ∧ ¬ c ∣ front_len := by
    refine (spansOf_cut hc).trans ⟨fun h => ⟨?_, h⟩, fun h => h.2⟩
    exact Nat.pos_of_ne_zero fun h0 => h.2 (h0 ▸ Nat.dvd_zero c)
  exact if_congr hiff rfl rfl

theorem shardSpans_length_le (hc : 0 < c) :
    (shardSpans front_len total c).length ≤ 2 * count total c := by
  rw [shardSpans_length hc]
  split
  · rename_i hcut
    have : 0 < count total c := (lt_count hc).mpr (by omega)
    omega
  · omega

theorem shardSpans_descriptor (hc : 0 < c) {s : Span}
    (hs : s ∈ shardSpans front_len (front_len + back_len) c) :
    Descriptor front_len back_len c (descr front_len s) := by
  obtain ⟨-, hpos, hstop⟩ := chain_mem (shardSpans_chain front_len _ hc) hs
  refine descriptor_of_span hpos (cutSpans_len_le (fun t ht => ?_) hs) (cutSpans_mem hs) hstop
  obtain ⟨i, -, rfl⟩ := List.mem_map.mp ht
  simp only [spanAt]
  omega

/-- The descriptors of a queue's plan: each is a slice of its own segment, they lead from
the first logical index to the last, no two overlap in a segment, and the reserved
capacity is enough for them. There is no plan, but a panic, where the chunks are more than
an allocation has room for descriptors of. -/
theorem descriptors_tile_the_queue (front_len back_len : Nat)
    (hlen : front_len + back_len ≤ isizeMax) (plan : PartitionPlan)
    (reported : Option NonZeroUsize) :
    let total := front_len + back_len
    let chunk_len := chunk_size_for plan reported total
    (count total chunk_len ≤ DequeShardPlan.max_chunks →
      ∃ p, DequeShardPlan.from_lengths front_len back_len plan reported = .ok p ∧
        (∀ shard ∈ p.shards, Descriptor front_len back_len chunk_len shard) ∧
        Chain 0 (p.shards.map DequeShard.span) total ∧
        (p.shards.Pairwise fun a b => a.start < b.start) ∧
        (∀ x < total, holds (p.shards.map DequeShard.span) x = 1) ∧
        (p.shards.Pairwise fun a b => a.segment = b.segment → a.offset + a.len ≤ b.offset) ∧
        p.shards.length = count total chunk_len +
          (if 0 < front_len ∧ front_len < total ∧ ¬ chunk_len ∣ front_len then 1 else 0) ∧
        p.shards.length ≤ 2 * count total chunk_len ∧
        DequeShardPlan.capacity total chunk_len = 2 * count total chunk_len) ∧
    (DequeShardPlan.max_chunks < count total chunk_len →
      DequeShardPlan.from_lengths front_len back_len plan reported =
        .error .capacity_overflow) := by
  intro total chunk_len
  have hmax : total ≤ usizeMax := Nat.le_trans hlen isizeMax_le
  obtain ⟨hpos, -, hres⟩ := chunk_size_for_bounds hmax (c := chunk_len) rfl
  refine ⟨fun hcount => ?_, from_lengths_overflows hlen hres⟩
  have hchain := shardSpans_chain front_len total hpos
  have hspans : ((shardSpans front_len total chunk_len).map (descr front_len)).map
      DequeShard.span = shardSpans front_len total chunk_len := by
    rw [List.map_map]
    exact (List.map_congr_left fun s _ => descr_span front_len s).trans (List.map_id _)
  have hlength : ((shardSpans front_len total chunk_len).map (descr front_len)).length =
      (shardSpans front_len total chunk_len).length := List.length_map _
  have hdescr : ∀ shard ∈ (shardSpans front_len total chunk_len).map (descr front_len),
      Descriptor front_len back_len chunk_len shard := by
    intro shard hshard
    obtain ⟨s, hs, rfl⟩ := List.mem_map.mp hshard
    exact shardSpans_descriptor hpos hs
  -- each descriptor stops before the later ones start
  have hpair := chain_pairwise hchain
  rw [← hspans, List.pairwise_map] at hpair
  have hcapacity : DequeShardPlan.capacity total chunk_len = 2 * count total chunk_len := by
    rw [capacity_eq hpos (Nat.le_trans (Nat.mul_le_mul_right 2 hcount) max_chunks_fits),
      Nat.mul_comm]
  refine ⟨_, from_lengths_eq hlen hres hcount, hdescr, by rwa [hspans], ?_, fun x hx => ?_, ?_,
    ?_, ?_, hcapacity⟩
  · refine hpair.imp_of_mem fun {a b} ha _ hab => ?_
    have := (hdescr a ha).pos
    change a.start + a.len ≤ b.start at hab
    omega
  · rw [hspans, chain_holds hchain, if_pos ⟨Nat.zero_le x, hx⟩]
  · exact hpair.imp_of_mem fun ha hb => offsets_apart (hdescr _ ha) (hdescr _ hb)
  · exact hlength.trans (shardSpans_length hpos)
  · exact hlength.trans_le (shardSpans_length_le hpos)

theorem four_descriptors_across_the_wrap :
    ∃ p, DequeShardPlan.from_lengths 3 2 (PartitionPlan.chunk_size ⟨2, by decide⟩) none = .ok p ∧
      p.shards.length = 4 := by
  obtain ⟨p, hp, -, -, -, -, -, hlength, -⟩ := (descriptors_tile_the_queue 3 2 (by decide)
    (PartitionPlan.chunk_size ⟨2, by decide⟩) none).1 (by decide)
  exact ⟨p, hp, hlength⟩

/-- A queue of 2 ^ 57 values, one to a chunk, has no descriptors. -/
theorem a_chunk_for_each_of_many_values_is_not_planned :
    2 ^ 57 + 0 ≤ isizeMax ∧
    ¬ ∃ p, DequeShardPlan.from_lengths (2 ^ 57) 0 (PartitionPlan.chunk_size ⟨1, by decide⟩) none =
      .ok p := by
  refine ⟨by decide, ?_⟩
  rintro ⟨p, hp⟩
  rw [from_lengths_overflows (c := 1) (by decide) rfl (by decide)] at hp
  cases hp

end melinoe.collections
