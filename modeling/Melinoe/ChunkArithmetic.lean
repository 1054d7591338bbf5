-- The ends of the chunks that `par_chunks.rs` and `read_map.rs` compute, for every
-- length that a slice can have. A slice of zero-sized items may be as long as the
-- largest `usize`, and there the end of its last chunk need not be one.
import Melinoe.PartitionRead

open tasks tiles

namespace melinoe.sync

open driver_core region

variable {κ α T ρ π : Type}

/-- The chunk size that both drivers work with. -/
def chunk_size_for (plan : PartitionPlan) (reported : Option NonZeroUsize) (len : Nat) : Nat :=
  max (plan.resolve reported len) 1

/-- What is computed for chunk `index` of a slice, and of a region of its length:
nothing wraps or panics, and the shards lie inside. -/
structure ChunkFits (slice : List T) (plan : PartitionPlan) (reported : Option NonZeroUsize)
    (slice_fail : π) (f : Nat → Nat → Task Nat T SlotCall ρ π)
    (g : Nat → List T → Task κ α SlotCall ρ π) (chunk index : Nat) : Prop where
  start_fits : index * chunk ≤ usizeMax
  stop_fits : index * chunk + chunk ≤ usizeMax
  range : ∃ stop, (ParChunks.new ⟨0, slice.length⟩ chunk).range index = (index * chunk, stop) ∧
    index * chunk < stop ∧ stop ≤ slice.length
  write : ∃ shard, (partition_map_with slice.length plan reported f).task_arg index =
      some (.ok (index * chunk, shard)) ∧
    shard.cells.start = index * chunk ∧ 0 < shard.len ∧ shard.cells.stop ≤ slice.length
  read : ∃ shard, (partition_read_map_with slice plan reported slice_fail g).task_arg index =
      some (.ok (index * chunk, shard)) ∧
    0 < shard.length ∧ index * chunk + shard.length ≤ slice.length

/-! ## When the ends are `usize`s -/

/-- A length rounds up to a multiple of the chunk size exactly when every chunk ends
at a `usize`. -/
theorem roundsUp_iff {n c : Nat} (hc : 0 < c) (hn : n ≤ usizeMax) :
    RoundsUp n c ↔ ∀ i < count n c, i * c + c ≤ usizeMax := by
  constructor
  · intro h i hi
    exact h.fits hn ((lt_count hc).mp hi)
  · intro h
    by_cases hd : c ∣ n
    · exact .inl hd
    · refine .inr (h (n / c) ((lt_count hc).mpr ?_))
      -- the quotient is the index of the last chunk, the one that is cut short
      exact Nat.lt_of_le_of_ne (Nat.div_mul_le_self n c) fun he => hd ⟨n / c, by
        rw [Nat.mul_comm]
        exact he.symm⟩

section

variable {slice : List T} {plan : PartitionPlan} {reported : Option NonZeroUsize} {slice_fail : π}
  {f : Nat → Nat → Task Nat T SlotCall ρ π} {g : Nat → List T → Task κ α SlotCall ρ π}
  {c index : Nat}

theorem chunk_size_for_bounds {n : Nat} (hn : n ≤ usizeMax)
    (hc : chunk_size_for plan reported n = c) :
    0 < c ∧ c ≤ usizeMax ∧ plan.resolve reported n = c := by
  obtain ⟨hpos, hle⟩ := resolve_bounds plan reported hn rfl
  unfold chunk_size_for at hc
  omega

theorem write_arg_eq (hn : slice.length ≤ usizeMax)
    (hc : chunk_size_for plan reported slice.length = c) (hi : index < count slice.length c) :
    (partition_map_with slice.length plan reported f).task_arg index =
      some (.ok (index * c, (ParChunks.new ⟨0, slice.length⟩ c).get_unchecked_chunk index)) := by
  obtain ⟨hpos, -, hres⟩ := chunk_size_for_bounds hn hc
  have hlt := (lt_count hpos).mp hi
  rw [partition_map_with_eq hn hres, task_arg_drive hi, wmul_eq (by omega)]

theorem read_task_arg_eq (hn : slice.length ≤ usizeMax)
    (hc : chunk_size_for plan reported slice.length = c) (hi : index < count slice.length c) :
    (partition_read_map_with slice plan reported slice_fail g).task_arg index =
      some (read_arg slice slice_fail c index) := by
  obtain ⟨hpos, -, hres⟩ := chunk_size_for_bounds hn hc
  rw [partition_read_map_with_eq hres hpos, task_arg_drive hi]

/-- The end of a chunk is the only thing that can go wrong with it. -/
theorem chunkFits_of_stop (hn : slice.length ≤ usizeMax)
    (hc : chunk_size_for plan reported slice.length = c) (hi : index < count slice.length c)
    (hfits : index * c + c ≤ usizeMax) :
    ChunkFits slice plan reported slice_fail f g c index := by
  obtain ⟨hpos, -, -⟩ := chunk_size_for_bounds hn hc
  have hlt := (lt_count hpos).mp hi
  refine ⟨by omega, hfits, ?_, ?_, ?_⟩
  · rw [ParChunks.new_eq hpos, ParChunks.range_of_fits hfits ((ParChunks.lt_len _ index).mpr hlt)]
    exact ⟨_, rfl, by simp only; omega, Nat.min_le_right _ _⟩
  · rw [write_arg_eq hn hc hi, ParChunks.get_unchecked_chunk_spanAt hn hfits hpos hi]
    refine ⟨_, rfl, rfl, ?_, ?_⟩
    · simp only [WriterShard.len, spanAt]
      omega
    · simp only [Span.stop, spanAt]
      omega
  · rw [read_task_arg_eq hn hc hi, read_arg_eq hpos hfits hi]
    refine ⟨_, rfl, ?_⟩
    rw [List.length_take, List.length_drop]
    omega

/-- Where a length does not round up, its last chunk wraps: the range ends before it
starts, the shard of the region goes past the region, and the slice panics. -/
theorem the_last_chunk_wraps (hn : slice.length ≤ usizeMax)
    (hc : chunk_size_for plan reported slice.length = c) (h : ¬ RoundsUp slice.length c) :
    ∃ last stop shard, last + 1 = count slice.length c ∧
      (ParChunks.new ⟨0, slice.length⟩ c).range last = (last * c, stop) ∧ stop < last * c ∧
      (partition_map_with slice.length plan reported f).task_arg last =
        some (.ok (last * c, shard)) ∧
      shard.cells.start = last * c ∧ slice.length < shard.cells.stop ∧
      (partition_read_map_with slice plan reported slice_fail g).task_arg last =
        some (.error slice_fail) := by
  obtain ⟨hpos, hle, -⟩ := chunk_size_for_bounds hn hc
  rw [roundsUp_iff hpos hn] at h
  push Not at h
  obtain ⟨last, hi, hwraps⟩ := h
  have hlt := (lt_count hpos).mp hi
  have hlen := (ParChunks.lt_len ⟨0, slice.length, c, hpos⟩ last).mpr hlt
  have hstop : last * c + c - 2 ^ 64 < last * c := by
    unfold usizeMax at *
    omega
  refine ⟨last, last * c + c - 2 ^ 64, ⟨⟨last * c, c⟩⟩, ?_, ?_, hstop, ?_, rfl, ?_, ?_⟩
  · have hnext : ¬ last + 1 < count slice.length c := by
      rw [lt_count hpos, Nat.add_one_mul]
      omega
    omega
  · rw [ParChunks.new_eq hpos]
    exact ParChunks.range_of_wraps hn hle hwraps hlen
  · rw [write_arg_eq hn hc hi, ParChunks.new_eq hpos,
      ParChunks.get_unchecked_chunk_of_wraps hn hle hwraps hlen, Nat.zero_add]
  · simp only [Span.stop]
    omega
  · rw [read_task_arg_eq hn hc hi]
    have hstart : last * c ≤ usizeMax := by omega
    unfold read_arg
    simp only [wmul_eq hstart, wadd_wraps hstart hle hwraps]
    rw [if_neg fun hin => ?_]
    exact Nat.not_le_of_lt hstop (Nat.le_trans hin.1 (Nat.min_le_left _ _))

end

/-- For every length of a slice and every plan: no chunk's arithmetic overflows, and
each shard of either driver lies inside, exactly when the length rounded up to a
multiple of the chunk size is still a `usize`. -/
theorem chunk_ranges_fit_iff_the_length_rounds_up (slice : List T)
    (hn : slice.length ≤ usizeMax) (plan : PartitionPlan) (reported : Option NonZeroUsize)
    (slice_fail : π) (f : Nat → Nat → Task Nat T SlotCall ρ π)
    (g : Nat → List T → Task κ α SlotCall ρ π) :
    let chunk := chunk_size_for plan reported slice.length
    (∀ index < partition_count slice.length chunk,
      ChunkFits slice plan reported slice_fail f g chunk index) ↔
    RoundsUp slice.length chunk := by
  intro chunk
  obtain ⟨hpos, -, -⟩ := chunk_size_for_bounds hn (c := chunk) rfl
  rw [partition_count_eq hpos, roundsUp_iff hpos hn]
  constructor
  · intro h index hi
    exact (h index hi).stop_fits
  · intro h index hi
    exact chunkFits_of_stop hn rfl hi (h index hi)

theorem two_parts_of_five_items_fit : ChunkFits [1, 2, 3, 4, 5]
    (PartitionPlan.parts ⟨2, by decide⟩) none 0 (fun _ _ => Task.ret 0)
    (fun _ shard => (Task.ret shard.sum : Task Nat Nat SlotCall Nat Nat)) 3 1 := by
  have h := (chunk_ranges_fit_iff_the_length_rounds_up [1, 2, 3, 4, 5] (by decide)
    (PartitionPlan.parts ⟨2, by decide⟩) none 0 (fun _ _ => Task.ret 0)
    fun _ shard => (Task.ret shard.sum : Task Nat Nat SlotCall Nat Nat)).mpr (by decide)
  have hchunk : chunk_size_for (PartitionPlan.parts ⟨2, by decide⟩) none 5 = 3 := by decide
  have hcount : partition_count 5 3 = 2 := by decide
  simp only [List.length_cons, List.length_nil, Nat.reduceAdd, hchunk, hcount] at h
  exact h 1 (by decide)

/-- Two parts of a slice of `usize::MAX` zero-sized items: the second part ends one
past the largest `usize`. -/
theorem two_parts_of_the_longest_slice_wrap :
    ¬ ∀ index < partition_count (List.replicate usizeMax ()).length
        (chunk_size_for (PartitionPlan.parts ⟨2, by decide⟩) none
          (List.replicate usizeMax ()).length),
      ChunkFits (List.replicate usizeMax ()) (PartitionPlan.parts ⟨2, by decide⟩) none 0
        (fun _ _ => Task.ret 0) (fun _ _ => (Task.ret 0 : Task Nat Nat SlotCall Nat Nat))
        (chunk_size_for (PartitionPlan.parts ⟨2, by decide⟩) none
          (List.replicate usizeMax ()).length) index := by
  intro h
  have hchunk : chunk_size_for (PartitionPlan.parts ⟨2, by decide⟩) none
      (List.replicate usizeMax ()).length = 2 ^ 63 := by
    rw [List.length_replicate]
    decide
  rw [hchunk] at h
  have hone : 1 < partition_count (List.replicate usizeMax ()).length (2 ^ 63) := by
    rw [List.length_replicate]
    decide
  exact absurd (h 1 hone).stop_fits (by decide)

end melinoe.sync
