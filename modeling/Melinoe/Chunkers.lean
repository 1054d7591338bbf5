-- The two ways to take the chunks of a region: `ShardChunks`, one after the other, and
-- `ParChunks`, by index. The iterator's state is what is left of the region.
import Melinoe.Region

open tiles

namespace melinoe.region

/-! ## The iterator after any number of calls -/

namespace ShardChunks

/-- The iterator after `k` calls of `next`. -/
def after (self : ShardChunks) : Nat → ShardChunks
  | 0 => self
  | k + 1 => (self.after k).next.2

variable {it : ShardChunks} {cells : Span} {n c k : Nat}

theorem next_chunk (it : ShardChunks) : it.next.2.chunk = it.chunk :=
  (@next_cases it _ _ rfl).1

/-- With cells left `next` splits a chunk off. -/
theorem next_of_cells (hr : it.rest = some cells) (hpos : 0 < cells.len) :
    it.next.1 = some ⟨⟨cells.start, min it.chunk cells.len⟩⟩ ∧
    it.next.2.rest = some ⟨cells.start + min it.chunk cells.len,
      cells.len - min it.chunk cells.len⟩ := by
  rcases (@next_cases it _ _ rfl).2 with ⟨h, -⟩ | ⟨cells', h, h0, -⟩ | ⟨cells', h, -, ho, hs⟩
  · rw [hr] at h
    cases h
  · rw [hr] at h
    cases h
    omega
  · rw [hr] at h
    cases h
    exact ⟨ho, hs⟩

/-- With no cells left `next` gives nothing, now and from now on. -/
theorem next_of_empty (hr : it.rest.elim 0 Span.len = 0) :
    it.next.1 = none ∧ it.next.2.rest = none := by
  rcases (@next_cases it _ _ rfl).2 with ⟨-, ho, hs⟩ | ⟨-, -, -, ho, hs⟩ | ⟨cells, h, hpos, -⟩
  · exact ⟨ho, hs⟩
  · exact ⟨ho, hs⟩
  · rw [h] at hr
    change cells.len = 0 at hr
    omega

theorem after_chunk (it : ShardChunks) (k : Nat) : (it.after k).chunk = it.chunk := by
  induction k with
  | zero => rfl
  | succ k ih => exact (next_chunk _).trans ih

theorem after_add (it : ShardChunks) (k j : Nat) : (it.after k).after j = it.after (k + j) := by
  induction j with
  | zero => rfl
  | succ j ih => exact congrArg (fun it => it.next.2) ih

/-- While there are chunks to come, the iterator has what is left of the region. -/
theorem after_rest (hr : it.rest = some cells) (hk : k ≤ count cells.len it.chunk) :
    (it.after k).rest = some ⟨cells.start + min (k * it.chunk) cells.len,
      cells.len - k * it.chunk⟩ := by
  induction k with
  | zero => simpa [after] using hr
  | succ k ih =>
    have hlt : k * it.chunk < cells.len := (lt_count it.chunk_pos).mp (by omega)
    have hnext := (next_of_cells (ih (by omega)) (by simp only; omega)).2
    rw [after_chunk] at hnext
    refine hnext.trans ?_
    simp only [Nat.add_one_mul, Option.some.injEq, Span.mk.injEq]
    omega

/-- Once every chunk is taken and `next` was called once more, nothing is left. -/
theorem after_done (hr : it.rest = some cells) (hk : count cells.len it.chunk < k) :
    (it.after k).rest = none := by
  induction k with
  | zero => omega
  | succ k ih =>
    refine (next_of_empty ?_).2
    rcases Nat.lt_or_ge (count cells.len it.chunk) k with hlt | hge
    · rw [ih hlt]
      rfl
    · have heq : k = count cells.len it.chunk := by omega
      have hall := le_count_mul (n := cells.len) it.chunk_pos
      rw [after_rest hr (by omega), heq]
      exact Nat.sub_eq_zero_of_le hall

/-- How many cells are left. -/
theorem after_len (hr : it.rest = some cells) (k : Nat) :
    (it.after k).rest.elim 0 Span.len = cells.len - k * it.chunk := by
  rcases Nat.lt_or_ge (count cells.len it.chunk) k with hlt | hge
  · have hall := (count_le_iff it.chunk_pos).mp (Nat.le_of_lt hlt)
    rw [after_done hr hlt, Nat.sub_eq_zero_of_le hall]
    rfl
  · rw [after_rest hr hge]
    rfl

/-- Call `k` gives chunk `k`, as long as there is one. -/
theorem after_next (hr : it.rest = some cells) (k : Nat) : (it.after k).next.1 =
    if k < count cells.len it.chunk then
      some ⟨(spanAt cells.len it.chunk k).shift cells.start⟩
    else none := by
  split
  · rename_i hk
    have hlt := (lt_count it.chunk_pos).mp hk
    have hnext := (next_of_cells (after_rest hr (Nat.le_of_lt hk)) (by simp only; omega)).1
    rw [after_chunk, Nat.min_eq_left (Nat.le_of_lt hlt)] at hnext
    refine hnext.trans ?_
    simp only [Span.shift, spanAt, Option.some.injEq, WriterShard.mk.injEq, Span.mk.injEq,
      true_and]
    omega
  · rename_i hk
    refine (next_of_empty ?_).1
    rw [after_len hr]
    exact Nat.sub_eq_zero_of_le ((count_le_iff it.chunk_pos).mp (by omega))

theorem after_size_hint (hr : it.rest = some cells) (k : Nat) : (it.after k).size_hint =
    (count cells.len it.chunk - k, some (count cells.len it.chunk - k)) := by
  unfold size_hint
  simp only
  rw [after_len hr, after_chunk, partition_count_eq it.chunk_pos, count_sub it.chunk_pos]

end ShardChunks

/-! ## The two chunkers -/

theorem par_chunks_len (region : WriterShard) (chunk_size : Nat) :
    (region.par_chunks chunk_size).len = count region.len (max chunk_size 1) :=
  partition_count_eq (Nat.le_max_right chunk_size 1)

/-- By index too the shards are the chunks, moved to where the region starts. -/
theorem par_chunks_chunk {region : WriterShard} {chunk_size k : Nat} (hlen : region.len ≤ isizeMax)
    (hc : chunk_size ≤ usizeMax) (hk : k < count region.len (max chunk_size 1)) :
    (region.par_chunks chunk_size).get_unchecked_chunk k =
      ⟨(spanAt region.len (max chunk_size 1) k).shift region.cells.start⟩ := by
  have hmax : max chunk_size 1 ≤ usizeMax := by have := one_le_usizeMax; omega
  exact ParChunks.get_unchecked_chunk_eq hlen hmax (by rwa [← par_chunks_len] at hk)

/-- Over every region and for every chunk size the iterator gives the shards that the
indexed view has, in the order of their indices: none of them empty, each but the last
of a whole chunk, one after the other over the region. Its size hint is exact after any
number of calls, and once it has given nothing it gives nothing more. -/
theorem the_chunkers_agree (region : WriterShard) (hlen : region.len ≤ isizeMax)
    (chunk_size : Usize) :
    let it := region.chunks chunk_size.val
    let par := region.par_chunks chunk_size.val
    (∀ k, (it.after k).next.1 =
      if k < par.len then some (par.get_unchecked_chunk k) else none) ∧
    (∀ k < par.len, 0 < (par.get_unchecked_chunk k).len ∧
      (par.get_unchecked_chunk k).len ≤ max chunk_size.val 1 ∧
      (k + 1 < par.len → (par.get_unchecked_chunk k).len = max chunk_size.val 1)) ∧
    Chain region.cells.start ((List.range par.len).map fun k => (par.get_unchecked_chunk k).cells)
      region.cells.stop ∧
    (∀ k, (it.after k).size_hint = (par.len - k, some (par.len - k)) ∧
      ∀ j, ((it.after k).after j).next.1.isSome ↔ j < par.len - k) ∧
    ∀ k, (it.after k).next.1 = none →
      ∀ j, (it.after (k + j)).next.1 = none ∧ (it.after (k + j)).size_hint = (0, some 0) := by
  intro it par
  have hpos : 0 < max chunk_size.val 1 := by omega
  have hplen : par.len = count region.len (max chunk_size.val 1) := par_chunks_len region _
  have hchunk : ∀ k < par.len, par.get_unchecked_chunk k =
      ⟨(spanAt region.len (max chunk_size.val 1) k).shift region.cells.start⟩ := fun k hk =>
    par_chunks_chunk hlen chunk_size.property (hplen ▸ hk)
  have hnext : ∀ k, (it.after k).next.1 =
      if k < par.len then some (par.get_unchecked_chunk k) else none := by
    intro k
    refine (@ShardChunks.after_next it region.cells rfl k).trans ?_
    split
    · rename_i hk
      rw [if_pos (hplen ▸ hk), hchunk k (hplen ▸ hk)]
      rfl
    · rename_i hk
      rw [if_neg (hplen ▸ hk)]
  have hhint : ∀ k, (it.after k).size_hint = (par.len - k, some (par.len - k)) := by
    intro k
    rw [hplen]
    exact ShardChunks.after_size_hint rfl k
  refine ⟨hnext, fun k hk => ?_, ?_, fun k => ⟨hhint k, fun j => ?_⟩, fun k hnone j => ?_⟩
  · have hlt := (lt_count hpos).mp (hplen ▸ hk)
    rw [hchunk k hk]
    simp only [WriterShard.len, Span.shift, spanAt] at hlt ⊢
    refine ⟨by omega, by omega, fun hlast => ?_⟩
    rw [hplen, lt_count hpos, Nat.add_one_mul] at hlast
    simp only [WriterShard.len] at hlast
    omega
  · have hchain := chain_shift (chain_spansOf region.len hpos) region.cells.start
    rw [spansOf, List.map_map, ← hplen] at hchain
    rw [List.map_congr_left fun k hk => congrArg WriterShard.cells
      (hchunk k (List.mem_range.mp hk))]
    exact hchain
  · rw [ShardChunks.after_add, hnext]
    split
    · simp only [Option.isSome_some, true_iff]
      omega
    · simp only [Option.isSome_none, Bool.false_eq_true, false_iff]
      omega
  · have hdone : par.len ≤ k := by
      by_contra hlt
      rw [hnext, if_pos (by omega)] at hnone
      cases hnone
    rw [hnext, if_neg (by omega), hhint, Nat.sub_eq_zero_of_le (by omega)]
    exact ⟨rfl, rfl⟩

theorem three_chunks_of_five_cells :
    (((WriterShard.new ⟨3, 5⟩).chunks 2).after 1).size_hint = (2, some 2) ∧
    (((WriterShard.new ⟨3, 5⟩).chunks 2).after 2).next.1 = some ⟨⟨7, 1⟩⟩ ∧
    (((WriterShard.new ⟨3, 5⟩).chunks 2).after 3).next.1 = none := by
  obtain ⟨hnext, -, -, hhint, -⟩ :=
    the_chunkers_agree (WriterShard.new ⟨3, 5⟩) (by decide) ⟨2, by decide⟩
  exact ⟨(hhint 1).1, hnext 2, hnext 3⟩

end melinoe.region
