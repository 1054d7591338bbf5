-- The partition of a branded region: `tiling.rs`, `shard.rs`, `chunks.rs` and
-- `par_chunks.rs`. A `&mut [MelinoeCell]` is the span of the region's cells
-- that it reaches, and the cells themselves are a list of values.
import Melinoe.Tasks
import Melinoe.Tiles
import Melinoe.Usize

open tiles

namespace melinoe.region

/-! ## The functions of the source -/

/-- Number of `chunk`-sized partitions that tile `len` items. -/
def partition_count (len chunk : Nat) : Nat :=
  if len = 0 then 0 else 1 + (len - 1) / chunk

/-- An exclusive capability over the cells of one span. -/
structure WriterShard where
  cells : Span
deriving DecidableEq, Repr

/-- What is left to hand out, `none` once `next` has found it empty. -/
structure ShardChunks where
  rest : Option Span
  chunk : Nat
  chunk_pos : 0 < chunk

/-- `base` is the region's first cell, and `region_len` the field `len`. -/
structure ParChunks where
  base : Nat
  region_len : Nat
  chunk : Nat
  chunk_pos : 0 < chunk

namespace ParChunks

def new (cells : Span) (chunk_size : Nat) : ParChunks where
  base := cells.start
  region_len := cells.len
  chunk := max chunk_size 1
  chunk_pos := by omega

def len (self : ParChunks) : Nat := partition_count self.region_len self.chunk

def is_empty (self : ParChunks) : Bool := self.region_len == 0

/-- The `(start, end)` of partition `index`, both held at the region length. -/
def range (self : ParChunks) (index : Nat) : Nat × Nat :=
  let start := wmul index self.chunk
  let stop := wadd start self.chunk
  let stop := if stop < self.region_len then stop else self.region_len
  let start := if start < self.region_len then start else self.region_len
  (start, stop)

def get_unchecked_chunk (self : ParChunks) (index : Nat) : WriterShard :=
  let (start, stop) := self.range index
  ⟨⟨self.base + start, wsub stop start⟩⟩

end ParChunks

namespace WriterShard

variable {T : Type}

def new (cells : Span) : WriterShard := ⟨cells⟩

def len (self : WriterShard) : Nat := self.cells.len

def as_slice (self : WriterShard) (mem : List T) : List T := self.cells.cut mem

def get (self : WriterShard) (mem : List T) (index : Nat) : Option T := (self.as_slice mem)[index]?

/-- The region after a write of `value` through `get_mut(index)`, or through
the same place of `as_mut_slice`, `iter_mut` or `into_mut_slice`. -/
def get_mut (self : WriterShard) (mem : List T) (index : Nat) (value : T) : List T :=
  if index < self.cells.len then mem.set (self.cells.start + index) value else mem

/-- `None` is the panic of `slice::split_at_mut` for `mid > len`. -/
def split_at (self : WriterShard) (mid : Nat) : Option (WriterShard × WriterShard) :=
  if mid ≤ self.cells.len then
    some (new ⟨self.cells.start, mid⟩, new ⟨self.cells.start + mid, self.cells.len - mid⟩)
  else none

def chunks (self : WriterShard) (chunk_size : Nat) : ShardChunks where
  rest := some self.cells
  chunk := max chunk_size 1
  chunk_pos := by omega

def par_chunks (self : WriterShard) (chunk_size : Nat) : ParChunks :=
  ParChunks.new self.cells chunk_size

end WriterShard

namespace ShardChunks

/-- `rest.take()?`, then the head of at most `chunk` cells is split off. -/
def next (self : ShardChunks) : Option WriterShard × ShardChunks :=
  match self.rest with
  | none => (none, self)
  | some slice =>
    if slice.len = 0 then (none, { self with rest := none })
    else
      let mid := min self.chunk slice.len
      (some (WriterShard.new ⟨slice.start, mid⟩),
        { self with rest := some ⟨slice.start + mid, slice.len - mid⟩ })

def size_hint (self : ShardChunks) : Nat × Option Nat :=
  let remaining := self.rest.elim 0 Span.len
  let shards := partition_count remaining self.chunk
  (shards, some shards)

end ShardChunks

/-! ## What they compute -/

theorem partition_count_eq {len chunk : Nat} (hc : 0 < chunk) :
    partition_count len chunk = count len chunk := by
  unfold partition_count count
  split
  · rename_i h
    rw [h, Nat.zero_add, Nat.div_eq_of_lt (by omega)]
  · rw [Nat.add_comm, ← Nat.add_div_right _ hc]
    congr 1
    omega

/-- All that one call of `next` can be. -/
theorem ShardChunks.next_cases {it it' : ShardChunks} {o : Option WriterShard}
    (h : it.next = (o, it')) : it'.chunk = it.chunk ∧
      (it.rest = none ∧ o = none ∧ it'.rest = none ∨
      (∃ cells, it.rest = some cells ∧ cells.len = 0 ∧ o = none ∧ it'.rest = none) ∨
      ∃ cells, it.rest = some cells ∧ 0 < cells.len ∧
        o = some ⟨⟨cells.start, min it.chunk cells.len⟩⟩ ∧
        it'.rest = some ⟨cells.start + min it.chunk cells.len,
          cells.len - min it.chunk cells.len⟩) := by
  unfold ShardChunks.next at h
  cases hr : it.rest with
  | none =>
    simp only [hr, Prod.mk.injEq] at h
    obtain ⟨rfl, rfl⟩ := h
    exact ⟨rfl, .inl ⟨rfl, rfl, hr⟩⟩
  | some cells =>
    simp only [hr] at h
    split at h <;> rename_i hlen <;> simp only [Prod.mk.injEq] at h <;> obtain ⟨rfl, rfl⟩ := h
    · exact ⟨rfl, .inr (.inl ⟨cells, rfl, hlen, rfl, rfl⟩)⟩
    · exact ⟨rfl, .inr (.inr ⟨cells, rfl, by omega, rfl, rfl⟩)⟩

namespace ParChunks

variable {self : ParChunks} {index : Nat}

theorem new_eq {cells : Span} {chunk_size : Nat} (hpos : 0 < chunk_size) :
    new cells chunk_size = ⟨cells.start, cells.len, chunk_size, hpos⟩ := by
  simp only [new, Nat.max_eq_left hpos]

theorem lt_len (self : ParChunks) (index : Nat) :
    index < self.len ↔ index * self.chunk < self.region_len := by
  unfold len
  rw [partition_count_eq self.chunk_pos, lt_count self.chunk_pos]

/-- The range of an index in bounds whose end is a `usize`: nothing wraps. -/
theorem range_of_fits (hfits : index * self.chunk + self.chunk ≤ usizeMax) (hi : index < self.len) :
    self.range index =
      (index * self.chunk, min (index * self.chunk + self.chunk) self.region_len) := by
  have hlt := (lt_len self index).mp hi
  unfold range
  simp only [wmul_eq (Nat.le_trans (Nat.le_add_right _ _) hfits), wadd_eq hfits, Prod.mk.injEq]
  constructor
  · rw [if_pos hlt]
  · split <;> omega

theorem get_unchecked_chunk_of_fits (hl : self.region_len ≤ usizeMax)
    (hfits : index * self.chunk + self.chunk ≤ usizeMax) (hi : index < self.len) :
    self.get_unchecked_chunk index = ⟨⟨self.base + index * self.chunk,
      min (index * self.chunk + self.chunk) self.region_len - index * self.chunk⟩⟩ := by
  have hlt := (lt_len self index).mp hi
  unfold get_unchecked_chunk
  rw [range_of_fits hfits hi]
  simp only
  rw [wsub_eq (by omega) (by omega)]

theorem get_unchecked_chunk_eq (hl : self.region_len ≤ isizeMax) (hc : self.chunk ≤ usizeMax)
    (hi : index < self.len) : self.get_unchecked_chunk index =
      ⟨⟨self.base + index * self.chunk,
        min (index * self.chunk + self.chunk) self.region_len - index * self.chunk⟩⟩ :=
  get_unchecked_chunk_of_fits (Nat.le_trans hl isizeMax_le)
    (chunk_end_fits ((lt_len self index).mp hi) hl hc) hi

/-- Where the end of an index in bounds is past the largest `usize` it wraps round
to before the start. -/
theorem range_of_wraps (hl : self.region_len ≤ usizeMax) (hc : self.chunk ≤ usizeMax)
    (hwraps : usizeMax < index * self.chunk + self.chunk) (hi : index < self.len) :
    self.range index = (index * self.chunk, index * self.chunk + self.chunk - 2 ^ 64) := by
  have hlt := (lt_len self index).mp hi
  have hend := wadd_wraps (Nat.le_trans (Nat.le_of_lt hlt) hl) hc hwraps
  unfold range
  simp only [wmul_eq (Nat.le_trans (Nat.le_of_lt hlt) hl), hend, Prod.mk.injEq]
  unfold usizeMax at *
  constructor
  · rw [if_pos hlt]
  · rw [if_pos (by omega)]

/-- Then the shard has a whole chunk of cells, more than the region has left. -/
theorem get_unchecked_chunk_of_wraps (hl : self.region_len ≤ usizeMax)
    (hc : self.chunk ≤ usizeMax) (hwraps : usizeMax < index * self.chunk + self.chunk)
    (hi : index < self.len) :
    self.get_unchecked_chunk index = ⟨⟨self.base + index * self.chunk, self.chunk⟩⟩ := by
  have hlt := (lt_len self index).mp hi
  have hlen : wsub (index * self.chunk + self.chunk - 2 ^ 64) (index * self.chunk) =
      self.chunk := by
    unfold wsub usizeMax at *
    omega
  unfold get_unchecked_chunk
  rw [range_of_wraps hl hc hwraps hi]
  simp only
  rw [hlen]

/-- Chunk by chunk, the partitions of a view over a whole region are its chunks. -/
theorem get_unchecked_chunk_spanAt {n chunk_size i : Nat} (hn : n ≤ usizeMax)
    (hfits : i * chunk_size + chunk_size ≤ usizeMax) (hpos : 0 < chunk_size)
    (hi : i < count n chunk_size) :
    (new ⟨0, n⟩ chunk_size).get_unchecked_chunk i = ⟨spanAt n chunk_size i⟩ := by
  have hlt := (lt_count hpos).mp hi
  rw [new_eq hpos, get_unchecked_chunk_of_fits hn hfits ((lt_len _ i).mpr hlt)]
  simp [spanAt]

end ParChunks

end melinoe.region
