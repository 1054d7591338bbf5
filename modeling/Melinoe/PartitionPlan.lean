-- How a region is sized into shards: `sync/scoped/partition/plan.rs`.
import Melinoe.Region

open tiles

namespace melinoe.sync

open region

inductive PartitionPlan
  | Parts (parts : NonZeroUsize)
  | AvailableParallelism
  | ChunkSize (chunk_size : NonZeroUsize)
deriving DecidableEq

def nonzero_or_one (value : Usize) : NonZeroUsize :=
  if h : 0 < value.val then ⟨value.val, h, value.property⟩ else ⟨1, Nat.one_pos, one_le_usizeMax⟩

/-- The ceiling of `len / parts`, held at one or more. -/
def chunk_for_parts (len parts : Nat) : Nat := max (partition_count len parts) 1

namespace PartitionPlan

def parts (parts : Usize) : PartitionPlan := .Parts (nonzero_or_one parts)

def available_parallelism : PartitionPlan := .AvailableParallelism

def chunk_size (chunk_size : Usize) : PartitionPlan := .ChunkSize (nonzero_or_one chunk_size)

/-- `reported` is what `std::thread::available_parallelism()` gives, `none` for
an error. -/
def chunk_len_for (self : PartitionPlan) (reported : Option NonZeroUsize) (len : Nat) : Nat :=
  match self with
  | .Parts parts => chunk_for_parts len parts.get
  | .AvailableParallelism => chunk_for_parts len (reported.elim 1 NonZeroUsize.get)
  | .ChunkSize chunk_size => chunk_size.get

def resolve (self : PartitionPlan) (reported : Option NonZeroUsize) (len : Nat) : Nat :=
  self.chunk_len_for reported len

end PartitionPlan

/-! ## The chunk length of a plan -/

theorem partition_count_le {len chunk : Nat} : partition_count len chunk ≤ len := by
  unfold partition_count
  split
  · omega
  · have := Nat.div_le_self (len - 1) chunk
    omega

theorem chunk_for_parts_bounds {len parts : Nat} (hl : len ≤ usizeMax) :
    0 < chunk_for_parts len parts ∧ chunk_for_parts len parts ≤ usizeMax := by
  have := @partition_count_le len parts
  unfold chunk_for_parts usizeMax at *
  omega

/-- The chunk length is at least one and a `usize`. -/
theorem chunk_len_for_bounds (plan : PartitionPlan) (reported : Option NonZeroUsize) {len : Nat}
    (hl : len ≤ usizeMax) :
    0 < plan.chunk_len_for reported len ∧ plan.chunk_len_for reported len ≤ usizeMax := by
  cases plan with
  | Parts parts => exact chunk_for_parts_bounds hl
  | AvailableParallelism => exact chunk_for_parts_bounds hl
  | ChunkSize chunk_size => exact ⟨chunk_size.pos, chunk_size.fits⟩

theorem resolve_bounds (plan : PartitionPlan) (reported : Option NonZeroUsize) {len c : Nat}
    (hl : len ≤ usizeMax) (hc : plan.resolve reported len = c) : 0 < c ∧ c ≤ usizeMax := by
  subst hc
  exact chunk_len_for_bounds plan reported hl

end melinoe.sync
