-- The partitioned drivers of `BrandedVecDeque` (`collections/deque/partition.rs`)
-- and of `BrandedVec`. A ring buffer is its two segments, `front` before `back`
-- in logical order. A release build: the `debug_assert`s do nothing. An allocation
-- of `isize::MAX` bytes or less succeeds; a larger one panics, as `Vec` documents.
import Melinoe.PartitionRead
import Mathlib.Algebra.BigOperators.Group.List.Basic

open tasks tiles runs

namespace melinoe.collections

open driver_core region sync

/-! ## The functions of the source -/

inductive DequeSegment
  | Front
  | Back
deriving DecidableEq

structure DequeShard where
  start : Nat
  segment : DequeSegment
  offset : Nat
  len : Nat
deriving DecidableEq

/-- `Vec<DequeShard>`. -/
structure ShardVec where
  shards : List DequeShard
  capacity : Nat

namespace ShardVec

/-- A descriptor takes 32 bytes, and no allocation has more than `isize::MAX`. -/
def max_capacity : Nat := isizeMax / 32

/-- `None` for the panic `capacity overflow`. -/
def with_capacity (capacity : Nat) : Option ShardVec :=
  if capacity ≤ max_capacity then some ⟨[], capacity⟩ else none

/-- A full vector first grows to twice its capacity; `None` for `capacity overflow`. -/
def push (self : ShardVec) (shard : DequeShard) : Option ShardVec :=
  if self.shards.length < self.capacity then some { self with shards := self.shards ++ [shard] }
  else
    let capacity := max (max (self.capacity * 2) (self.capacity + 1)) 4
    if capacity ≤ max_capacity then some ⟨self.shards ++ [shard], capacity⟩ else none

end ShardVec

structure DequeShardPlan where
  shards : List DequeShard

/-- How `from_lengths` ends without a plan. -/
inductive PlanFail
  /-- The vector of descriptors panics. -/
  | capacity_overflow
  /-- The loop is still going after `total_len` turns. -/
  | unfinished
deriving DecidableEq

/-- What one turn of the loop of `from_lengths` pushes. -/
def from_lengths_push (front_len start stop : Nat) : List DequeShard :=
  (if start < front_len then
    let front_end := min stop front_len
    [⟨start, .Front, start, wsub front_end start⟩]
  else []) ++
  (if stop > front_len then
    let back_start := wsub (max start front_len) front_len
    [⟨wadd front_len back_start, .Back, back_start, wsub stop (max start front_len)⟩]
  else [])

/-- `while start < total_len`, for at most `fuel` turns. -/
def from_lengths_loop (front_len total_len chunk_len : Nat) :
    Nat → Nat → ShardVec → Except PlanFail ShardVec
  | 0, _, _ => .error .unfinished
  | fuel + 1, start, shards =>
    if start < total_len then
      let stop := min (wadd start chunk_len) total_len
      match (from_lengths_push front_len start stop).foldlM ShardVec.push shards with
      | some shards => from_lengths_loop front_len total_len chunk_len fuel stop shards
      | none => .error .capacity_overflow
    else .ok shards

/-- `start` at the head of turn `turn`. -/
def from_lengths_start (total_len chunk_len : Nat) : Nat → Nat
  | 0 => 0
  | turn + 1 => min (wadd (from_lengths_start total_len chunk_len turn) chunk_len) total_len

namespace DequeShardPlan

/-- What `Vec::with_capacity` is asked for. -/
def capacity (total_len chunk_len : Nat) : Nat := wmul (div_ceil total_len chunk_len) 2

def from_lengths (front_len back_len : Nat) (plan : PartitionPlan)
    (reported : Option NonZeroUsize) : Except PlanFail DequeShardPlan :=
  let total_len := wadd front_len back_len
  let chunk_len := max (plan.chunk_len_for reported total_len) 1
  match ShardVec.with_capacity (capacity total_len chunk_len) with
  | some shards =>
    (from_lengths_loop front_len total_len chunk_len (total_len + 1) 0 shards).map
      fun shards => ⟨shards.shards⟩
  | none => .error .capacity_overflow

def is_empty (self : DequeShardPlan) : Bool := self.shards.isEmpty

end DequeShardPlan

variable {T κ α ρ π : Type}

/-- The two storage slices, as the memory that the tasks share. -/
structure DequeCells (T : Type) where
  front : List T
  back : List T

namespace DequeCells

def segment (self : DequeCells T) : DequeSegment → List T
  | .Front => self.front
  | .Back => self.back

def get (self : DequeCells T) (a : DequeSegment × Nat) : Option T := (self.segment a.1)[a.2]?

def set (self : DequeCells T) (a : DequeSegment × Nat) (v : T) : DequeCells T :=
  match a.1 with
  | .Front => { self with front := self.front.set a.2 v }
  | .Back => { self with back := self.back.set a.2 v }

end DequeCells

instance : Memory (DequeCells T) (DequeSegment × Nat) T where
  get := DequeCells.get
  set := DequeCells.set
  get_set_self m a v := by
    obtain ⟨segment, i⟩ := a
    cases segment <;>
      simp only [DequeCells.get, DequeCells.set, DequeCells.segment, List.getElem?_set_self'] <;>
      rfl
  get_set_ne m a b v h := by
    obtain ⟨sa, i⟩ := a
    obtain ⟨sb, j⟩ := b
    cases sa <;> cases sb <;> simp [DequeCells.get, DequeCells.set, DequeCells.segment] at h ⊢
    · exact List.getElem?_set_ne h
    · exact List.getElem?_set_ne h

namespace DequeShard

/-- `&segment[offset..offset + len]`; `slice_fail` is the payload of its panic. -/
def read_slice (self : DequeShard) (cells : DequeCells T) (slice_fail : π) :
    Except π (List T) :=
  let segment := cells.segment self.segment
  let stop := wadd self.offset self.len
  if self.offset ≤ stop ∧ stop ≤ segment.length then
    .ok ((Span.mk self.offset (stop - self.offset)).cut segment)
  else .error slice_fail

/-- The cell of place `i` of the shard's slice. -/
def addr (self : DequeShard) (i : Nat) : Option (DequeSegment × Nat) :=
  if i < self.len then some (self.segment, self.offset + i) else none

/-- `DequeMutSlices::with_shard_mut`: a closure with the shard's slice. -/
def with_shard_mut (self : DequeShard) (f : Nat → Nat → Task Nat T SlotCall ρ π) :
    Task (DequeSegment × Nat) T SlotCall ρ π :=
  (f self.start self.len).relocate self.addr

end DequeShard

namespace DequeShardPlan

/-- The closure of `map_read`, on the one-shard slice that it gets. -/
def read_shard (cells : DequeCells T) (slice_fail : π)
    (f : Nat → List T → Task κ α SlotCall ρ π) (_start : Nat) :
    List DequeShard → Task κ α SlotCall ρ π
  | [] => .panic slice_fail
  | shard :: _ =>
    match shard.read_slice cells slice_fail with
    | .ok values => f shard.start values
    | .error payload => .panic payload

def map_read (self : DequeShardPlan) (cells : DequeCells T) (reported : Option NonZeroUsize)
    (slice_fail : π) (f : Nat → List T → Task κ α SlotCall ρ π) :
    Call (Nat × List DequeShard) κ α ρ π :=
  if self.is_empty then .done []
  else partition_read_map_with self.shards (.chunk_size ⟨1, one_le_usizeMax⟩) reported slice_fail
    (read_shard cells slice_fail f)

/-- The closure of `map_mut`, on the one-shard slice that it gets. -/
def write_shard (slice_fail : π) (f : Nat → Nat → Task Nat T SlotCall ρ π) (_start : Nat) :
    List DequeShard → Task (DequeSegment × Nat) T SlotCall ρ π
  | [] => .panic slice_fail
  | shard :: _ => shard.with_shard_mut f

def map_mut (self : DequeShardPlan) (reported : Option NonZeroUsize) (slice_fail : π)
    (f : Nat → Nat → Task Nat T SlotCall ρ π) :
    Call (Nat × List DequeShard) (DequeSegment × Nat) T ρ π :=
  if self.is_empty then .done []
  else partition_read_map_with self.shards (.chunk_size ⟨1, one_le_usizeMax⟩) reported slice_fail
    (write_shard slice_fail f)

end DequeShardPlan

namespace BrandedVecDeque

def partition_map_with (cells : DequeCells T) (plan : PartitionPlan)
    (reported : Option NonZeroUsize) (slice_fail : π)
    (f : Nat → List T → Task κ α SlotCall ρ π) :
    Except PlanFail (Call (Nat × List DequeShard) κ α ρ π) :=
  (DequeShardPlan.from_lengths cells.front.length cells.back.length plan reported).map
    fun shard_plan => shard_plan.map_read cells reported slice_fail f

def partition_map_mut_with (front_len back_len : Nat) (plan : PartitionPlan)
    (reported : Option NonZeroUsize) (slice_fail : π)
    (f : Nat → Nat → Task Nat T SlotCall ρ π) :
    Except PlanFail (Call (Nat × List DequeShard) (DequeSegment × Nat) T ρ π) :=
  (DequeShardPlan.from_lengths front_len back_len plan reported).map
    fun shard_plan => shard_plan.map_mut reported slice_fail f

def partition_for_each_mut_with (front_len back_len : Nat) (plan : PartitionPlan)
    (reported : Option NonZeroUsize) (slice_fail : π)
    (f : Nat → Nat → Task Nat T SlotCall Unit π) :
    Except PlanFail (Call (Nat × List DequeShard) (DequeSegment × Nat) T Unit π) :=
  partition_map_mut_with front_len back_len plan reported slice_fail f

end BrandedVecDeque

/-- `BrandedVec::partition_map_with`. -/
def BrandedVec.partition_map_with (values : List T) (plan : PartitionPlan)
    (reported : Option NonZeroUsize) (slice_fail : π)
    (f : Nat → List T → Task κ α SlotCall ρ π) : Call (Nat × List T) κ α ρ π :=
  partition_read_map_with values plan reported slice_fail f

/-! ## The plan -/

/-- The descriptor of a span of logical indices that is all on one side of the wrap. -/
def descr (front_len : Nat) (s : Span) : DequeShard :=
  if s.start < front_len then ⟨s.start, .Front, s.start, s.len⟩
  else ⟨s.start, .Back, s.start - front_len, s.len⟩

theorem from_lengths_push_eq {front_len : Nat} {s : Span} (hpos : 0 < s.len)
    (hstop : s.stop ≤ usizeMax) :
    from_lengths_push front_len s.start s.stop = (cutSpan front_len s).map (descr front_len) := by
  have hlen : s.stop = s.start + s.len := rfl
  unfold from_lengths_push cutSpan
  by_cases hfront : s.start < front_len
  · by_cases hback : front_len < s.stop
    · -- the span straddles the wrap: both pieces
      have hmin : min s.stop front_len = front_len := by omega
      have hmax : max s.start front_len = front_len := by omega
      simp only [if_pos hfront, if_pos hback, if_pos (And.intro hfront hback), hmin, hmax]
      rw [wsub_eq (by omega) (by omega), wsub_eq (Nat.le_refl _) (by omega),
        wsub_eq (by omega) hstop, Nat.sub_self, wadd_eq (by omega)]
      simp [descr, hfront]
    · have hmin : min s.stop front_len = s.stop := by omega
      simp only [if_pos hfront, if_neg hback, if_neg (show ¬ (_ ∧ _) from fun h => hback h.2), hmin]
      rw [wsub_eq (by omega) hstop]
      simp only [descr, List.map_cons, List.map_nil, List.append_nil, if_pos hfront]
      congr 2
      omega
  · have hback : front_len < s.stop := by omega
    have hmax : max s.start front_len = s.start := by omega
    simp only [if_neg hfront, if_pos hback, if_neg (show ¬ (_ ∧ _) from fun h => hfront h.1), hmax]
    rw [wsub_eq (by omega) (by omega), wsub_eq (by omega) hstop, wadd_eq (by omega)]
    simp only [descr, List.map_cons, List.map_nil, List.nil_append, if_neg hfront]
    congr 2
    · omega
    · omega

theorem from_lengths_push_length_le (front_len start stop : Nat) :
    (from_lengths_push front_len start stop).length ≤ 2 := by
  unfold from_lengths_push
  rw [List.length_append]
  split <;> split <;> simp

/-- A vector with room for the new descriptors does not grow. -/
theorem foldlM_push (new : List DequeShard) {shards : ShardVec}
    (h : shards.shards.length + new.length ≤ shards.capacity) :
    new.foldlM ShardVec.push shards = some { shards with shards := shards.shards ++ new } := by
  induction new generalizing shards with
  | nil => simp
  | cons shard new ih =>
    rw [List.length_cons] at h
    have hpush : shards.push shard = some { shards with shards := shards.shards ++ [shard] } := by
      unfold ShardVec.push
      rw [if_pos (by omega)]
    have hroom : (shards.shards ++ [shard]).length + new.length ≤ shards.capacity := by
      rw [List.length_append, List.length_singleton]
      omega
    rw [List.foldlM_cons, hpush, Option.bind_eq_bind, Option.bind_some, ih hroom]
    simp

/-- One turn, in a vector with room for two more descriptors. -/
theorem from_lengths_loop_turn (front_len : Nat) {total c start fuel : Nat} {shards : ShardVec}
    (hgo : start < total) (hroom : shards.shards.length + 2 ≤ shards.capacity) :
    from_lengths_loop front_len total c (fuel + 1) start shards =
      from_lengths_loop front_len total c fuel (min (wadd start c) total) { shards with
        shards := shards.shards ++
          from_lengths_push front_len start (min (wadd start c) total) } := by
  have hpushes := from_lengths_push_length_le front_len start (min (wadd start c) total)
  have hfits : shards.shards.length +
      (from_lengths_push front_len start (min (wadd start c) total)).length ≤ shards.capacity := by
    omega
  have hpush := foldlM_push _ hfits
  conv_lhs => unfold from_lengths_loop
  rw [if_pos hgo]
  simp only [hpush]

/-- A loop whose guard holds at `k` turns and fails at the next one makes just those
turns, whatever its fuel is beyond them, in a vector with room for two descriptors
a turn. -/
theorem from_lengths_loop_run (front_len : Nat) {total c k i fuel : Nat} {shards : ShardVec}
    (hgo : ∀ turn, i ≤ turn → turn < i + k → from_lengths_start total c turn < total)
    (hstop : total ≤ from_lengths_start total c (i + k)) (hfuel : k < fuel)
    (hroom : shards.shards.length + 2 * k ≤ shards.capacity) :
    from_lengths_loop front_len total c fuel (from_lengths_start total c i) shards =
      .ok { shards with
        shards := shards.shards ++ (List.range' i k).flatMap fun turn => from_lengths_push front_len
          (from_lengths_start total c turn) (from_lengths_start total c (turn + 1)) } := by
  induction k generalizing i fuel shards with
  | zero =>
    obtain ⟨fuel, rfl⟩ : ∃ m, fuel = m + 1 := ⟨fuel - 1, by omega⟩
    rw [Nat.add_zero] at hstop
    unfold from_lengths_loop
    rw [if_neg (Nat.not_lt_of_le hstop)]
    simp
  | succ k ih =>
    obtain ⟨fuel, rfl⟩ : ∃ m, fuel = m + 1 := ⟨fuel - 1, by omega⟩
    have hgo' : ∀ turn, i + 1 ≤ turn → turn < i + 1 + k → from_lengths_start total c turn < total :=
      fun turn h1 h2 => hgo turn (by omega) (by omega)
    have hstop' : total ≤ from_lengths_start total c (i + 1 + k) := by
      rwa [Nat.add_right_comm, Nat.add_assoc]
    have hpushes := from_lengths_push_length_le front_len (from_lengths_start total c i)
      (from_lengths_start total c (i + 1))
    rw [from_lengths_loop_turn front_len (hgo i (Nat.le_refl i) (by omega)) (by omega)]
    have hfuel' : k < fuel := by omega
    refine (ih hgo' hstop' hfuel' ?_).trans ?_
    · rw [List.length_append]
      change _ + (from_lengths_push front_len (from_lengths_start total c i)
        (from_lengths_start total c (i + 1))).length + _ ≤ shards.capacity
      omega
    · rw [List.range'_succ, List.flatMap_cons, List.append_assoc]
      rfl

theorem from_lengths_start_eq {total c turn : Nat} (hc : 0 < c)
    (hfits : ∀ t < turn, t * c + c ≤ usizeMax) (ht : turn ≤ count total c) :
    from_lengths_start total c turn = min (turn * c) total := by
  induction turn with
  | zero => simp [from_lengths_start]
  | succ turn ih =>
    have hlt : turn * c < total := (lt_count hc).mp (by omega)
    have hstart := ih (fun t h => hfits t (by omega)) (by omega)
    unfold from_lengths_start
    rw [hstart, Nat.min_eq_left (Nat.le_of_lt hlt), wadd_eq (hfits turn (by omega)),
      Nat.add_one_mul]

/-- Where the total rounds up to a multiple of the chunk length no turn wraps. -/
theorem from_lengths_start_of_roundsUp {total c turn : Nat} (hc : 0 < c)
    (htotal : total ≤ usizeMax) (hr : RoundsUp total c) (ht : turn ≤ count total c) :
    from_lengths_start total c turn = min (turn * c) total :=
  from_lengths_start_eq hc (fun _ h => hr.fits htotal ((lt_count hc).mp (by omega))) ht

/-- One turn pushes the descriptors of one chunk. -/
theorem from_lengths_turn_eq {front_len total c turn : Nat} (hc : 0 < c)
    (htotal : total ≤ usizeMax) (hr : RoundsUp total c) (ht : turn < count total c) :
    from_lengths_push front_len (from_lengths_start total c turn)
        (from_lengths_start total c (turn + 1)) =
      (cutSpan front_len (spanAt total c turn)).map (descr front_len) := by
  have hlt : turn * c < total := (lt_count hc).mp ht
  have hstart : from_lengths_start total c turn = (spanAt total c turn).start := by
    rw [from_lengths_start_of_roundsUp hc htotal hr (Nat.le_of_lt ht)]
    simp only [spanAt]
    omega
  have hstop : from_lengths_start total c (turn + 1) = (spanAt total c turn).stop := by
    rw [from_lengths_start_of_roundsUp hc htotal hr ht, Nat.add_one_mul]
    simp only [spanAt, Span.stop]
    omega
  rw [hstart, hstop]
  apply from_lengths_push_eq
  · simp only [spanAt]
    omega
  · simp only [spanAt, Span.stop]
    omega

/-- The shards of a plan, as spans of logical indices. -/
def shardSpans (front_len total c : Nat) : List Span := cutSpans front_len (spansOf total c)

theorem count_le {total c : Nat} (hc : 0 < c) : count total c ≤ total := by
  have := chain_length_le (chain_spansOf total hc)
  simpa [spansOf] using this

/-! ## The reservation -/

/-- The most chunks that the vector of descriptors has room for. -/
def DequeShardPlan.max_chunks : Nat := ShardVec.max_capacity / 2

example : DequeShardPlan.max_chunks + 1 = 2 ^ 57 := by decide

theorem div_ceil_eq {total c : Nat} (hc : 0 < c) : div_ceil total c = count total c := by
  rw [count_eq_div hc]
  unfold div_ceil
  split <;> split <;> omega

theorem max_chunks_fits : DequeShardPlan.max_chunks * 2 ≤ usizeMax := by decide

theorem capacity_eq {total c : Nat} (hc : 0 < c) (hcount : count total c * 2 ≤ usizeMax) :
    DequeShardPlan.capacity total c = count total c * 2 := by
  unfold DequeShardPlan.capacity
  rw [div_ceil_eq hc]
  exact wmul_eq hcount

/-- The reservation succeeds exactly where the chunks are not too many. -/
theorem le_max_capacity_iff {n : Nat} :
    n * 2 ≤ ShardVec.max_capacity ↔ n ≤ DequeShardPlan.max_chunks :=
  (Nat.le_div_iff_mul_le (by decide)).symm

theorem with_capacity_eq {total c : Nat} (hc : 0 < c)
    (hcount : count total c ≤ DequeShardPlan.max_chunks) :
    ShardVec.with_capacity (DequeShardPlan.capacity total c) = some ⟨[], count total c * 2⟩ := by
  have hfits := Nat.le_trans (Nat.mul_le_mul_right 2 hcount) max_chunks_fits
  rw [capacity_eq hc hfits]
  unfold ShardVec.with_capacity
  rw [if_pos (le_max_capacity_iff.mpr hcount)]

/-- More chunks than that, and there is no plan. -/
theorem from_lengths_overflows {front_len back_len : Nat} {plan : PartitionPlan}
    {reported : Option NonZeroUsize} (hlen : front_len + back_len ≤ isizeMax) {c : Nat}
    (hc : plan.resolve reported (front_len + back_len) = c)
    (hcount : DequeShardPlan.max_chunks < count (front_len + back_len) c) :
    DequeShardPlan.from_lengths front_len back_len plan reported = .error .capacity_overflow := by
  have hmax : front_len + back_len ≤ usizeMax := Nat.le_trans hlen isizeMax_le
  obtain ⟨hpos, -⟩ := resolve_bounds plan reported hmax hc
  change plan.chunk_len_for reported (front_len + back_len) = c at hc
  have hfits : count (front_len + back_len) c * 2 ≤ usizeMax := by
    have := @count_le (front_len + back_len) c hpos
    unfold isizeMax at hlen
    unfold usizeMax
    omega
  unfold DequeShardPlan.from_lengths
  rw [wadd_eq hmax]
  simp only [hc, Nat.max_eq_left hpos]
  rw [capacity_eq hpos hfits]
  unfold ShardVec.with_capacity
  rw [if_neg fun hle => Nat.not_le_of_lt hcount (le_max_capacity_iff.mp hle)]

/-! ## The whole call -/

/-- The loop makes one turn for each chunk. -/
theorem from_lengths_runs {front_len back_len : Nat} {plan : PartitionPlan}
    {reported : Option NonZeroUsize} (hlen : front_len + back_len ≤ usizeMax) {c : Nat}
    (hc : plan.resolve reported (front_len + back_len) = c)
    (hr : RoundsUp (front_len + back_len) c)
    (hcount : count (front_len + back_len) c ≤ DequeShardPlan.max_chunks) :
    DequeShardPlan.from_lengths front_len back_len plan reported =
      .ok ⟨(List.range (count (front_len + back_len) c)).flatMap fun turn =>
        from_lengths_push front_len (from_lengths_start (front_len + back_len) c turn)
          (from_lengths_start (front_len + back_len) c (turn + 1))⟩ := by
  obtain ⟨hpos, -⟩ := resolve_bounds plan reported hlen hc
  change plan.chunk_len_for reported (front_len + back_len) = c at hc
  unfold DequeShardPlan.from_lengths
  rw [wadd_eq hlen]
  simp only [hc, Nat.max_eq_left hpos]
  generalize front_len + back_len = total at *
  have hstart : ∀ turn ≤ count total c, from_lengths_start total c turn = min (turn * c) total :=
    fun turn ht => from_lengths_start_of_roundsUp hpos hlen hr ht
  have hgo : ∀ turn, 0 ≤ turn → turn < 0 + count total c →
      from_lengths_start total c turn < total := by
    intro turn _ ht
    rw [Nat.zero_add] at ht
    have := (lt_count hpos).mp ht
    rw [hstart turn (by omega)]
    omega
  have hstop : total ≤ from_lengths_start total c (0 + count total c) := by
    have := le_count_mul (n := total) hpos
    rw [Nat.zero_add, hstart _ (Nat.le_refl _)]
    omega
  have hroom : (ShardVec.mk [] (count total c * 2)).shards.length + 2 * count total c ≤
      (ShardVec.mk [] (count total c * 2)).capacity := by
    show 0 + 2 * count total c ≤ count total c * 2
    omega
  have hloop := from_lengths_loop_run front_len hgo hstop (Nat.lt_succ_of_le (count_le hpos)) hroom
  rw [List.nil_append, ← List.range_eq_range'] at hloop
  rw [with_capacity_eq hpos hcount]
  exact congrArg (Except.map fun shards => DequeShardPlan.mk shards.shards) hloop

/-- The plan, for a total that rounds up to a multiple of the chunk length. -/
theorem from_lengths_of_roundsUp {front_len back_len : Nat} {plan : PartitionPlan}
    {reported : Option NonZeroUsize} (hlen : front_len + back_len ≤ usizeMax) {c : Nat}
    (hc : plan.resolve reported (front_len + back_len) = c)
    (hr : RoundsUp (front_len + back_len) c)
    (hcount : count (front_len + back_len) c ≤ DequeShardPlan.max_chunks) :
    DequeShardPlan.from_lengths front_len back_len plan reported =
      .ok ⟨(shardSpans front_len (front_len + back_len) c).map (descr front_len)⟩ := by
  obtain ⟨hpos, -⟩ := resolve_bounds plan reported hlen hc
  rw [from_lengths_runs hlen hc hr hcount]
  unfold shardSpans cutSpans spansOf
  rw [List.flatMap_map, List.map_flatMap]
  congr 2
  apply List.flatMap_congr
  intro turn ht
  exact from_lengths_turn_eq hpos hlen hr (List.mem_range.mp ht)

theorem from_lengths_eq {front_len back_len : Nat} {plan : PartitionPlan}
    {reported : Option NonZeroUsize} (hlen : front_len + back_len ≤ isizeMax) {c : Nat}
    (hc : plan.resolve reported (front_len + back_len) = c)
    (hcount : count (front_len + back_len) c ≤ DequeShardPlan.max_chunks) :
    DequeShardPlan.from_lengths front_len back_len plan reported =
      .ok ⟨(shardSpans front_len (front_len + back_len) c).map (descr front_len)⟩ := by
  have hmax : front_len + back_len ≤ usizeMax := Nat.le_trans hlen isizeMax_le
  refine from_lengths_of_roundsUp hmax hc (roundsUp_of_le hlen ?_) hcount
  exact (resolve_bounds plan reported hmax hc).2

end melinoe.collections
