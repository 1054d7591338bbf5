-- The laws of a part count (`plan.rs`, `tiling.rs`): how many shards the drivers make
-- of it, which is not always as many as there are parts, and that no smaller chunk
-- would do. The allocations of `drive` succeed.
import Mathlib.Order.Bounds.Basic
import Melinoe.ChunkArithmetic

open tasks tiles runs

namespace melinoe.sync

open driver_core region

variable {μ κ α σ T ρ π : Type}

/-! ## How many shards a call makes -/

section counts

variable [Memory μ κ α] {slot : Option Executor} {others : List SlotCall} {mem : μ}

/-- Whatever the tasks do, `f` is called once for each index, and the results are as many. -/
theorem exits_counts {n : Nat} {a : Nat → σ} {f : σ → Task κ α SlotCall ρ π}
    {call : Call σ κ α ρ π}
    (hcall : call = if n = 0 then .done [] else .drive n (fun i => .ok (a i)) f)
    {exit : Exit ρ π} {pool : Pool μ κ α SlotCall ρ π} (h : call.Exits slot others mem exit pool) :
    (call.called pool).length = n ∧ (∀ c ∈ call.called pool, ∃ i < n, c.1 = a i) ∧
      ∀ results, exit = .returned results → results.length = n := by
  split at hcall <;> subst hcall <;> rename_i hn
  · cases h with
    | done =>
      refine ⟨hn.symm, fun c hc => ?_, fun results hr => ?_⟩
      · cases hc
      · cases hr
        exact hn.symm
  · cases h with
    | drive hreach hx =>
      have hinv := inv_of_reaches_init (by omega) hreach
      have hperm := hinv.calls_perm (hinv.all_ended (by simp) hx)
      have hlen := hperm.length_eq
      rw [List.length_map, List.length_range] at hlen
      rw [called_drive fun c _ => rfl]
      refine ⟨by rwa [List.length_map], fun c hc => ?_, ?_⟩
      · obtain ⟨started, hstarted, rfl⟩ := List.mem_map.mp hc
        have hmem := hperm.mem_iff.mp (List.mem_map_of_mem hstarted)
        exact ⟨started.1, List.mem_range.mp hmem, rfl⟩
      · rintro results rfl
        exact (hinv.returned hx).1

end counts

/-- One call of `partition_map` makes `k` shards: the end of none overflows, `f` is called
with `k` shards, none of them empty and each inside the region, and `k` results come
back. -/
structure MakesShards (k : Nat) (cells : List T) (parts : Usize) (reported : Option NonZeroUsize)
    (f : Nat → Nat → Task Nat T SlotCall ρ π) (slot : Option Executor) (others : List SlotCall) :
    Prop where
  num_chunks : (partition_map cells.length parts reported f).num_chunks = k
  fits : ∀ index < (partition_map cells.length parts reported f).num_chunks,
    index * chunk_size_for (.parts parts) reported cells.length +
      chunk_size_for (.parts parts) reported cells.length ≤ usizeMax
  terminates : (partition_map cells.length parts reported f).Terminates slot others cells
  called : ∀ exit pool, (partition_map cells.length parts reported f).Exits slot others cells exit
      pool → ((partition_map cells.length parts reported f).called pool).length = k
  nonempty : ∀ exit pool, (partition_map cells.length parts reported f).Exits slot others cells
      exit pool → ∀ call ∈ (partition_map cells.length parts reported f).called pool,
        0 < call.1.2.len
  inside : ∀ exit pool, (partition_map cells.length parts reported f).Exits slot others cells
      exit pool → ∀ call ∈ (partition_map cells.length parts reported f).called pool,
        call.1.2.cells.stop ≤ cells.length
  returned : ∀ results pool, (partition_map cells.length parts reported f).Exits slot others cells
      (.returned results) pool → results.length = k

/-- A shard whose end is a `usize` is not empty and lies inside the region. -/
theorem shard_inside {n c i : Nat} (hn : n ≤ usizeMax) (hpos : 0 < c) (hi : i < count n c)
    (hfits : i * c + c ≤ usizeMax) :
    0 < ((ParChunks.new ⟨0, n⟩ c).get_unchecked_chunk i).len ∧
      ((ParChunks.new ⟨0, n⟩ c).get_unchecked_chunk i).cells.stop ≤ n := by
  have hlt := (lt_count hpos).mp hi
  rw [ParChunks.get_unchecked_chunk_spanAt hn hfits hpos hi]
  simp only [WriterShard.len, Span.stop, spanAt]
  omega

/-- For a part count that the count of shards meets: the ends of all of them are `usize`s
where there is a cell to each, or the parts divide the length, or as many whole chunks as
there are parts are a `usize` together. -/
theorem parts_fit_iff {n p : Nat} (hp : 0 < p) (hn : n ≤ usizeMax)
    (hcount : count n (max (count n p) 1) = min p n) :
    (∀ i < count n (max (count n p) 1), i * max (count n p) 1 + max (count n p) 1 ≤ usizeMax) ↔
      n ≤ p ∨ p ∣ n ∨ p * (n / p + 1) ≤ usizeMax := by
  have hdiv := count_eq_div (n := n) hp
  constructor
  · intro h
    by_cases hle : n ≤ p
    · exact .inl hle
    by_cases hd : p ∣ n
    · exact .inr (.inl hd)
    · -- the last of `p` chunks ends at `p` whole chunks
      rw [if_neg fun h0 => hd (Nat.dvd_of_mod_eq_zero h0)] at hdiv
      have hc : max (count n p) 1 = n / p + 1 := by
        rw [hdiv]
        exact Nat.max_eq_left (Nat.le_add_left 1 _)
      obtain ⟨m, rfl⟩ : ∃ m, p = m + 1 := ⟨p - 1, by omega⟩
      have hlast := h m (by omega)
      rw [hc] at hlast
      rw [Nat.add_one_mul]
      exact .inr (.inr hlast)
  · rintro (hle | hd | hfits) i hi
    · have hone : max (count n p) 1 = 1 := by
        have : count n p ≤ 1 := (count_le_iff hp).mpr (by omega)
        omega
      rw [hone] at hi ⊢
      have := (lt_count Nat.one_pos).mp hi
      omega
    · have hlt := (lt_count (by omega)).mp hi
      have hq : 0 < n / p := Nat.div_pos (Nat.le_of_dvd (by omega) hd) hp
      rw [if_pos (Nat.mod_eq_zero_of_dvd hd)] at hdiv
      have hc : max (count n p) 1 = n / p := by omega
      rw [hc] at hlt ⊢
      exact RoundsUp.fits (.inl (Nat.div_dvd_of_dvd hd)) hn hlt
    · have hc : max (count n p) 1 ≤ n / p + 1 := by
        refine Nat.max_le.mpr ⟨?_, Nat.le_add_left 1 _⟩
        rw [hdiv]
        split
        · exact Nat.le_succ _
        · exact Nat.le_refl _
      have hi' : i + 1 ≤ p := by omega
      calc i * max (count n p) 1 + max (count n p) 1 = (i + 1) * max (count n p) 1 :=
          (Nat.add_one_mul _ _).symm
        _ ≤ p * (n / p + 1) := Nat.mul_le_mul hi' hc
        _ ≤ usizeMax := hfits

theorem resolve_parts (parts : Usize) (reported : Option NonZeroUsize) (len : Nat) :
    (PartitionPlan.parts parts).resolve reported len =
      max (partition_count len (max parts.val 1)) 1 := by
  have hparts : (nonzero_or_one parts).get = max parts.val 1 := by
    unfold nonzero_or_one
    split
    · simp only
      omega
    · simp only
      omega
  unfold PartitionPlan.resolve PartitionPlan.parts PartitionPlan.chunk_len_for
  simp only [hparts]
  rfl

section documented

variable {cells : List T} {parts : Usize} {reported : Option NonZeroUsize}
  {f : Nat → Nat → Task Nat T SlotCall ρ π} {slot : Option Executor} {others : List SlotCall}

theorem chunk_size_for_parts (parts : Usize) (reported : Option NonZeroUsize) (len : Nat) :
    chunk_size_for (.parts parts) reported len = max (count len (max parts.val 1)) 1 := by
  unfold chunk_size_for
  rw [resolve_parts, partition_count_eq (by omega), max_assoc, max_self]

theorem partition_map_num_chunks (hlen : cells.length ≤ usizeMax) {c : Nat}
    (hc : chunk_size_for (.parts parts) reported cells.length = c) :
    (partition_map cells.length parts reported f).num_chunks = count cells.length c := by
  obtain ⟨-, -, hres⟩ := chunk_size_for_bounds hlen hc
  have heq : partition_map cells.length parts reported f = _ := partition_map_with_eq hlen hres
  rw [heq, num_chunks_drive]

/-- `partition_map` makes as many shards as its chunk size gives, where their ends are
`usize`s. -/
theorem makesShards_count (hlen : cells.length ≤ usizeMax) {c : Nat}
    (hc : chunk_size_for (.parts parts) reported cells.length = c)
    (hfits : ∀ i < count cells.length c, i * c + c ≤ usizeMax) :
    MakesShards (count cells.length c) cells parts reported f slot others := by
  obtain ⟨hpos, -, hres⟩ := chunk_size_for_bounds hlen hc
  have heq : partition_map cells.length parts reported f = _ := partition_map_with_eq hlen hres
  have hnum := partition_map_num_chunks (f := f) hlen hc
  refine ⟨hnum, ?_, partition_map_with_terminates hlen, fun exit pool h => ?_,
    fun exit pool h call hcall => ?_, fun exit pool h call hcall => ?_, fun results pool h => ?_⟩
  · rw [hnum, hc]
    exact hfits
  · exact (exits_counts heq h).1
  · obtain ⟨i, hi, ha⟩ := (exits_counts heq h).2.1 call hcall
    rw [ha]
    exact (shard_inside hlen hpos hi (hfits i hi)).1
  · obtain ⟨i, hi, ha⟩ := (exits_counts heq h).2.1 call hcall
    rw [ha]
    exact (shard_inside hlen hpos hi (hfits i hi)).2
  · exact (exits_counts heq h).2.2 results rfl

/-- For every region and every part count: `partition_map` makes `min(parts, len)` shards,
none empty and all of them inside the region, exactly when the length is no more than the
parts, or the parts divide it, or what is left over and the quotient are together at least
the parts and the parts in whole chunks are a `usize`. -/
theorem partition_map_makes_min_parts_len_shards_iff (cells : List T)
    (hlen : cells.length ≤ usizeMax) (parts : Usize) (reported : Option NonZeroUsize)
    (f : Nat → Nat → Task Nat T SlotCall ρ π) (slot : Option Executor) (others : List SlotCall) :
    let clamped := max parts.val 1
    MakesShards (min clamped cells.length) cells parts reported f slot others ↔
      cells.length ≤ clamped ∨ clamped ∣ cells.length ∨
        clamped ≤ cells.length / clamped + cells.length % clamped ∧
          clamped * (cells.length / clamped + 1) ≤ usizeMax := by
  intro clamped
  have hpos : 0 < clamped := by omega
  have hchunk : chunk_size_for (.parts parts) reported cells.length =
      max (count cells.length clamped) 1 := chunk_size_for_parts parts reported cells.length
  have hcount := count_count_eq_min_iff (n := cells.length) hpos
  constructor
  · intro h
    have hnum := h.num_chunks
    rw [partition_map_num_chunks hlen hchunk] at hnum
    have hfits := h.fits
    rw [hchunk, partition_map_num_chunks hlen hchunk] at hfits
    have hends := (parts_fit_iff hpos hlen hnum).mp hfits
    have hmeets := hcount.mp hnum
    tauto
  · intro h
    have hnum := hcount.mpr (h.imp_right (Or.imp_right And.left))
    have hfits := (parts_fit_iff hpos hlen hnum).mpr (h.imp_right (Or.imp_right And.right))
    have hmakes : MakesShards _ cells parts reported f slot others :=
      makesShards_count hlen hchunk hfits
    rwa [hnum] at hmakes

theorem thirty_two_parts_of_five_cells : MakesShards (min (max 32 1) 5) [1, 2, 3, 4, 5]
    ⟨32, by decide⟩ none (fun _ _ => (Task.ret 0 : Task Nat Nat SlotCall Nat Nat)) none [] :=
  (partition_map_makes_min_parts_len_shards_iff [1, 2, 3, 4, 5] (by decide) ⟨32, by decide⟩ none
    (fun _ _ => (Task.ret 0 : Task Nat Nat SlotCall Nat Nat)) none []).mpr (by decide)

/-- Four parts of five cells are three shards. -/
theorem four_parts_of_five_cells : ¬ MakesShards (min (max 4 1) 5) [1, 2, 3, 4, 5]
    ⟨4, by decide⟩ none (fun _ _ => (Task.ret 0 : Task Nat Nat SlotCall Nat Nat)) none [] := by
  intro h
  have hthree : (partition_map 5 ⟨4, by decide⟩ none
      fun _ _ => (Task.ret 0 : Task Nat Nat SlotCall Nat Nat)).num_chunks = 3 := by decide
  exact absurd (hthree.symm.trans h.num_chunks) (by decide)

end documented

/-! ## The least chunk that will do -/

/-- `partition_count` with every step checked. -/
def partition_count_checked (len chunk : Nat) : Option Nat :=
  if len = 0 then some 0
  else do
    let last ← checked_sub len 1
    let before ← checked_div last chunk
    checked_add 1 before

def chunk_for_parts_checked (len parts : Nat) : Option Nat :=
  (partition_count_checked len parts).map fun chunk => max chunk 1

/-- What one call of `drive` reserves room for: results and flags for the executor, or
thread handles and results. -/
def drive_reserves (num_chunks : Nat) (slot : Option Executor) : List Nat :=
  slot.elim (if num_chunks = 1 then [1] else [wsub num_chunks 1, num_chunks])
    fun _ => [num_chunks, num_chunks]

def Call.reserves (slot : Option Executor) : Call σ κ α ρ π → List Nat
  | .done _ => []
  | .drive num_chunks _ _ => drive_reserves num_chunks slot

/-- The call makes at most `k` shards, and whichever driver it picks reserves nothing for
more. -/
structure MakesAtMost (k : Nat) (call : Call σ κ α ρ π) : Prop where
  num_chunks : call.num_chunks ≤ k
  reserves : ∀ slot, ∀ room ∈ call.reserves slot, room ≤ k

theorem partition_count_checked_eq {len chunk : Nat} (hl : len ≤ usizeMax) (hc : 0 < chunk) :
    partition_count_checked len chunk = some (partition_count len chunk) := by
  have hle : partition_count len chunk ≤ len := partition_count_le
  unfold partition_count partition_count_checked checked_sub checked_div checked_add at *
  split
  · rfl
  · rename_i hlen
    rw [if_neg hlen] at hle
    rw [if_pos (by omega), Option.bind_eq_bind, Option.bind_some, if_neg (by omega),
      Option.bind_some, if_pos (by omega)]

theorem chunk_for_parts_checked_eq {len parts : Nat} (hl : len ≤ usizeMax) (hp : 0 < parts) :
    chunk_for_parts_checked len parts = some (chunk_for_parts len parts) := by
  unfold chunk_for_parts_checked
  rw [partition_count_checked_eq hl hp]
  rfl

section reserve

variable [Memory μ κ α] {n : Nat} {run : Nat → Task κ α SlotCall ρ π} {unwinds : Prop}
  {slot : Option Executor} {others : List SlotCall} {mem : μ} {d : Drive μ κ α ρ π}

/-- How full each reservation is while the call goes on: results and flags, or thread
handles and results. -/
def stored (n : Nat) : Path ρ π → List Nat
  | .registered st =>
    if st.exit.isNone then [st.out.slots.length, st.successful.length] else []
  | .threads (.spawning next) => [next, 0]
  | .threads .inline => [n - 1, 0]
  | .threads (.joining _ results _) => [n - 1, results.length]
  | .threads (.returning results) => [n - 1, results.length]
  | _ => []

/-- Threads are for two tasks or more. -/
theorem two_le_of_threads (hn : 0 < n)
    (h : Reaches (Step n run unwinds) (Drive.init slot others mem) d) {s : Scope ρ π}
    (hp : d.path = .threads s) : 2 ≤ n := by
  have hinv : (∃ s, d.path = .threads s) → 2 ≤ n := by
    refine inv_of_reaches (I := fun d => (∃ s, d.path = .threads s) → 2 ≤ n) h
      (fun ⟨s, hs⟩ => by cases hs) fun a b ha hab => ?_
    cases hab with
    | load hl =>
      rintro ⟨s, hs⟩
      simp only [driver] at hs
      split at hs
      · cases hs
      · split at hs
        · cases hs
        · omega
    | other | act | start | single_start | thread_starts => exact ha
    | wrapper | poison | execute_returns | execute_unwinds | single_ends =>
      rintro ⟨s, hs⟩
      cases hs
    | spawn hl | inline_starts hl | inline_ends hl | join hl | joined hl | scope_returns hl
    | scope_unwinds hl => exact fun _ => ha ⟨_, hl⟩
  exact hinv ⟨s, hp⟩

/-- In every run the call stores no more than it reserved room for. -/
theorem drive_keeps_to_its_reserve (hn : 0 < n) (hmax : n ≤ usizeMax)
    (h : Reaches (Step n run unwinds) (Drive.init slot others mem) d) :
    ∃ loaded, List.Forall₂ (· ≤ ·) (stored n d.path)
      ((drive_reserves n loaded).take (stored n d.path).length) := by
  have hinv : Inv n unwinds d := inv_of_reaches_init hn h
  have hsub : wsub n 1 = n - 1 := wsub_eq hn hmax
  cases hp : d.path with
  | loading => exact ⟨none, .nil⟩
  | single exit => exact ⟨none, .nil⟩
  | registered st =>
    refine ⟨some ⟨0⟩, ?_⟩
    have hstored : stored n (.registered st) =
        if st.exit.isNone then [st.out.slots.length, st.successful.length] else [] := rfl
    rw [hstored]
    cases hx : st.exit with
    | some exit => exact .nil
    | none =>
      have hex := hinv.registered hp hx
      exact .cons hex.slots.slots_length.le (.cons hex.slots.flags_length.le .nil)
  | threads s =>
    have htwo := two_le_of_threads hn h hp
    have hscope := hinv.scoped hp
    have hreserves : drive_reserves n none = [n - 1, n] := by
      unfold drive_reserves
      rw [Option.elim_none, if_neg (by omega), hsub]
    refine ⟨none, ?_⟩
    rw [hreserves]
    cases s with
    | spawning next => exact .cons hscope.1 (.cons (Nat.zero_le n) .nil)
    | inline => exact .cons (Nat.le_refl _) (.cons (Nat.zero_le n) .nil)
    | joining next results last =>
      refine .cons (Nat.le_refl _) (.cons ?_ .nil)
      rw [hscope.2.2.1]
      exact Nat.le_trans hscope.1 (Nat.sub_le n 1)
    | returning results => exact .cons (Nat.le_refl _) (.cons hscope.1.le .nil)
    | unwinding payload => exact .nil
    | left exit => exact .nil

end reserve

theorem drive_reserves_le {n k : Nat} (hpos : 0 < n) (hn : n ≤ k) (hk : k ≤ usizeMax)
    (slot : Option Executor) : ∀ room ∈ drive_reserves n slot, room ≤ k := by
  have hsub : wsub n 1 = n - 1 := wsub_eq hpos (Nat.le_trans hn hk)
  intro room hroom
  unfold drive_reserves at hroom
  cases slot with
  | none =>
    rw [Option.elim_none, hsub] at hroom
    split at hroom
    · rw [List.mem_singleton] at hroom
      omega
    · simp only [List.mem_cons, List.not_mem_nil, or_false] at hroom
      omega
  | some executor =>
    simp only [Option.elim_some, List.mem_cons, List.not_mem_nil, or_false, or_self] at hroom
    omega

theorem makesAtMost_drive {n k : Nat} (hn : n ≤ k) (hk : k ≤ usizeMax) (arg : Nat → Except π σ)
    (f : σ → Task κ α SlotCall ρ π) :
    MakesAtMost k (if n = 0 then .done [] else .drive n arg f : Call σ κ α ρ π) := by
  refine ⟨by rwa [num_chunks_drive], fun slot => ?_⟩
  split
  · intro room hroom
    cases hroom
  · exact drive_reserves_le (by omega) hn hk slot

/-- The chunk size of a part count is the least one that gives no more shards than parts. -/
theorem chunk_for_parts_isLeast (len : Nat) {p : Nat} (hp : 0 < p) :
    IsLeast { d | 1 ≤ d ∧ partition_count len d ≤ p } (max (partition_count len p) 1) := by
  rw [partition_count_eq hp]
  constructor
  · refine ⟨Nat.le_max_right _ _, ?_⟩
    rw [partition_count_eq (by omega), count_le_comm (by omega) hp]
    exact Nat.le_max_left _ _
  · rintro d ⟨hd, hle⟩
    rw [partition_count_eq hd, count_le_comm hd hp] at hle
    omega

section optimal

variable {n : Nat} {parts : Usize} {reported : Option NonZeroUsize} {slice : List T}
  {slice_fail : π} {f : Nat → Nat → Task Nat T SlotCall ρ π}
  {g : Nat → List T → Task κ α SlotCall ρ π}

theorem count_parts_le (n : Nat) (parts : Usize) (reported : Option NonZeroUsize) {c : Nat}
    (hc : (PartitionPlan.parts parts).resolve reported n = c) :
    0 < c ∧ count n c ≤ min (max parts.val 1) n := by
  rw [resolve_parts] at hc
  obtain ⟨⟨hpos, hle⟩, -⟩ := chunk_for_parts_isLeast n (p := max parts.val 1) (by omega)
  rw [hc] at hpos hle
  have hlen : partition_count n c ≤ n := partition_count_le
  rw [partition_count_eq hpos] at hle hlen
  exact ⟨hpos, by omega⟩

theorem write_makesAtMost (hn : n ≤ usizeMax) : MakesAtMost (min (max parts.val 1) n)
    (partition_map_with n (PartitionPlan.parts parts) reported f) := by
  obtain ⟨-, hle⟩ := count_parts_le n parts reported rfl
  rw [partition_map_with_eq hn rfl]
  exact makesAtMost_drive hle (by omega) _ _

theorem read_makesAtMost (hn : slice.length ≤ usizeMax) :
    MakesAtMost (min (max parts.val 1) slice.length)
      (partition_read_map_with slice (PartitionPlan.parts parts) reported slice_fail g) := by
  obtain ⟨hpos, hle⟩ := count_parts_le slice.length parts reported rfl
  rw [partition_read_map_with_eq rfl hpos]
  exact makesAtMost_drive hle (by omega) _ _

/-- With no more items than parts a chunk is one item. -/
theorem resolve_parts_one (h : n ≤ parts.val) :
    (PartitionPlan.parts parts).resolve reported n = 1 := by
  have hp : 0 < max parts.val 1 := by omega
  have hone : count n (max parts.val 1) ≤ 1 := (count_le_iff hp).mpr (by omega)
  rw [resolve_parts, partition_count_eq hp]
  omega

theorem write_one_cell_shards (hn : n ≤ usizeMax) (h : n ≤ parts.val) :
    (partition_map_with n (PartitionPlan.parts parts) reported f).num_chunks = n ∧
    ∀ index < n, (partition_map_with n (PartitionPlan.parts parts) reported f).task_arg index =
      some (.ok (index, ⟨⟨index, 1⟩⟩)) := by
  rw [partition_map_with_eq hn (resolve_parts_one h), num_chunks_drive, count_one]
  refine ⟨rfl, fun index hi => ?_⟩
  have hfits : index * 1 + 1 ≤ usizeMax := by omega
  have hshard := ParChunks.get_unchecked_chunk_spanAt hn hfits Nat.one_pos (by rwa [count_one])
  have hspan : spanAt n 1 index = ⟨index, 1⟩ := by
    simp only [spanAt, Nat.mul_one, Span.mk.injEq, true_and]
    omega
  rw [task_arg_drive hi, hshard, hspan, wmul_eq (by omega), Nat.mul_one]

theorem read_one_item_shards (hn : slice.length ≤ usizeMax) (h : slice.length ≤ parts.val) :
    (partition_read_map_with slice (PartitionPlan.parts parts) reported slice_fail
      g).num_chunks = slice.length ∧
    ∀ index (hi : index < slice.length), (partition_read_map_with slice
      (PartitionPlan.parts parts) reported slice_fail g).task_arg index =
        some (.ok (index, [slice[index]])) := by
  rw [partition_read_map_with_eq (resolve_parts_one h) Nat.one_pos, num_chunks_drive, count_one]
  refine ⟨rfl, fun index hi => ?_⟩
  have hone : (slice.drop (index * 1)).take 1 = [slice[index]] := by
    rw [Nat.mul_one, List.drop_eq_getElem_cons hi]
    rfl
  rw [task_arg_drive hi, read_arg_eq Nat.one_pos (by omega) (by rwa [count_one]), hone,
    Nat.mul_one]

end optimal

/-- For every length and every part count: the plan's chunk size is the least that gives no
more shards than parts, so the drivers make and reserve no more, with one cell to a shard
where the parts are enough, and no step on the way to the count divides by zero or
overflows. The count grows with the length and falls with the chunk size. -/
theorem the_parts_plan_is_optimal (len p : Usize) (reported : Option NonZeroUsize)
    (slice_fail : π) (f : Nat → Nat → Task Nat T SlotCall ρ π)
    (g : Nat → List T → Task κ α SlotCall ρ π) :
    let plan := PartitionPlan.parts p
    let c := plan.chunk_len_for reported len.val
    let bound := max p.val 1
    (IsLeast { d | 1 ≤ d ∧ partition_count len.val d ≤ bound } c ∧
      ∀ d, 1 ≤ d → d < c → bound < partition_count len.val d) ∧
    (MakesAtMost (min bound len.val) (partition_map_with len.val plan reported f) ∧
      ∀ slice : List T, slice.length = len.val →
        MakesAtMost (min bound len.val)
          (partition_read_map_with slice plan reported slice_fail g)) ∧
    (0 < len.val → len.val ≤ p.val → c = 1 ∧
      (partition_map_with len.val plan reported f).num_chunks = len.val ∧
      (∀ index < len.val, (partition_map_with len.val plan reported f).task_arg index =
        some (.ok (index, ⟨⟨index, 1⟩⟩))) ∧
      ∀ slice : List T, slice.length = len.val →
        (partition_read_map_with slice plan reported slice_fail g).num_chunks = len.val ∧
        ∀ index (hi : index < slice.length),
          (partition_read_map_with slice plan reported slice_fail g).task_arg index =
            some (.ok (index, [slice[index]]))) ∧
    (chunk_for_parts_checked len.val (nonzero_or_one p).get = some c ∧
      partition_count_checked len.val c = some (partition_count len.val c)) ∧
    (∀ len' chunk, 0 < chunk → len.val ≤ len' →
      partition_count len.val chunk ≤ partition_count len' chunk) ∧
    ∀ chunk chunk', 0 < chunk → chunk ≤ chunk' →
      partition_count len.val chunk' ≤ partition_count len.val chunk := by
  intro plan c bound
  have hc : c = max (partition_count len.val bound) 1 := resolve_parts p reported len.val
  have hleast := chunk_for_parts_isLeast len.val (p := bound) (by omega)
  rw [← hc] at hleast
  have hpos : 0 < c := hleast.1.1
  refine ⟨⟨hleast, fun d hd hlt => ?_⟩, ⟨write_makesAtMost len.property, fun slice hs => ?_⟩,
    fun _ hle => ⟨resolve_parts_one hle, ?_, ?_, fun slice hs => ?_⟩, ⟨?_, ?_⟩,
    fun len' chunk hchunk hle => ?_, fun chunk chunk' hchunk hle => ?_⟩
  · by_contra hge
    exact Nat.not_le_of_lt hlt (hleast.2 ⟨hd, Nat.le_of_not_lt hge⟩)
  · rw [← hs]
    exact read_makesAtMost (hs ▸ len.property)
  · exact (write_one_cell_shards len.property hle).1
  · exact (write_one_cell_shards len.property hle).2
  · rw [← hs] at hle ⊢
    exact read_one_item_shards (hs ▸ len.property) hle
  · exact chunk_for_parts_checked_eq len.property (nonzero_or_one p).pos
  · exact partition_count_checked_eq len.property hpos
  · rw [partition_count_eq hchunk, partition_count_eq hchunk]
    exact count_mono chunk hle
  · rw [partition_count_eq hchunk, partition_count_eq (Nat.lt_of_lt_of_le hchunk hle)]
    exact count_anti hchunk hle

end melinoe.sync
