-- The read driver, and that it agrees with the write driver: they derive their
-- ranges apart, and hand out the same shards.
import Melinoe.PartitionMap

open tasks tiles runs

namespace melinoe.sync

open driver_core region

variable {μ κ α T ρ π : Type} [Memory μ κ α] {slice : List T} {plan : PartitionPlan}
  {reported : Option NonZeroUsize} {slice_fail : π} {slot : Option Executor}
  {others : List SlotCall} {mem : μ}

/-! ## The slices that the read driver hands out -/

/-- `(index * chunk_size, &slice[start..end])`. -/
def read_arg (slice : List T) (slice_fail : π) (chunk_size index : Nat) :
    Except π (Nat × List T) :=
  let start := wmul index chunk_size
  let stop := min (wadd start chunk_size) slice.length
  if start ≤ stop ∧ stop ≤ slice.length then
    .ok (start, (Span.mk start (stop - start)).cut slice)
  else .error slice_fail

theorem partition_read_map_with_eq {f : Nat → List T → Task κ α SlotCall ρ π} {c : Nat}
    (hc : plan.resolve reported slice.length = c) (hpos : 0 < c) :
    partition_read_map_with slice plan reported slice_fail f =
      if count slice.length c = 0 then .done []
      else .drive (count slice.length c) (read_arg slice slice_fail c)
        fun (start, shard) => f start shard := by
  unfold partition_read_map_with
  simp only [hc, Nat.max_eq_left hpos, partition_count_eq hpos]
  rfl

/-- No slice is out of bounds: each is the chunk of its index. -/
theorem read_arg_eq {c i : Nat} (hpos : 0 < c) (hfits : i * c + c ≤ usizeMax)
    (hi : i < count slice.length c) :
    read_arg slice slice_fail c i = .ok (i * c, (slice.drop (i * c)).take c) := by
  have hlt := (lt_count hpos).mp hi
  unfold read_arg
  simp only [wmul_eq (Nat.le_trans (Nat.le_add_right _ _) hfits), wadd_eq hfits]
  rw [if_pos (by omega), ← spanAt_cut c i slice]
  rfl

/-- A closure that is a pure function of its arguments. -/
def pure_closure (g : Nat → List T → ρ) (start : Nat) (shard : List T) : Task κ α SlotCall ρ π :=
  .ret (g start shard)

/-- Every exit of the read driver, for an `f` that is pure on the shards. -/
theorem partition_read_map_with_exits {f : Nat → List T → Task κ α SlotCall ρ π}
    {g : Nat → List T → ρ} {c : Nat} (hc : plan.resolve reported slice.length = c) (hpos : 0 < c)
    (hfits : ∀ i < count slice.length c, i * c + c ≤ usizeMax)
    (hf : ∀ s ∈ chunks c slice, f s.1 s.2 = pure_closure g s.1 s.2) {exit : Exit ρ π}
    {pool : Pool μ κ α SlotCall ρ π}
    (h : (partition_read_map_with slice plan reported slice_fail f).Exits slot others mem exit
      pool) :
    exit = .returned ((chunks c slice).map fun s => g s.1 s.2) ∧
    (((partition_read_map_with slice plan reported slice_fail f).called pool).map (·.1)).Perm
      (chunks c slice) := by
  rw [partition_read_map_with_eq hc hpos] at h ⊢
  -- the tasks touch no memory, so their windows are empty
  have hw : Windows (count slice.length c) (fun _ _ => none) mem fun _ => ([] : List α) :=
    ⟨by simp, by simp [InWindow], fun i _ a => by simp [get_list]⟩
  have hmem : ∀ i < count slice.length c, (i * c, (slice.drop (i * c)).take c) ∈ chunks c slice :=
    fun i hi => List.mem_map.mpr ⟨i, List.mem_range.mpr hi, rfl⟩
  have hrun : ∀ i < count slice.length c, f (i * c) ((slice.drop (i * c)).take c) =
      (pure_closure g (i * c) ((slice.drop (i * c)).take c) : Task Nat α SlotCall ρ π).relocate
        fun _ => none := fun i hi => hf _ (hmem i hi)
  obtain ⟨hdriven, hcalled⟩ := driven_of_exits hw
    (fun i hi => read_arg_eq hpos (hfits i hi) hi) hrun h
  refine ⟨?_, ?_⟩
  · rcases hdriven.exit with ⟨results, rfl, hres⟩ | ⟨payload, -, i, -, hp⟩
    · have hok : (List.range (count slice.length c)).map (fun i =>
          ((pure_closure g (i * c) ((slice.drop (i * c)).take c) :
            Task Nat α SlotCall ρ π).exec []).1) =
          ((chunks c slice).map fun s => g s.1 s.2).map .ok := by
        rw [chunks, List.map_map, List.map_map]
        rfl
      rw [hok] at hres
      rw [List.map_injective_iff.mpr (fun _ _ => Except.ok.inj) hres]
    · cases hp
  · rw [hcalled, List.map_map]
    have := hdriven.calls.map fun i => (i * c, (slice.drop (i * c)).take c)
    rwa [List.map_map] at this

theorem partition_read_map_with_terminates {f : Nat → List T → Task κ α SlotCall ρ π}
    (hlen : slice.length ≤ usizeMax) :
    (partition_read_map_with slice plan reported slice_fail f).Terminates slot others mem := by
  rw [partition_read_map_with_eq rfl (resolve_bounds plan reported hlen rfl).1]
  exact terminates_drive ..

/-! ## The two drivers -/

/-- A closure that only reads its shard: `g` of the contents. -/
theorem reading_exec (g : Nat → List T → ρ) (start : Nat) (l : List T) :
    (Task.reading (g start) l.length : Task Nat T SlotCall ρ π).exec l = (.ok (g start l), l) :=
  Task.exec_reading (g start) l

/-- Over a slice and over a region with the same values the drivers hand `g` the
same shards and return the same list, and the region stays as it was. -/
theorem read_and_write_drivers_agree (cells : List T) (hlen : cells.length ≤ isizeMax)
    (plan : PartitionPlan) (reported : Option NonZeroUsize) (slice_fail : π)
    (g : Nat → List T → ρ) (f : Nat → Nat → Task Nat T SlotCall ρ π)
    (hf : ∀ s ∈ chunks (plan.resolve reported cells.length) cells,
      (f s.1 s.2.length).exec s.2 = (.ok (g s.1 s.2), s.2))
    (slot slot' : Option Executor) (others others' : List SlotCall) (mem : μ) :
    let write := partition_map_with cells.length plan reported f
    let read : Call (Nat × List T) κ α ρ π :=
      partition_read_map_with cells plan reported slice_fail (pure_closure g)
    let shards := chunks (plan.resolve reported cells.length) cells
    (write.Terminates slot others cells ∧ read.Terminates slot' others' mem) ∧
    (∀ s ∈ shards, s.2 ≠ []) ∧
    (∀ exit pool, write.Exits slot others cells exit pool →
      exit = .returned (shards.map fun s => g s.1 s.2) ∧
      (contents (write.called pool)).Perm shards ∧
      (∀ call ∈ write.called pool,
        0 < call.1.2.len ∧ call.1.2.cells.stop ≤ cells.length) ∧
      pool.mem = cells) ∧
    ∀ exit pool, read.Exits slot' others' mem exit pool →
      exit = .returned (shards.map fun s => g s.1 s.2) ∧
      ((read.called pool).map (·.1)).Perm shards := by
  have hmax : cells.length ≤ usizeMax := Nat.le_trans hlen isizeMax_le
  obtain ⟨hpos, hle⟩ := resolve_bounds plan reported hmax rfl
  refine ⟨⟨partition_map_with_terminates hmax, partition_read_map_with_terminates hmax⟩,
    fun s hs => (chunks_mem hpos hs).1, fun exit pool hexit => ?_, fun exit pool hexit => ?_⟩
  · obtain ⟨hmapped, hin, hmem, hcut⟩ := partition_map_with_exits hlen hexit
    refine ⟨hmapped.returned (g := fun start l => (g start l, l)) hf, hmapped.called, hin, ?_⟩
    rw [mem_of_shards hpos hmem (fun _ l => l) fun s hs => by rw [hcut s hs, hf s hs]]
    exact chunks_flatten hpos cells
  · exact partition_read_map_with_exits rfl hpos
      (fun i hi => chunk_end_fits ((lt_count hpos).mp hi) hlen hle) (fun _ _ => rfl) hexit

theorem drivers_agree_on_six_cells :
    (∀ exit pool, (partition_map_with 6 (.parts ⟨4, by decide⟩) none
      (fun start => Task.reading fun l => start + l.sum) : Call _ _ _ Nat Nat).Exits none []
      [1, 2, 3, 4, 5, 6] exit pool → exit = .returned [3, 9, 15] ∧ pool.mem = [1, 2, 3, 4, 5, 6]) ∧
    ∀ exit pool, (partition_read_map_with [1, 2, 3, 4, 5, 6] (.parts ⟨4, by decide⟩) none 0
      (pure_closure fun start l => start + l.sum) : Call _ Nat Nat Nat Nat).Exits (some ⟨0⟩) []
      ([] : List Nat) exit pool → exit = .returned [3, 9, 15] := by
  obtain ⟨-, -, hwrite, hread⟩ := read_and_write_drivers_agree [1, 2, 3, 4, 5, 6] (by decide)
    (.parts ⟨4, by decide⟩) none 0 (fun start l => start + l.sum)
    (fun start => Task.reading fun l => start + l.sum)
    (fun s _ => reading_exec (fun start l => start + l.sum) s.1 s.2)
    none (some ⟨0⟩) [] [] ([] : List Nat)
  refine ⟨fun exit pool hexit => ?_, fun exit pool hexit => (hread exit pool hexit).1⟩
  obtain ⟨hret, -, -, hmem⟩ := hwrite exit pool hexit
  exact ⟨hret, hmem⟩

end melinoe.sync
