-- An executor that breaks the third clause of its contract: it returns with indices
-- that it skipped. What `drive` does then, in every run: a panic of another task
-- hides the skip. Without one the buffer is read where nothing was written, or, where
-- a result takes no bytes, there is nothing to read and `drive` returns.
import Melinoe.DriverProcess

open tasks runs

namespace melinoe.driver_core

variable {μ κ α ε ρ π : Type}

/-! ## Reading a buffer with a gap -/

theorem mapM_id_of_none {l : List (Option ρ)} (h : none ∈ l) : l.mapM id = none := by
  induction l with
  | nil => cases h
  | cons o l ih =>
    rcases List.mem_cons.mp h with rfl | hl
    · simp [List.mapM_cons]
    · cases o with
      | none => simp [List.mapM_cons]
      | some val => simp [List.mapM_cons, ih hl]

/-- `Vec::from_raw_parts(out_ptr.cast::<R>(), num_chunks, capacity)`. Where `R` is
zero-sized and `unit` is its value, an element has no bytes, so that none has to be written. -/
def OutBuffer.into_vec_at (zero_sized : Option ρ) (self : OutBuffer ρ) (num_chunks : Nat) :
    Except Fault (List ρ × OutBuffer ρ) :=
  match zero_sized with
  | none => self.into_vec num_chunks
  | some unit =>
    if self.released ≠ [] then .error .dangling
    else if self.slots.length < num_chunks then .error .out_of_bounds
    else .ok (List.replicate num_chunks unit, { self with released := [.handed] })

/-- The rest of `drive`, after the executor has returned, whatever the size of `R`. -/
def Registered.after_execute_at (zero_sized : Option ρ) (self : Registered ρ π)
    (num_chunks : Nat) : Except Fault (OutBuffer ρ × Exit ρ π) :=
  let guard := { self.guard with active := false }
  match take_panic_payload self.panic_payload with
  | some payload => do
    let out ← drop_successful self.out self.successful self.successful.length
    let out ← out.free
    let out ← guard.drop out self.successful
    .ok (out, .resumed payload)
  | none => do
    let (results, out) ← self.out.into_vec_at zero_sized num_chunks
    let out ← guard.drop out self.successful
    .ok (out, .returned results)

/-- The value of a zero-sized type, which has no other. -/
def OneValue (zero_sized : Option ρ) : Prop := ∀ unit ∈ zero_sized, ∀ val, val = unit

section skipping

variable {n : Nat} {status : Nat → Status κ α ε ρ π} {st : Registered ρ π} {zero_sized : Option ρ}

/-- A skipped index that no payload hides is read uninitialized. -/
theorem Executing.into_vec_skipped (h : Executing n status st) {i : Nat} (hi : i < n)
    (hidle : status i = .idle) : st.out.into_vec n = .error .uninitialized := by
  have hslot : st.out.slots[i]? = some none := by
    have := ((h.slots.slot i hi).settled (.inl hidle)).1
    rw [hidle] at this
    exact this
  have hnone : none ∈ st.out.slots.take n := by
    rw [List.take_of_length_le (by rw [h.slots.slots_length])]
    exact List.mem_of_getElem? hslot
  unfold OutBuffer.into_vec
  rw [if_neg (by simp [h.unreleased]), if_neg (by simp [h.slots.slots_length]),
    mapM_id_of_none hnone]

/-- Once every wrapper that was called is done, the mutex holds a payload exactly
when a task has panicked. -/
theorem Executing.payload_iff (h : Executing n status st)
    (hall : ∀ i < n, status i = .idle ∨ st.wrapper i = .done) :
    st.panic_payload.value.isSome = true ↔ ∃ i < n, ∃ q, status i = .ended (.error q) := by
  constructor
  · intro hsome
    obtain ⟨q, hq⟩ := Option.isSome_iff_exists.mp hsome
    obtain ⟨i, hhead, hs⟩ := h.payloads.first q hq
    exact ⟨i, ((h.payloads.order i).mp (List.mem_of_mem_head? hhead)).1, q, hs⟩
  · rintro ⟨i, hi, q, hs⟩
    rw [Option.isSome_iff_ne_none]
    intro hnone
    have hdone : st.wrapper i = .done := (hall i hi).resolve_left (by simp [hs])
    have hmem : i ∈ st.lock_order := by
      simp [h.payloads.order, hi, hs, hdone, payload_of]
    have hlocked := h.payloads.unset hnone i hmem
    rw [hdone] at hlocked
    cases hlocked

/-- The results as far as the tasks produced them: each value in its place. -/
def Collected (n : Nat) (status : Nat → Status κ α ε ρ π) (results : List ρ) : Prop :=
  results.length = n ∧
  ∀ index < n, ∀ val, status index = .ended (.ok val) → results[index]? = some val

theorem Results.collected {results : List ρ} (h : Results n status results) :
    Collected n status results := by
  refine ⟨h.1, fun i hi val hs => ?_⟩
  obtain ⟨val', hval, hr⟩ := h.2 i hi
  rw [hs] at hval
  cases hval
  exact hr

/-- Copies of the one value of a zero-sized type are what the tasks produced. -/
theorem collected_replicate {unit : ρ} (hunit : OneValue (some unit)) :
    Collected n status (List.replicate n unit) := by
  refine ⟨List.length_replicate, fun i hi val _ => ?_⟩
  rw [List.getElem?_replicate, if_pos hi, hunit unit rfl val]

/-- What a return of the executor leads to, whether it skipped or not. -/
def Returned (zero_sized : Option ρ) (n : Nat) (status : Nat → Status κ α ε ρ π)
    (st : Registered ρ π) : Exit ρ π → Prop
  | .returned results =>
    (zero_sized = none → ∀ i < n, ∃ val, status i = .ended (.ok val)) ∧
    (∀ i < n, ∀ q, status i ≠ .ended (.error q)) ∧
    Collected n status results ∧ st.out.dropped = [] ∧ st.out.released = [.handed]
  | .resumed payload =>
    (∃ i < n, status i = .ended (.error payload)) ∧
    st.out.dropped = produced n status ∧ st.out.released = [.freed]
  | .unwound => True
  | .fault f =>
    zero_sized = none ∧ f = .uninitialized ∧ (∃ i < n, status i = .idle) ∧
      ∀ i < n, ∀ q, status i ≠ .ended (.error q)

/-- The read of the buffer, when no payload hides what was skipped. -/
theorem Executing.into_vec_at (h : Executing n status st) (hunit : OneValue zero_sized)
    (hall : ∀ i < n, status i = .idle ∨ st.wrapper i = .done)
    (hv : st.panic_payload.value = none) :
    (zero_sized = none ∧ (∃ i < n, status i = .idle) ∧
      st.out.into_vec_at zero_sized n = .error .uninitialized) ∨
    ∃ results, (zero_sized = none → ∀ i < n, ∃ val, status i = .ended (.ok val)) ∧
      Collected n status results ∧
      st.out.into_vec_at zero_sized n = .ok (results, { st.out with released := [.handed] }) := by
  cases zero_sized with
  | some unit =>
    refine .inr ⟨List.replicate n unit, nofun, collected_replicate hunit, ?_⟩
    simp [OutBuffer.into_vec_at, h.unreleased, h.slots.slots_length]
  | none =>
    by_cases hskip : ∃ i < n, status i = .idle
    · obtain ⟨i, hi, hidle⟩ := hskip
      exact .inl ⟨rfl, ⟨i, hi, hidle⟩, h.into_vec_skipped hi hidle⟩
    · have hdone : ∀ i < n, st.wrapper i = .done := fun i hi =>
        (hall i hi).resolve_left fun hidle => hskip ⟨i, hi, hidle⟩
      obtain ⟨results, hres, hvec⟩ := h.into_vec hdone hv
      refine .inr ⟨results, fun _ i hi => ?_, hres.collected, hvec⟩
      obtain ⟨val, hval, -⟩ := hres.2 i hi
      exact ⟨val, hval⟩

theorem Executing.returns (h : Executing n status st) (hunit : OneValue zero_sized)
    (hall : ∀ i < n, status i = .idle ∨ st.wrapper i = .done) : ∃ exit,
    (st.leave (st.after_execute_at zero_sized n)).exit = some exit ∧
      Returned zero_sized n status (st.leave (st.after_execute_at zero_sized n)) exit := by
  have hpayload := h.payload_iff hall
  cases hv : st.panic_payload.value with
  | some payload =>
    obtain ⟨slots, heq⟩ := h.teardown hall
    have hrun : st.after_execute_at zero_sized n =
        .ok (⟨slots, produced n status, [.freed]⟩, .resumed payload) := by
      simp [Registered.after_execute_at, hv, h.slots.flags_length, heq, OutBuffer.free,
        ExecutorDropGuard.drop, bind, Except.bind]
    obtain ⟨i, hhead, hs⟩ := h.payloads.first payload hv
    have hi := ((h.payloads.order i).mp (List.mem_of_mem_head? hhead)).1
    rw [hrun]
    exact ⟨_, rfl, ⟨i, hi, hs⟩, rfl, rfl⟩
  | none =>
    have hquiet : ∀ i < n, ∀ q, status i ≠ .ended (.error q) := by
      intro i hi q hs
      have hsome := hpayload.mpr ⟨i, hi, q, hs⟩
      rw [hv] at hsome
      cases hsome
    rcases h.into_vec_at hunit hall hv with ⟨hsized, hskip, hvec⟩ | ⟨results, hran, hres, hvec⟩
    · have hrun : st.after_execute_at zero_sized n = .error .uninitialized := by
        simp [Registered.after_execute_at, hv, hvec, bind, Except.bind]
      rw [hrun]
      exact ⟨_, rfl, hsized, rfl, hskip, hquiet⟩
    · have hrun : st.after_execute_at zero_sized n =
          .ok ({ st.out with released := [.handed] }, .returned results) := by
        simp [Registered.after_execute_at, hv, hvec, ExecutorDropGuard.drop, bind, Except.bind]
      rw [hrun]
      exact ⟨_, rfl, hran, hquiet, hres, h.undropped, rfl⟩

/-- An executor that skipped nothing sees no difference between result types. -/
theorem Executing.after_execute_at_eq (h : Executing n status st) (hunit : OneValue zero_sized)
    (hall : ∀ i < n, st.wrapper i = .done) :
    st.after_execute_at zero_sized n = st.after_execute n := by
  cases zero_sized with
  | none => rfl
  | some unit =>
    cases hv : st.panic_payload.value with
    | some payload => simp [Registered.after_execute_at, Registered.after_execute, hv]
    | none =>
      obtain ⟨results, hres, hvec⟩ := h.into_vec hall hv
      have hunits : results = List.replicate n unit :=
        List.eq_replicate_iff.mpr ⟨hres.1, fun val _ => hunit unit rfl val⟩
      have hat : st.out.into_vec_at (some unit) n = st.out.into_vec n := by
        rw [hvec, hunits]
        simp [OutBuffer.into_vec_at, h.unreleased, h.slots.slots_length]
      simp [Registered.after_execute_at, Registered.after_execute, hv, hat]

end skipping

/-! ## Runs with an executor that may skip -/

variable [Memory μ κ α] {n : Nat} {run : Nat → Task κ α SlotCall ρ π} {unwinds : Prop}
  {zero_sized : Option ρ} {d d' : Drive μ κ α ρ π}

/-- The steps of `drive`, and the return of an executor that has skipped indices. The
tasks that it did start have finished. -/
inductive SkippingStep (n : Nat) (run : Nat → Task κ α SlotCall ρ π) (unwinds : Prop)
    (zero_sized : Option ρ) : Drive μ κ α ρ π → Drive μ κ α ρ π → Prop
  | keeps {d d' : Drive μ κ α ρ π} (h : Step n run unwinds d d') :
      SkippingStep n run unwinds zero_sized d d'
  | skips {d : Drive μ κ α ρ π} {st : Registered ρ π} (h : d.path = .registered st)
      (hx : st.exit = none)
      (hall : ∀ index < n, d.pool.status index = .idle ∨ st.wrapper index = .done) :
      SkippingStep n run unwinds zero_sized d
        { d with path := .registered (st.leave (st.after_execute_at zero_sized n)) }

omit [Memory μ κ α] in
/-- What a call that an executor has left by a return satisfies. -/
def Drive.Left (zero_sized : Option ρ) (n : Nat) (d : Drive μ κ α ρ π) : Prop :=
  ∃ st exit, d.path = .registered st ∧ st.exit = some exit ∧
    Returned zero_sized n d.pool.status st exit

omit [Memory μ κ α] in
theorem Accounted.returned {status : Nat → Status κ α ε ρ π} {st : Registered ρ π}
    {exit : Exit ρ π} (h : Accounted n unwinds status st exit) :
    Returned zero_sized n status st exit := by
  cases exit with
  | returned results =>
    obtain ⟨hres, hdrop, hrel⟩ := h
    refine ⟨fun _ i hi => ?_, fun i hi => hres.no_panic hi, hres.collected, hdrop, hrel⟩
    obtain ⟨val, hval, -⟩ := hres.2 i hi
    exact ⟨val, hval⟩
  | resumed payload =>
    obtain ⟨-, horder, ⟨i, hhead, hs⟩, hdrop, hrel⟩ := h
    exact ⟨⟨i, ((horder i).mp (List.mem_of_mem_head? hhead)).1, hs⟩, hdrop, hrel⟩
  | unwound => trivial
  | fault f => exact h.elim

/-- As long as the executor has not returned, nothing tells that it will skip. -/
theorem skipping_step (hn : 0 < n) (hunit : OneValue zero_sized)
    (h : Inv n unwinds d ∨ d.Left zero_sized n)
    (hs : SkippingStep n run unwinds zero_sized d d') :
    Inv n unwinds d' ∨ d'.Left zero_sized n := by
  rcases h with hinv | ⟨st, exit, hp, hx, -⟩
  · cases hs with
    | keeps hstep => exact .inl (inv_step hn hinv hstep)
    | @skips st hp hx hall =>
      obtain ⟨exit, hexit, hret⟩ := (hinv.registered hp hx).returns hunit hall
      exact .inr ⟨_, exit, rfl, hexit, hret⟩
  · -- the call has been left, so nothing moves
    have hexit : d.exit = some exit := by simp [Drive.exit, hp, hx]
    cases hs with
    | keeps hstep =>
      have hnone := exit_of_step hstep
      rw [hexit] at hnone
      cases hnone
    | @skips st' hp' hx' hall =>
      rw [hp] at hp'
      cases hp'
      rw [hx] at hx'
      cases hx'

theorem returned_of_run (hn : 0 < n) (hunit : OneValue zero_sized) {slot : Option Executor}
    {others : List SlotCall} {mem : μ}
    (h : Reaches (SkippingStep n run unwinds zero_sized) (Drive.init slot others mem) d)
    {st : Registered ρ π} {exit : Exit ρ π} (hp : d.path = .registered st)
    (hx : st.exit = some exit) : Returned zero_sized n d.pool.status st exit := by
  have hinv : Inv n unwinds d ∨ d.Left zero_sized n :=
    inv_of_reaches (I := fun d => Inv n unwinds d ∨ d.Left zero_sized n) h
      (.inl (inv_init n unwinds slot others mem)) fun _ _ => skipping_step hn hunit
  rcases hinv with hinv | ⟨st', exit', hp', hx', hret⟩
  · exact (hinv.accounted hp hx).returned
  · rw [hp] at hp'
    cases hp'
    rw [hx] at hx'
    cases hx'
    exact hret

/-- An executor that returns with indices skipped, over every run and schedule. A panic
is raised again exactly when a task that did run panicked, with every value that was
produced dropped once. Without a panic the read of the buffer is undefined exactly when
an index was skipped and a result has bytes, and else `drive` returns `n` results, of
which each that a task produced is in its place. -/
theorem a_skip_is_undefined_unless_a_task_panicked (hn : 0 < n)
    (run : Nat → Task κ α SlotCall ρ π) (unwinds : Prop) (zero_sized : Option ρ)
    (hunit : ∀ unit ∈ zero_sized, ∀ val, val = unit) (slot : Option Executor)
    (others : List SlotCall) (mem : μ) {d : Drive μ κ α ρ π}
    (h : Reaches (SkippingStep n run unwinds zero_sized) (Drive.init slot others mem) d)
    {st : Registered ρ π} {exit : Exit ρ π} (hp : d.path = .registered st)
    (hx : st.exit = some exit) (hu : exit ≠ .unwound) :
    ((∃ results, exit = .returned results) ↔
      (∀ i < n, ∀ q, d.pool.status i ≠ .ended (.error q)) ∧
      (zero_sized = none → ∀ i < n, ∃ val, d.pool.status i = .ended (.ok val))) ∧
    ((∃ payload, exit = .resumed payload) ↔
      ∃ i < n, ∃ q, d.pool.status i = .ended (.error q)) ∧
    ((∃ f, exit = .fault f) ↔
      zero_sized = none ∧ (∃ i < n, d.pool.status i = .idle) ∧
      ∀ i < n, ∀ q, d.pool.status i ≠ .ended (.error q)) ∧
    (∀ results, exit = .returned results → Collected n d.pool.status results ∧
      st.out.dropped = [] ∧ st.out.released = [.handed]) ∧
    ∀ payload, exit = .resumed payload → st.out.released = [.freed] ∧
      (st.out.dropped.map (·.1)).Nodup ∧
      ∀ i val, (i, val) ∈ st.out.dropped ↔ i < n ∧ d.pool.status i = .ended (.ok val) := by
  have hret := returned_of_run hn hunit h hp hx
  cases exit with
  | returned results =>
    obtain ⟨hran, hquiet, hres, hdrop, hrel⟩ := hret
    refine ⟨⟨fun _ => ⟨hquiet, hran⟩, fun _ => ⟨_, rfl⟩⟩, ⟨nofun, ?_⟩, ⟨nofun, ?_⟩, ?_, nofun⟩
    · rintro ⟨i, hi, q, hq⟩
      exact absurd hq (hquiet i hi q)
    · rintro ⟨hsized, ⟨i, hi, hidle⟩, -⟩
      obtain ⟨val, hval⟩ := hran hsized i hi
      simp [hidle] at hval
    · intro r hr
      cases hr
      exact ⟨hres, hdrop, hrel⟩
  | resumed payload =>
    obtain ⟨⟨i, hi, hs⟩, hdrop, hrel⟩ := hret
    refine ⟨⟨nofun, fun hok => absurd hs (hok.1 i hi payload)⟩,
      ⟨fun _ => ⟨i, hi, payload, hs⟩, fun _ => ⟨_, rfl⟩⟩,
      ⟨nofun, fun hf => absurd hs (hf.2.2 i hi payload)⟩, nofun, fun _ _ => ⟨hrel, ?_, ?_⟩⟩
    · rw [hdrop]
      exact produced_nodup n d.pool.status
    · intro j val
      rw [hdrop]
      exact mem_produced
  | unwound => exact absurd rfl hu
  | fault f =>
    obtain ⟨hsized, -, ⟨i, hi, hidle⟩, hquiet⟩ := hret
    refine ⟨⟨nofun, fun hok => ?_⟩, ⟨nofun, ?_⟩,
      ⟨fun _ => ⟨hsized, ⟨i, hi, hidle⟩, hquiet⟩, fun _ => ⟨f, rfl⟩⟩, nofun, nofun⟩
    · obtain ⟨val, hval⟩ := hok.2 hsized i hi
      simp [hidle] at hval
    · rintro ⟨j, hj, q, hq⟩
      exact absurd hq (hquiet j hj q)

/-- Task 0 of two returns `val`, and the executor skips the other. -/
theorem skips_task_one (zero_sized : Option ρ) (val : ρ) : ∃ (d : Drive (List Nat) Nat Nat ρ Nat)
    (st : Registered ρ Nat), Reaches (SkippingStep 2 (fun _ => .ret val) False zero_sized)
      (Drive.init (some ⟨0⟩) [] [5]) d ∧
    d.path = .registered (st.leave (st.after_execute_at zero_sized 2)) ∧
    st.out = ⟨[some val, none], [], []⟩ ∧ st.panic_payload.value = none ∧
    st.guard = ⟨2, true⟩ ∧ d.pool.status 1 = .idle := by
  let loaded : Drive (List Nat) Nat Nat ρ Nat :=
    ⟨some ⟨0⟩, [], .init [5], .registered (.init 2)⟩
  let kept : Registered ρ Nat := (Registered.init 2).keep 0 val
  have hload : Step 2 (fun _ => .ret val) False (Drive.init (some ⟨0⟩) [] [5]) loaded := .load rfl
  have hreturned : Reaches (Step 2 (fun _ => .ret val) False) loaded
      (loaded.ran 0 (.ok val) kept) :=
    reaches_returned rfl rfl (by decide) rfl rfl rfl (by simp [Registered.init,
      OutBuffer.with_capacity]) rfl
  have hskip : SkippingStep 2 (fun _ => .ret val) False zero_sized (loaded.ran 0 (.ok val) kept)
      { loaded.ran 0 (.ok val) kept with
        path := .registered (kept.leave (kept.after_execute_at zero_sized 2)) } := by
    refine .skips rfl rfl fun index hi => ?_
    obtain rfl | rfl : index = 0 ∨ index = 1 := by omega
    · exact .inr rfl
    · exact .inl rfl
  have hkeeps : Reaches (SkippingStep 2 (fun _ => .ret val) False zero_sized)
      (Drive.init (some ⟨0⟩) [] [5]) (loaded.ran 0 (.ok val) kept) :=
    Relation.ReflTransGen.mono (fun _ _ => SkippingStep.keeps) _ _
      ((Relation.ReflTransGen.single hload).trans hreturned)
  exact ⟨_, kept, hkeeps.tail hskip, rfl, rfl, rfl, rfl, rfl⟩

/-- The same skip is read uninitialized where a result is a number, and gives two units
where it is a unit. -/
theorem one_of_two_is_read_uninitialized :
    (∃ (d : Drive (List Nat) Nat Nat Nat Nat) (st : Registered Nat Nat),
      Reaches (SkippingStep 2 (fun _ => .ret 7) False none) (Drive.init (some ⟨0⟩) [] [5]) d ∧
      d.path = .registered st ∧ st.exit = some (.fault .uninitialized) ∧
      ∃ i < 2, d.pool.status i = .idle) ∧
    ∃ (d : Drive (List Nat) Nat Nat Unit Nat) (st : Registered Unit Nat),
      Reaches (SkippingStep 2 (fun _ => .ret ()) False (some ())) (Drive.init (some ⟨0⟩) [] [5]) d ∧
      d.path = .registered st ∧ st.exit = some (.returned [(), ()]) ∧
      d.pool.status 1 = .idle ∧ st.out.released = [.handed] := by
  constructor
  · obtain ⟨d, st, hrun, hp, hout, hv, -, -⟩ := skips_task_one none 7
    have hexit : (st.leave (st.after_execute_at none 2)).exit = some (.fault .uninitialized) := by
      simp [Registered.after_execute_at, hv, hout, OutBuffer.into_vec_at, OutBuffer.into_vec,
        Registered.leave, bind, Except.bind]
    have hskipped := a_skip_is_undefined_unless_a_task_panicked (by decide) _ False none
      (by simp) (some ⟨0⟩) [] [5] hrun hp hexit (by simp)
    exact ⟨d, _, hrun, hp, hexit, (hskipped.2.2.1.mp ⟨_, rfl⟩).2.1⟩
  · obtain ⟨d, st, hrun, hp, hout, hv, hg, hidle⟩ := skips_task_one (some ()) ()
    have hexit : (st.leave (st.after_execute_at (some ()) 2)).exit =
        some (.returned [(), ()]) := by
      simp [Registered.after_execute_at, hv, hout, hg, OutBuffer.into_vec_at,
        ExecutorDropGuard.drop, Registered.leave, bind, Except.bind]
    have hskipped := a_skip_is_undefined_unless_a_task_panicked (by decide) _ False (some ())
      (fun _ _ _ => rfl) (some ⟨0⟩) [] [5] hrun hp hexit (by simp)
    exact ⟨d, _, hrun, hp, hexit, hidle, (hskipped.2.2.2.1 _ rfl).2.2⟩

end melinoe.driver_core
