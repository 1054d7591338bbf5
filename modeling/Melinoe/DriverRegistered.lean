-- The registered path of `drive`: what each slot, flag and payload is while the
-- executor runs, and how every produced value is accounted for at the exit.
import Melinoe.DriverCore

open tasks runs

namespace melinoe.driver_core

variable {κ α ε ρ π : Type}

/-! ## What the tasks produced -/

/-- The value of a task that has returned. -/
def value_of : Status κ α ε ρ π → Option ρ
  | .ended (.ok val) => some val
  | _ => none

/-- The payload of a task that has panicked. -/
def payload_of : Status κ α ε ρ π → Option π
  | .ended (.error payload) => some payload
  | _ => none

/-- Every value that the first `n` tasks produced, with its index. -/
def produced (n : Nat) (status : Nat → Status κ α ε ρ π) : List (Nat × ρ) :=
  (List.range n).filterMap fun index => (value_of (status index)).map (index, ·)

/-- The results are the values of the `n` tasks in index order. -/
def Results (n : Nat) (status : Nat → Status κ α ε ρ π) (results : List ρ) : Prop :=
  results.length = n ∧ ∀ index < n, ∃ val,
    status index = .ended (.ok val) ∧ results[index]? = some val

theorem value_of_eq_some {s : Status κ α ε ρ π} {val : ρ} :
    value_of s = some val ↔ s = .ended (.ok val) := by
  unfold value_of
  split <;> simp_all

theorem payload_of_eq_some {s : Status κ α ε ρ π} {payload : π} :
    payload_of s = some payload ↔ s = .ended (.error payload) := by
  unfold payload_of
  split <;> simp_all

theorem mem_produced {n : Nat} {status : Nat → Status κ α ε ρ π} {index : Nat} {val : ρ} :
    (index, val) ∈ produced n status ↔ index < n ∧ status index = .ended (.ok val) := by
  unfold produced
  simp only [List.mem_filterMap, List.mem_range, Option.map_eq_some_iff, Prod.mk.injEq,
    value_of_eq_some]
  constructor
  · rintro ⟨i, hi, v, hv, rfl, rfl⟩
    exact ⟨hi, hv⟩
  · rintro ⟨hi, hv⟩
    exact ⟨index, hi, val, hv, rfl, rfl⟩

theorem produced_nodup (n : Nat) (status : Nat → Status κ α ε ρ π) :
    ((produced n status).map (·.1)).Nodup := by
  have hfilter : (produced n status).map (·.1) =
      (List.range n).filter fun index => (value_of (status index)).isSome := by
    unfold produced
    induction List.range n with
    | nil => rfl
    | cons index rest ih =>
      cases hv : value_of (status index) <;> simp [hv, ih]
  rw [hfilter]
  exact List.nodup_range.filter _

/-! ## Dropping and handing out the slots -/

theorem drop_in_place_ok {out : OutBuffer ρ} {index : Nat} {val : ρ} (hr : out.released = [])
    (hs : out.slots[index]? = some (some val)) : out.drop_in_place index = .ok { out with
      slots := out.slots.set index none, dropped := out.dropped ++ [(index, val)] } := by
  unfold OutBuffer.drop_in_place
  simp [hr, hs]

/-- When the flags say which slots are written, the loop drops those, each once. -/
theorem drop_successful_ok {out : OutBuffer ρ} {successful : List Bool} {vals : Nat → Option ρ}
    (hr : out.released = []) {n : Nat}
    (hf : ∀ index < n, successful[index]? = some (vals index).isSome)
    (hs : ∀ index < n, out.slots[index]? = some (vals index)) :
    ∃ slots, drop_successful out successful n = .ok ⟨slots, out.dropped ++
        (List.range n).filterMap (fun index => (vals index).map (index, ·)), []⟩ ∧
      ∀ index, n ≤ index → slots[index]? = out.slots[index]? := by
  induction n generalizing vals with
  | zero => exact ⟨out.slots, by simp [drop_successful, ← hr], fun _ _ => rfl⟩
  | succ n ih =>
    obtain ⟨slots, heq, hrest⟩ := ih (fun i hi => hf i (by omega)) fun i hi => hs i (by omega)
    have hslot : slots[n]? = some (vals n) := (hrest n (Nat.le_refl n)).trans (hs n (by omega))
    simp only [drop_successful, heq, hf n (by omega), List.range_succ, List.filterMap_append]
    cases hv : vals n with
    | none => exact ⟨slots, by simp [hv, bind, Except.bind], fun i hi => hrest i (by omega)⟩
    | some val =>
      refine ⟨slots.set n none, ?_, fun i hi => ?_⟩
      · simp only [bind, Except.bind, Option.isSome_some]
        rw [drop_in_place_ok rfl (by rw [hslot, hv])]
        simp [hv]
      · rw [List.getElem?_set_ne (by omega)]
        exact hrest i (by omega)

theorem mapM_id_of_isSome {l : List (Option ρ)} (h : ∀ o ∈ l, o.isSome) :
    ∃ vals, l = vals.map some ∧ l.mapM id = some vals := by
  induction l with
  | nil => exact ⟨[], rfl, rfl⟩
  | cons o l ih =>
    obtain ⟨vals, rfl, hm⟩ := ih fun o ho => h o (by simp [ho])
    obtain ⟨val, rfl⟩ := Option.isSome_iff_exists.mp (h o (by simp))
    exact ⟨val :: vals, rfl, by simp [List.mapM_cons, hm]⟩

/-! ## While the executor runs -/

/-- Where one index can be: its task, its wrapper, its slot and its flag. -/
inductive SlotState :
    Status κ α ε ρ π → Wrapper → Option (Option ρ) → Option Bool → Prop
  | idle : SlotState .idle .caught (some none) (some false)
  | running (t : Task κ α ε ρ π) : SlotState (.running t) .caught (some none) (some false)
  | caught (o : Except π ρ) : SlotState (.ended o) .caught (some none) (some false)
  | wrote (val : ρ) : SlotState (.ended (.ok val)) .wrote (some (some val)) (some false)
  | kept (val : ρ) : SlotState (.ended (.ok val)) .done (some (some val)) (some true)
  | locked (q : π) : SlotState (.ended (.error q)) .locked (some none) (some false)
  | stored (q : π) : SlotState (.ended (.error q)) .stored (some none) (some false)
  | panicked (q : π) : SlotState (.ended (.error q)) .done (some none) (some false)

namespace SlotState

variable {s : Status κ α ε ρ π} {w : Wrapper} {slot : Option (Option ρ)} {flag : Option Bool}

theorem of_caught (h : SlotState s .caught slot flag) : slot = some none ∧ flag = some false := by
  cases h <;> exact ⟨rfl, rfl⟩

theorem of_wrote (h : SlotState s .wrote slot flag) :
    ∃ val, s = .ended (.ok val) ∧ slot = some (some val) := by
  cases h with
  | wrote val => exact ⟨val, rfl, rfl⟩

theorem of_holding (h : SlotState s w slot flag) (hw : w = .locked ∨ w = .stored) :
    ∃ q, s = .ended (.error q) := by
  cases h with
  | locked q => exact ⟨q, rfl⟩
  | stored q => exact ⟨q, rfl⟩
  | _ => simp at hw

theorem of_error {q : π} (h : SlotState (.ended (.error q) : Status κ α ε ρ π) w slot flag) :
    w ≠ .wrote ∧ slot = some none ∧ flag = some false := by
  cases h <;> exact ⟨by simp, rfl, rfl⟩

theorem of_ok {val : ρ} (h : SlotState (.ended (.ok val) : Status κ α ε ρ π) w slot flag) :
    w = .caught ∨ w = .wrote ∨ w = .done := by
  cases h <;> simp

/-- Once a wrapper is done, the slot and the flag say what the task produced. -/
theorem settled (h : SlotState s w slot flag) (hs : s = .idle ∨ w = .done) :
    slot = some (value_of s) ∧ flag = some (value_of s).isSome := by
  cases h <;> first | exact ⟨rfl, rfl⟩ | simp at hs

theorem of_done (h : SlotState s .done slot flag) : ∃ o, s = .ended o := by
  cases h <;> exact ⟨_, rfl⟩

theorem not_ended (h : SlotState s w slot flag) (hs : ∀ o, s ≠ .ended o) :
    w = .caught ∧ ∀ s', SlotState (s' : Status κ α ε ρ π) .caught slot flag := by
  have hfree : ∀ s', SlotState (s' : Status κ α ε ρ π) .caught (some none) (some false) := by
    intro s'
    cases s' with
    | idle => exact .idle
    | running t => exact .running t
    | ended o => exact .caught o
  cases h with
  | idle => exact ⟨rfl, hfree⟩
  | running t => exact ⟨rfl, hfree⟩
  | _ => exact absurd rfl (hs _)

end SlotState

/-- The buffer and the flags, as far as the tasks and their wrappers are. -/
structure Slots (n : Nat) (status : Nat → Status κ α ε ρ π) (wrapper : Nat → Wrapper)
    (slots : List (Option ρ)) (flags : List Bool) : Prop where
  slots_length : slots.length = n
  flags_length : flags.length = n
  slot : ∀ i < n, SlotState (status i) (wrapper i) slots[i]? flags[i]?

/-- The panic mutex, as far as the tasks and their wrappers are. -/
structure Payloads (n : Nat) (status : Nat → Status κ α ε ρ π) (wrapper : Nat → Wrapper)
    (mutex : PanicPayloadMutex π) (lock_order : List Nat) : Prop where
  holder : ∀ i, mutex.holder = some i ↔ i < n ∧ (wrapper i = .locked ∨ wrapper i = .stored)
  order : ∀ i, i ∈ lock_order ↔ i < n ∧ (payload_of (status i)).isSome ∧ wrapper i ≠ .caught
  /-- A payload in the mutex is that of the first task that took it. -/
  first : ∀ q, mutex.value = some q →
    ∃ i, lock_order.head? = some i ∧ status i = .ended (.error q)
  /-- The mutex is empty only while that task is about to store its own. -/
  unset : mutex.value = none → ∀ i ∈ lock_order, wrapper i = .locked

structure Executing (n : Nat) (status : Nat → Status κ α ε ρ π) (st : Registered ρ π) :
    Prop where
  unreleased : st.out.released = []
  undropped : st.out.dropped = []
  guarded : st.guard = ⟨n, true⟩
  slots : Slots n status st.wrapper st.out.slots st.successful
  payloads : Payloads n status st.wrapper st.panic_payload st.lock_order

variable {n : Nat} {status status' : Nat → Status κ α ε ρ π} {st st' : Registered ρ π}

theorem executing_init (h : ∀ i, status i = .idle) :
    Executing n status (Registered.init n : Registered ρ π) where
  unreleased := rfl
  undropped := rfl
  guarded := rfl
  slots :=
    { slots_length := by simp [Registered.init, OutBuffer.with_capacity]
      flags_length := by simp [Registered.init]
      slot := fun i hi => by
        simp only [h, Registered.init, OutBuffer.with_capacity, List.getElem?_replicate, if_pos hi]
        exact .idle }
  payloads :=
    { holder := by simp [Registered.init, PanicPayloadMutex.new]
      order := by simp [Registered.init]
      first := by simp [Registered.init, PanicPayloadMutex.new]
      unset := by simp [Registered.init] }

/-! ## The tasks move -/

section moves

variable {wrapper : Nat → Wrapper} {slots : List (Option ρ)} {flags : List Bool}
  {mutex : PanicPayloadMutex π} {lock_order : List Nat}

theorem Slots.move (h : Slots n status wrapper slots flags)
    (hs : ∀ i < n, status' i = status i ∨ ∀ o, status i ≠ .ended o) :
    Slots n status' wrapper slots flags where
  slots_length := h.slots_length
  flags_length := h.flags_length
  slot i hi := by
    rcases hs i hi with heq | hne
    · rw [heq]
      exact h.slot i hi
    · obtain ⟨hw, hfree⟩ := (h.slot i hi).not_ended hne
      rw [hw]
      exact hfree _

/-- A task that has not ended is still inside `catch_unwind`. -/
theorem Slots.caught (h : Slots n status wrapper slots flags) {i : Nat} (hi : i < n)
    (hs : ∀ o, status i ≠ .ended o) : wrapper i = .caught :=
  ((h.slot i hi).not_ended hs).1

theorem Payloads.move (h : Payloads n status wrapper mutex lock_order)
    (hs : ∀ i < n, status' i = status i ∨ (∀ o, status i ≠ .ended o) ∧ wrapper i = .caught) :
    Payloads n status' wrapper mutex lock_order where
  holder := h.holder
  order i := by
    rw [h.order]
    constructor <;> rintro ⟨hi, hq, hw⟩ <;> rcases hs i hi with heq | ⟨-, hc⟩
    · exact ⟨hi, heq ▸ hq, hw⟩
    · exact absurd hc hw
    · exact ⟨hi, heq ▸ hq, hw⟩
    · exact absurd hc hw
  first q hq := by
    obtain ⟨i, hi, hend⟩ := h.first q hq
    have hin := ((h.order i).mp (List.mem_of_mem_head? hi)).1
    rcases hs i hin with heq | ⟨hne, -⟩
    · exact ⟨i, hi, heq.trans hend⟩
    · exact absurd hend (hne _)
  unset := h.unset

end moves

/-- The tasks may move as long as each that has ended stays as it is. -/
theorem Executing.move (h : Executing n status st)
    (hs : ∀ i < n, status' i = status i ∨ ∀ o, status i ≠ .ended o) : Executing n status' st where
  unreleased := h.unreleased
  undropped := h.undropped
  guarded := h.guarded
  slots := h.slots.move hs
  payloads := h.payloads.move fun i hi =>
    (hs i hi).imp id fun hne => ⟨hne, h.slots.caught hi hne⟩

/-! ## A wrapper moves -/

section wrappers

variable {wrapper : Nat → Wrapper} {slots : List (Option ρ)} {flags : List Bool}
  {mutex : PanicPayloadMutex π} {lock_order : List Nat} {i : Nat} {val : ρ} {q : π}

/-- The value goes into the task's own slot. -/
theorem Slots.write (h : Slots n status wrapper slots flags) (hi : i < n)
    (hr : status i = .ended (.ok val)) (hw : wrapper i = .caught) :
    Slots n status (Function.update wrapper i .wrote) (slots.set i (some val)) flags where
  slots_length := by simp [h.slots_length]
  flags_length := h.flags_length
  slot j hj := by
    have hslot := h.slot j hj
    by_cases hji : j = i
    · subst hji
      rw [hr, hw] at hslot
      rw [hr, Function.update_self, List.getElem?_set_self (by rw [h.slots_length]; exact hi),
        hslot.of_caught.2]
      exact .wrote val
    · rw [Function.update_of_ne hji, List.getElem?_set_ne (by omega)]
      exact hslot

/-- The flag follows the value. -/
theorem Slots.flag (h : Slots n status wrapper slots flags) (hi : i < n)
    (hr : status i = .ended (.ok val)) (hw : wrapper i = .wrote) :
    Slots n status (Function.update wrapper i .done) slots (flags.set i true) where
  slots_length := h.slots_length
  flags_length := by simp [h.flags_length]
  slot j hj := by
    have hslot := h.slot j hj
    by_cases hji : j = i
    · subst hji
      rw [hr, hw] at hslot
      obtain ⟨val', heq, hval⟩ := hslot.of_wrote
      cases heq
      rw [hr, Function.update_self, List.getElem?_set_self (by rw [h.flags_length]; exact hi), hval]
      exact .kept val
    · rw [Function.update_of_ne hji, List.getElem?_set_ne (by omega)]
      exact hslot

/-- A task that panicked leaves its slot and its flag alone. -/
theorem Slots.panic_step (h : Slots n status wrapper slots flags)
    (hr : status i = .ended (.error q)) {pc : Wrapper} (hpc : pc ≠ .wrote) :
    Slots n status (Function.update wrapper i pc) slots flags where
  slots_length := h.slots_length
  flags_length := h.flags_length
  slot j hj := by
    have hslot := h.slot j hj
    by_cases hji : j = i
    · subst hji
      rw [hr] at hslot
      obtain ⟨-, hslot, hflag⟩ := hslot.of_error
      rw [hr, Function.update_self, hslot, hflag]
      cases pc with
      | caught => exact .caught _
      | wrote => exact absurd rfl hpc
      | locked => exact .locked q
      | stored => exact .stored q
      | done => exact .panicked q
    · rw [Function.update_of_ne hji]
      exact hslot

/-- A task that returned leaves the mutex alone. -/
theorem Payloads.value_step (h : Payloads n status wrapper mutex lock_order)
    (hr : status i = .ended (.ok val)) {pc : Wrapper}
    (hw : wrapper i ≠ .locked ∧ wrapper i ≠ .stored) (hpc : pc ≠ .locked ∧ pc ≠ .stored) :
    Payloads n status (Function.update wrapper i pc) mutex lock_order where
  holder j := by
    rw [h.holder]
    by_cases hji : j = i
    · subst hji
      simp [hw, hpc]
    · rw [Function.update_of_ne hji]
  order j := by
    rw [h.order]
    by_cases hji : j = i
    · subst hji
      simp [hr, payload_of]
    · rw [Function.update_of_ne hji]
  first := h.first
  unset hv j hj := by
    have hne : j ≠ i := by
      rintro rfl
      simp [h.order, hr, payload_of] at hj
    rw [Function.update_of_ne hne]
    exact h.unset hv j hj

theorem Payloads.lock (h : Payloads n status wrapper mutex lock_order) (hi : i < n)
    (hr : status i = .ended (.error q)) (hfree : mutex.holder = none) :
    Payloads n status (Function.update wrapper i .locked) { mutex with holder := some i }
      (lock_order ++ [i]) where
  holder j := by
    have hj := h.holder j
    rw [hfree] at hj
    by_cases hji : j = i
    · subst hji
      simp [hi]
    · rw [Function.update_of_ne hji, ← hj]
      simp [Ne.symm hji]
  order j := by
    rw [List.mem_append, List.mem_singleton, h.order]
    by_cases hji : j = i
    · subst hji
      simp [hi, hr, payload_of]
    · simp [hji]
  first p hp := by
    obtain ⟨j, hj, hend⟩ := h.first p hp
    exact ⟨j, by simp [hj], hend⟩
  unset hv j hj := by
    by_cases hji : j = i
    · rw [hji, Function.update_self]
    · rw [Function.update_of_ne hji]
      exact h.unset hv j (by simpa [hji] using hj)

/-- The first payload stays; a later one is dropped. -/
theorem Payloads.store (h : Payloads n status wrapper mutex lock_order) (hi : i < n)
    (hr : status i = .ended (.error q)) (hw : wrapper i = .locked) :
    Payloads n status (Function.update wrapper i .stored)
      { mutex with value := some (mutex.value.getD q) } lock_order where
  holder j := by
    rw [h.holder]
    by_cases hji : j = i
    · subst hji
      simp [hw]
    · rw [Function.update_of_ne hji]
  order j := by
    rw [h.order]
    by_cases hji : j = i
    · subst hji
      simp [hw]
    · rw [Function.update_of_ne hji]
  first p hp := by
    cases hv : mutex.value with
    | some p' =>
      simp only [hv, Option.getD_some, Option.some.injEq] at hp
      exact hp ▸ h.first p' hv
    | none =>
      simp only [hv, Option.getD_none, Option.some.injEq] at hp
      -- all that took the mutex hold it now, so task `i` was the first
      have hmem : i ∈ lock_order := by simp [h.order, hi, hr, hw, payload_of]
      obtain ⟨j, rest, rfl⟩ := List.exists_cons_of_ne_nil (List.ne_nil_of_mem hmem)
      have hj : wrapper j = .locked := h.unset hv j (by simp)
      have hjn := ((h.order j).mp (by simp)).1
      have heq : mutex.holder = some i := (h.holder i).mpr ⟨hi, .inl hw⟩
      rw [(h.holder j).mpr ⟨hjn, .inl hj⟩, Option.some.injEq] at heq
      exact ⟨i, by simp [heq], hp ▸ hr⟩
  unset hv := by simp at hv

theorem Payloads.unlock (h : Payloads n status wrapper mutex lock_order) (hi : i < n)
    (hw : wrapper i = .stored) :
    Payloads n status (Function.update wrapper i .done) { mutex with holder := none }
      lock_order where
  holder j := by
    have hj := h.holder j
    by_cases hji : j = i
    · subst hji
      simp
    · rw [Function.update_of_ne hji]
      constructor
      · intro hc
        simp at hc
      · rintro ⟨hjn, hjw⟩
        have heq := hj.mpr ⟨hjn, hjw⟩
        rw [(h.holder i).mpr ⟨hi, .inr hw⟩, Option.some.injEq] at heq
        exact absurd heq.symm hji
  order j := by
    rw [h.order]
    by_cases hji : j = i
    · subst hji
      simp [hw]
    · rw [Function.update_of_ne hji]
  first := h.first
  unset hv j hj := by
    have hji : j ≠ i := by
      rintro rfl
      have := h.unset hv j hj
      rw [hw] at this
      cases this
    rw [Function.update_of_ne hji]
    exact h.unset hv j hj

end wrappers

/-- All that one action of a task's wrapper can be. -/
theorem task_wrapper_cases {i : Nat} {result : Except π ρ}
    (h : task_wrapper i result st = some st') :
    (∃ val, result = .ok val ∧ st.wrapper i = .caught ∧
      ((∃ out, st.out.write i val = .ok out ∧
        st' = { st with out, wrapper := Function.update st.wrapper i .wrote }) ∨
      ∃ f, st.out.write i val = .error f ∧ st' = { st with exit := some (.fault f) })) ∨
    (∃ val, result = .ok val ∧ st.wrapper i = .wrote ∧ st' = { st with
      successful := st.successful.set i true, wrapper := Function.update st.wrapper i .done }) ∨
    (∃ q, result = .error q ∧ st.wrapper i = .caught ∧ st.panic_payload.holder = none ∧
      st' = { st with
        panic_payload.holder := some i
        wrapper := Function.update st.wrapper i .locked
        lock_order := st.lock_order ++ [i] }) ∨
    (∃ q, result = .error q ∧ st.wrapper i = .locked ∧ st' = { st with
      panic_payload.value := some (st.panic_payload.value.getD q)
      wrapper := Function.update st.wrapper i .stored }) ∨
    (∃ q, result = .error q ∧ st.wrapper i = .stored ∧ st' = { st with
      panic_payload.holder := none, wrapper := Function.update st.wrapper i .done }) := by
  unfold task_wrapper at h
  cases result with
  | ok val =>
    cases hw : st.wrapper i with
    | caught =>
      simp only [hw] at h
      split at h
      · rename_i out hout
        exact .inl ⟨val, rfl, rfl, .inl ⟨out, hout, (Option.some.inj h).symm⟩⟩
      · rename_i f hf
        exact .inl ⟨val, rfl, rfl, .inr ⟨f, hf, (Option.some.inj h).symm⟩⟩
    | wrote =>
      simp only [hw] at h
      exact .inr (.inl ⟨val, rfl, rfl, (Option.some.inj h).symm⟩)
    | _ => simp [hw] at h
  | error q =>
    cases hw : st.wrapper i with
    | caught =>
      simp only [hw] at h
      split at h
      · rename_i hfree
        exact .inr (.inr (.inl ⟨q, rfl, rfl, hfree, (Option.some.inj h).symm⟩))
      · cases h
    | locked =>
      simp only [hw, lock_panic_payload_eq] at h
      refine .inr (.inr (.inr (.inl ⟨q, rfl, rfl, ?_⟩)))
      rw [← Option.some.inj h]
      cases st.panic_payload.value <;> rfl
    | stored =>
      simp only [hw] at h
      exact .inr (.inr (.inr (.inr ⟨q, rfl, rfl, (Option.some.inj h).symm⟩)))
    | _ => simp [hw] at h

/-- No wrapper writes outside the buffer, and each keeps the invariant. -/
theorem Executing.task_wrapper (h : Executing n status st) {i : Nat} (hi : i < n)
    {result : Except π ρ} (hr : status i = .ended result)
    (hw : task_wrapper i result st = some st') : Executing n status st' ∧ st'.exit = st.exit := by
  rcases task_wrapper_cases hw with ⟨val, rfl, hc, hout⟩ | ⟨val, rfl, hc, rfl⟩ |
    ⟨q, rfl, hc, hfree, rfl⟩ | ⟨q, rfl, hc, rfl⟩ | ⟨q, rfl, hc, rfl⟩
  · have hwrite : st.out.write i val =
        .ok { st.out with slots := st.out.slots.set i (some val) } := by
      simp [OutBuffer.write, h.unreleased, h.slots.slots_length, hi]
    simp only [hwrite] at hout
    rcases hout with ⟨out, hout, rfl⟩ | ⟨f, hf, -⟩
    · cases hout
      exact ⟨⟨h.unreleased, h.undropped, h.guarded, h.slots.write hi hr hc,
        h.payloads.value_step hr (by simp [hc]) (by simp)⟩, rfl⟩
    · cases hf
  · exact ⟨⟨h.unreleased, h.undropped, h.guarded, h.slots.flag hi hr hc,
      h.payloads.value_step hr (by simp [hc]) (by simp)⟩, rfl⟩
  · exact ⟨⟨h.unreleased, h.undropped, h.guarded, h.slots.panic_step hr (by simp),
      h.payloads.lock hi hr hfree⟩, rfl⟩
  · exact ⟨⟨h.unreleased, h.undropped, h.guarded, h.slots.panic_step hr (by simp),
      h.payloads.store hi hr hc⟩, rfl⟩
  · exact ⟨⟨h.unreleased, h.undropped, h.guarded, h.slots.panic_step hr (by simp),
      h.payloads.unlock hi hc⟩, rfl⟩

theorem Executing.poison (h : Executing n status st) (b : Bool) :
    Executing n status { st with panic_payload.poisoned := b } :=
  ⟨h.unreleased, h.undropped, h.guarded, h.slots,
    ⟨h.payloads.holder, h.payloads.order, h.payloads.first, h.payloads.unset⟩⟩

/-- While a task's wrapper is not done, some wrapper can act: one that waits
for the panic mutex is not the one that holds it. -/
theorem Executing.wrapper_ready (h : Executing n status st) {i : Nat} (hi : i < n)
    {result : Except π ρ} (hr : status i = .ended result) (hw : st.wrapper i ≠ .done) :
    ∃ j < n, ∃ result', status j = .ended result' ∧
      (driver_core.task_wrapper j result' st).isSome := by
  have hslot := h.slots.slot i hi
  rw [hr] at hslot
  cases result with
  | ok val =>
    refine ⟨i, hi, .ok val, hr, ?_⟩
    rcases hslot.of_ok with hc | hc | hc
    · simp [driver_core.task_wrapper, hc, OutBuffer.write, h.unreleased, h.slots.slots_length, hi]
    · simp [driver_core.task_wrapper, hc]
    · exact absurd hc hw
  | error q =>
    cases hc : st.wrapper i with
    | caught =>
      cases hold : st.panic_payload.holder with
      | none => exact ⟨i, hi, .error q, hr, by simp [driver_core.task_wrapper, hc, hold]⟩
      | some j =>
        obtain ⟨hj, hjw⟩ := (h.payloads.holder j).mp hold
        obtain ⟨q', hq⟩ := (h.slots.slot j hj).of_holding hjw
        refine ⟨j, hj, .error q', hq, ?_⟩
        rcases hjw with hjw | hjw <;> simp [driver_core.task_wrapper, hjw]
    | locked => exact ⟨i, hi, .error q, hr, by simp [driver_core.task_wrapper, hc]⟩
    | stored => exact ⟨i, hi, .error q, hr, by simp [driver_core.task_wrapper, hc]⟩
    | done => exact absurd hc hw
    | wrote => exact absurd hc hslot.of_error.1

/-! ## The exits -/

/-- The books of a call that has left the registered path; `unwinds` says whether
the executor may. -/
def Accounted (n : Nat) (unwinds : Prop) (status : Nat → Status κ α ε ρ π)
    (st : Registered ρ π) : Exit ρ π → Prop
  | .returned results =>
    Results n status results ∧ st.out.dropped = [] ∧ st.out.released = [.handed]
  | .resumed payload =>
    (∀ i < n, ∃ o, status i = .ended o) ∧
    (∀ i, i ∈ st.lock_order ↔ i < n ∧ (payload_of (status i)).isSome) ∧
    (∃ i, st.lock_order.head? = some i ∧ status i = .ended (.error payload)) ∧
    st.out.dropped = produced n status ∧ st.out.released = [.freed]
  | .unwound =>
    unwinds ∧ (∀ i < n, status i = .idle ∨ ∃ o, status i = .ended o) ∧
    st.out.dropped = produced n status ∧ st.out.released = [.freed]
  | .fault _ => False

/-- Teardown drops what was produced and frees the buffer. -/
theorem Executing.teardown (h : Executing n status st)
    (hall : ∀ i < n, status i = .idle ∨ st.wrapper i = .done) : ∃ slots,
    drop_successful st.out st.successful n = .ok ⟨slots, produced n status, []⟩ := by
  have hset : ∀ i < n, st.out.slots[i]? = some (value_of (status i)) ∧
      st.successful[i]? = some (value_of (status i)).isSome :=
    fun i hi => (h.slots.slot i hi).settled (hall i hi)
  obtain ⟨slots, heq, -⟩ := drop_successful_ok h.unreleased (fun i hi => (hset i hi).2)
    fun i hi => (hset i hi).1
  rw [h.undropped, List.nil_append] at heq
  exact ⟨slots, heq⟩

theorem Executing.executor_unwound {unwinds : Prop} (h : Executing n status st) (hu : unwinds)
    (hall : ∀ i < n, status i = .idle ∨ st.wrapper i = .done) :
    ∃ out, st.executor_unwound = .ok (out, .unwound) ∧
      Accounted n unwinds status (st.leave st.executor_unwound) .unwound := by
  obtain ⟨slots, heq⟩ := h.teardown hall
  have hrun : st.executor_unwound = .ok (⟨slots, produced n status, [.freed]⟩, .unwound) := by
    simp [Registered.executor_unwound, ExecutorDropGuard.drop, h.guarded, heq, OutBuffer.free,
      bind, Except.bind]
  refine ⟨_, hrun, hu, fun i hi => ?_, by rw [hrun]; rfl, by rw [hrun]; rfl⟩
  exact (hall i hi).imp id fun hw => (hw ▸ h.slots.slot i hi).of_done

/-- An empty mutex means that every task returned, so every slot is written. -/
theorem Executing.into_vec (h : Executing n status st) (hall : ∀ i < n, st.wrapper i = .done)
    (hv : st.panic_payload.value = none) : ∃ results, Results n status results ∧
      st.out.into_vec n = .ok (results, { st.out with released := [.handed] }) := by
  have hok : ∀ i < n, ∃ val, status i = .ended (.ok val) := by
    intro i hi
    obtain ⟨o, ho⟩ := (hall i hi ▸ h.slots.slot i hi).of_done
    cases o with
    | ok val => exact ⟨val, ho⟩
    | error q =>
      have hmem : i ∈ st.lock_order := by simp [h.payloads.order, hi, ho, hall i hi, payload_of]
      have := h.payloads.unset hv i hmem
      rw [hall i hi] at this
      cases this
  have hslot : ∀ i < n, st.out.slots[i]? = some (value_of (status i)) :=
    fun i hi => ((h.slots.slot i hi).settled (.inr (hall i hi))).1
  have hsome : ∀ o ∈ st.out.slots, o.isSome := by
    intro o ho
    obtain ⟨i, hi, rfl⟩ := List.getElem_of_mem ho
    have hin : i < n := h.slots.slots_length ▸ hi
    obtain ⟨val, hval⟩ := hok i hin
    have := hslot i hin
    rw [List.getElem?_eq_getElem hi, hval, Option.some.injEq] at this
    simp [this, value_of]
  obtain ⟨results, hmap, hm⟩ := mapM_id_of_isSome hsome
  have hlen : results.length = n := by rw [← h.slots.slots_length, hmap, List.length_map]
  refine ⟨results, ⟨hlen, fun i hi => ?_⟩, ?_⟩
  · obtain ⟨val, hval⟩ := hok i hi
    have := hslot i hi
    rw [hmap, List.getElem?_map, hval, Option.map_eq_some_iff] at this
    obtain ⟨val', hr, heq⟩ := this
    exact ⟨val, hval, by rw [hr, Option.some.inj heq]⟩
  · have htake : st.out.slots.take n = st.out.slots :=
      List.take_of_length_le (by rw [h.slots.slots_length])
    simp [OutBuffer.into_vec, h.unreleased, h.slots.slots_length, htake, hm]

theorem Executing.after_execute (unwinds : Prop) (h : Executing n status st)
    (hall : ∀ i < n, st.wrapper i = .done) :
    ∃ out exit, st.after_execute n = .ok (out, exit) ∧
      Accounted n unwinds status (st.leave (st.after_execute n)) exit := by
  cases hv : st.panic_payload.value with
  | some payload =>
    obtain ⟨slots, heq⟩ := h.teardown fun i hi => .inr (hall i hi)
    have hrun : st.after_execute n =
        .ok (⟨slots, produced n status, [.freed]⟩, .resumed payload) := by
      simp [Registered.after_execute, hv, h.slots.flags_length, heq, OutBuffer.free,
        ExecutorDropGuard.drop, bind, Except.bind]
    refine ⟨_, _, hrun, ⟨fun i hi => ?_, fun i => ?_, ?_, by rw [hrun]; rfl, by rw [hrun]; rfl⟩⟩
    · exact (hall i hi ▸ h.slots.slot i hi).of_done
    · rw [hrun]
      have := h.payloads.order i
      simp only [Registered.leave]
      rw [this]
      constructor
      · rintro ⟨hi, hq, -⟩
        exact ⟨hi, hq⟩
      · rintro ⟨hi, hq⟩
        exact ⟨hi, hq, by simp [hall i hi]⟩
    · rw [hrun]
      exact h.payloads.first payload hv
  | none =>
    obtain ⟨results, hres, hvec⟩ := h.into_vec hall hv
    have hrun : st.after_execute n =
        .ok ({ st.out with released := [.handed] }, .returned results) := by
      simp [Registered.after_execute, hv, hvec, ExecutorDropGuard.drop, bind, Except.bind]
    refine ⟨_, _, hrun, hres, ?_, ?_⟩
    · rw [hrun]
      exact h.undropped
    · rw [hrun]
      rfl

end melinoe.driver_core
