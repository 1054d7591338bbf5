-- The path of `drive` without an executor: one task inline, or scoped threads
-- that are joined in index order.
import Melinoe.DriverRegistered

open tasks runs

namespace melinoe.driver_core

variable {κ α ε ρ π : Type}

/-! ## What the calling thread has -/

/-- The payload is that of the inline task, the last one, if it panicked, and
else that of the least index whose task did. -/
def Chosen (n : Nat) (status : Nat → Status κ α ε ρ π) (payload : π) : Prop :=
  ∃ i < n, status i = .ended (.error payload) ∧
    (i = n - 1 ∨ (∃ last, status (n - 1) = .ended (.ok last)) ∧
      ∀ j < i, ∃ val, status j = .ended (.ok val))

/-- What holds once the call is left on this path. -/
def LeftWith (n : Nat) (status : Nat → Status κ α ε ρ π) : Exit ρ π → Prop
  | .returned results => Results n status results
  | .resumed payload => Chosen n status payload ∧ ∀ i < n, ∃ o, status i = .ended o
  | .unwound => False
  | .fault _ => False

def ScopeInv (n : Nat) (status : Nat → Status κ α ε ρ π) : Scope ρ π → Prop
  | .spawning next => next ≤ n - 1 ∧ ∀ i, next ≤ i → status i = .idle
  | .inline => status (n - 1) ≠ .idle
  | .joining next results last =>
    next ≤ n - 1 ∧ status (n - 1) = .ended (.ok last) ∧ Results next status results
  | .returning results => Results n status results
  | .unwinding payload => Chosen n status payload
  | .left exit => LeftWith n status exit

variable {n : Nat} {status status' : Nat → Status κ α ε ρ π} {s : Scope ρ π}

/-! ## The tasks move -/

/-- A task that has ended stays as it is. -/
def Kept (status status' : Nat → Status κ α ε ρ π) : Prop :=
  ∀ i o, status i = .ended o → status' i = .ended o

theorem Results.move {k : Nat} {results : List ρ} (h : Results k status results)
    (hk : Kept status status') : Results k status' results := by
  refine ⟨h.1, fun i hi => ?_⟩
  obtain ⟨val, hs, hr⟩ := h.2 i hi
  exact ⟨val, hk i _ hs, hr⟩

theorem Chosen.move {payload : π} (h : Chosen n status payload) (hk : Kept status status') :
    Chosen n status' payload := by
  obtain ⟨i, hi, hs, hl⟩ := h
  refine ⟨i, hi, hk i _ hs, hl.imp id ?_⟩
  rintro ⟨⟨last, hlast⟩, hbelow⟩
  refine ⟨⟨last, hk _ _ hlast⟩, fun j hj => ?_⟩
  obtain ⟨val, hval⟩ := hbelow j hj
  exact ⟨val, hk j _ hval⟩

theorem LeftWith.move {exit : Exit ρ π} (h : LeftWith n status exit) (hk : Kept status status') :
    LeftWith n status' exit := by
  cases exit with
  | returned results => exact Results.move h hk
  | resumed payload =>
    refine ⟨h.1.move hk, fun i hi => ?_⟩
    obtain ⟨o, ho⟩ := h.2 i hi
    exact ⟨o, hk i o ho⟩
  | unwound => exact h
  | fault f => exact h

/-- The tasks may move as long as none starts before its thread is spawned. -/
theorem ScopeInv.move (h : ScopeInv n status s) (hk : Kept status status')
    (hstay : ∀ i, status i ≠ .idle → status' i ≠ .idle)
    (hidle : ∀ i, status i = .idle → ¬ s.spawned n i → status' i = .idle) :
    ScopeInv n status' s := by
  cases s with
  | spawning next =>
    refine ⟨h.1, fun i hi => hidle i (h.2 i hi) ?_⟩
    simp only [Scope.spawned]
    omega
  | inline => exact hstay _ h
  | joining next results last => exact ⟨h.1, hk _ _ h.2.1, h.2.2.move hk⟩
  | returning results => exact Results.move h hk
  | unwinding payload => exact Chosen.move h hk
  | left exit => exact LeftWith.move h hk

/-! ## The calling thread moves -/

theorem scopeInv_after_inline {result : Except π ρ} (hn : 0 < n)
    (hr : status (n - 1) = .ended result) : ScopeInv n status (Scope.after_inline result) := by
  cases result with
  | ok last => exact ⟨Nat.zero_le _, hr, rfl, fun i hi => absurd hi (Nat.not_lt_zero i)⟩
  | error payload => exact ⟨n - 1, by omega, hr, .inl rfl⟩

theorem Results.snoc {k : Nat} {results : List ρ} {val : ρ} (h : Results k status results)
    (hr : status k = .ended (.ok val)) : Results (k + 1) status (results ++ [val]) := by
  obtain ⟨hlen, hall⟩ := h
  refine ⟨by simp [hlen], fun i hi => ?_⟩
  rcases Nat.lt_succ_iff_lt_or_eq.mp hi with hlt | rfl
  · obtain ⟨v, hv, hget⟩ := hall i hlt
    exact ⟨v, hv, by rw [List.getElem?_append_left (by omega), hget]⟩
  · exact ⟨val, hr, by rw [List.getElem?_append_right (by omega), hlen]; simp⟩

/-- All handles before a join that fails gave values, so its index is the least
that panicked. -/
theorem ScopeInv.join {next : Nat} {results : List ρ} {last : ρ} {result : Except π ρ}
    (h : ScopeInv n status (.joining next results last : Scope ρ π)) (hn : next < n - 1)
    (hr : status next = .ended result) :
    ScopeInv n status (Scope.after_join next results last result) := by
  obtain ⟨-, hlast, hres⟩ := h
  cases result with
  | ok value => exact ⟨hn, hlast, hres.snoc hr⟩
  | error payload =>
    refine ⟨next, by omega, hr, .inr ⟨⟨last, hlast⟩, fun j hj => ?_⟩⟩
    obtain ⟨val, hval, -⟩ := hres.2 j hj
    exact ⟨val, hval⟩

theorem ScopeInv.joined {results : List ρ} {last : ρ} (hn : 0 < n)
    (h : ScopeInv n status (.joining (n - 1) results last : Scope ρ π)) :
    ScopeInv n status (.returning (results ++ [last]) : Scope ρ π) := by
  obtain ⟨-, hlast, hres⟩ := h
  have := hres.snoc hlast
  rwa [Nat.sub_add_cancel hn] at this

/-- The inline task has ended when the closure of the scope unwinds. -/
theorem Chosen.last_ended {payload : π} (h : Chosen n status payload) :
    ∃ o, status (n - 1) = .ended o := by
  obtain ⟨i, -, hs, rfl | ⟨⟨last, hlast⟩, -⟩⟩ := h
  · exact ⟨_, hs⟩
  · exact ⟨_, hlast⟩

theorem Chosen.left {payload : π} (h : Chosen n status payload)
    (hall : ∀ i < n - 1, ∃ o, status i = .ended o) :
    LeftWith n status (.resumed payload : Exit ρ π) := by
  refine ⟨h, fun i hi => ?_⟩
  by_cases hin : i < n - 1
  · exact hall i hin
  · have : i = n - 1 := by omega
    exact this ▸ h.last_ended

/-- The single task of the inline path. -/
theorem leftWith_single {result : Except π ρ} (hr : status 0 = .ended result) :
    LeftWith 1 status (single_exit result) := by
  cases result with
  | ok value =>
    refine ⟨rfl, fun i hi => ?_⟩
    obtain rfl : i = 0 := by omega
    exact ⟨value, hr, rfl⟩
  | error payload =>
    refine ⟨⟨0, by omega, hr, .inl rfl⟩, fun i hi => ?_⟩
    obtain rfl : i = 0 := by omega
    exact ⟨_, hr⟩

end melinoe.driver_core
