-- Every run of a call of `drive`: what each of its steps keeps, that it ends,
-- and what holds at the exit, on every path and under every schedule.
import Melinoe.DriverScoped
import Mathlib.Data.Prod.Lex
import Mathlib.Data.DFinsupp.WellFounded

open tasks runs

namespace melinoe.driver_core

variable {μ κ α ρ π : Type} [Memory μ κ α]

/-! ## What every step keeps -/

def RegisteredInv {ε : Type} (n : Nat) (unwinds : Prop) (status : Nat → Status κ α ε ρ π)
    (st : Registered ρ π) : Prop :=
  match st.exit with
  | none => Executing n status st
  | some exit => Accounted n unwinds status st exit

theorem registeredInv_iff {ε : Type} {n : Nat} {unwinds : Prop} {status : Nat → Status κ α ε ρ π}
    {st : Registered ρ π} (hx : st.exit = none) :
    RegisteredInv n unwinds status st ↔ Executing n status st := by
  unfold RegisteredInv
  rw [hx]

def PathInv {ε : Type} (n : Nat) (unwinds : Prop) (status : Nat → Status κ α ε ρ π) :
    Path ρ π → Prop
  | .loading => ∀ i, status i = .idle
  | .registered st => RegisteredInv n unwinds status st
  | .single none => n = 1
  | .single (some exit) => n = 1 ∧ LeftWith n status exit
  | .threads s => ScopeInv n status s

structure Inv (n : Nat) (unwinds : Prop) (d : Drive μ κ α ρ π) : Prop where
  once : CalledOnce n d.pool
  path : PathInv n unwinds d.pool.status d.path

variable {n : Nat} {run : Nat → Task κ α SlotCall ρ π} {unwinds : Prop}
  {d d' : Drive μ κ α ρ π}

omit [Memory μ κ α] in
theorem inv_init (n : Nat) (unwinds : Prop) (slot : Option Executor) (others : List SlotCall)
    (mem : μ) : Inv n unwinds (Drive.init slot others mem : Drive μ κ α ρ π) :=
  ⟨calledOnce_init n mem, fun _ => rfl⟩

omit [Memory μ κ α] in
theorem Inv.registered {st : Registered ρ π} (h : Inv n unwinds d) (hp : d.path = .registered st)
    (hx : st.exit = none) : Executing n d.pool.status st := by
  have := h.path
  rw [hp] at this
  exact (registeredInv_iff hx).mp this

omit [Memory μ κ α] in
theorem Inv.scoped {s : Scope ρ π} (h : Inv n unwinds d) (hp : d.path = .threads s) :
    ScopeInv n d.pool.status s := by
  have := h.path
  rwa [hp] at this

omit [Memory μ κ α] in
theorem pathInv_driver {ε : Type} {status : Nat → Status κ α ε ρ π} (slot : Option Executor)
    (h : ∀ i, status i = .idle) : PathInv n unwinds status (driver n slot : Path ρ π) := by
  unfold driver
  split
  · exact executing_init h
  · split
    · assumption
    · exact ⟨Nat.zero_le _, fun i _ => h i⟩

/-- A pool move that the path allows keeps what the path says. -/
theorem PathInv.move {ε : Type} {status status' : Nat → Status κ α ε ρ π} {path : Path ρ π}
    (h : PathInv n unwinds status path) (hloading : path ≠ .loading)
    (hexit : ∀ st, path = .registered st → st.exit = none)
    (hk : ∀ i, status' i = status i ∨ (∀ o, status i ≠ .ended o) ∧ status' i ≠ .idle)
    (hidle : ∀ s i, path = .threads s → status i = .idle → ¬ s.spawned n i → status' i = .idle) :
    PathInv n unwinds status' path := by
  have hkept : Kept status status' := fun i o ho => by
    rcases hk i with heq | ⟨hne, -⟩
    · rw [heq, ho]
    · exact absurd ho (hne o)
  cases path with
  | loading => exact absurd rfl hloading
  | registered st =>
    have hx := hexit st rfl
    have hex := (registeredInv_iff hx).mp h
    exact (registeredInv_iff hx).mpr (hex.move fun i _ => (hk i).imp id And.left)
  | single exit =>
    cases exit with
    | none => exact h
    | some exit => exact ⟨h.1, h.2.move hkept⟩
  | threads s =>
    refine ScopeInv.move h hkept (fun i hi => ?_) fun i => hidle s i rfl
    rcases hk i with heq | ⟨-, hne⟩
    · rwa [heq]
    · exact hne

omit [Memory μ κ α] in
/-- Task `i` starts where the path allows it. -/
theorem Inv.start (h : Inv n unwinds d) {i : Nat} (t : Task κ α SlotCall ρ π) (hi : i < n)
    (hidle : d.pool.status i = .idle)
    (hloading : d.path ≠ .loading) (hexit : ∀ st, d.path = .registered st → st.exit = none)
    (hspawned : ∀ s : Scope ρ π, d.path = .threads s → s.spawned n i) :
    Inv n unwinds { d with pool := d.pool.start i t } := by
  refine ⟨calledOnce_start h.once hi hidle t, h.path.move hloading hexit (fun j => ?_)
    fun s j hs hj hns => ?_⟩
  · rcases Pool.start_status d.pool i t j with heq | ⟨rfl, heq⟩
    · exact .inl heq
    · exact .inr ⟨by simp [hidle], by simp [heq]⟩
  · rcases Pool.start_status d.pool i t j with heq | ⟨rfl, -⟩
    · rw [← hj]
      exact heq
    · exact absurd (hspawned s hs) hns

theorem Inv.act (h : Inv n unwinds d) {i : Nat} {call : Option SlotCall}
    {pool : Pool μ κ α SlotCall ρ π} (hx : d.exit = none)
    (ha : d.pool.advance i = some (call, pool)) :
    Inv n unwinds { d with pool, slot := call.getD d.slot } := by
  refine ⟨calledOnce_advance h.once ha, ?_⟩
  by_cases hloading : d.path = .loading
  · obtain ⟨t, s, hs, -⟩ := Pool.advance_cases ha
    have := h.path
    rw [hloading] at this
    rw [this i] at hs
    cases hs
  · refine h.path.move hloading (fun st hst => ?_) (fun j => ?_) fun s j _ hj _ => ?_
    · simpa [Drive.exit, hst] using hx
    · exact (Pool.advance_status ha j).imp id fun ⟨⟨t, ht⟩, hne⟩ => ⟨by simp [ht], hne⟩
    · exact (Pool.advance_idle ha j).mpr hj

theorem RegisteredInv.leave {ε : Type} {status : Nat → Status κ α ε ρ π} {st : Registered ρ π}
    {e : Except Fault (OutBuffer ρ × Exit ρ π)} {out : OutBuffer ρ} {exit : Exit ρ π}
    (he : e = .ok (out, exit)) (h : Accounted n unwinds status (st.leave e) exit) :
    RegisteredInv n unwinds status (st.leave e) := by
  unfold RegisteredInv
  subst he
  exact h

omit [Memory μ κ α] in
theorem Inv.spawned_lt {s : Scope ρ π} {i : Nat} (h : Inv n unwinds d) (hp : d.path = .threads s)
    (hs : s.spawned n i) : i < n := by
  cases s with
  | spawning next =>
    have := (h.scoped hp).1
    simp only [Scope.spawned] at hs
    omega
  | _ => simp only [Scope.spawned] at hs; omega

theorem inv_step (hn : 0 < n) (h : Inv n unwinds d) (hs : Step n run unwinds d d') :
    Inv n unwinds d' := by
  cases hs with
  | other hx ho => exact ⟨h.once, h.path⟩
  | load hp =>
    have := h.path
    rw [hp] at this
    exact ⟨h.once, pathInv_driver d.slot this⟩
  | act i hx ha => exact h.act hx ha
  | start hp hx hi hidle =>
    refine h.start _ hi hidle (by simp [hp]) (fun st hst => ?_) (by simp [hp])
    rw [hp] at hst
    cases hst
    exact hx
  | @wrapper st st' i result hp hx hr hw =>
    have hreg := h.registered hp hx
    have hi : i < n := by
      by_contra hge
      rw [h.once.idle_above i (by omega)] at hr
      cases hr
    obtain ⟨hreg', hx'⟩ := hreg.task_wrapper hi hr hw
    exact ⟨h.once, (registeredInv_iff (hx'.trans hx)).mpr hreg'⟩
  | poison hp hx _ =>
    have hreg := h.registered hp hx
    exact ⟨h.once, (registeredInv_iff (by exact hx)).mpr (hreg.poison true)⟩
  | execute_returns hp hx hall =>
    obtain ⟨out, exit, hrun, hacc⟩ := (h.registered hp hx).after_execute unwinds hall
    exact ⟨h.once, RegisteredInv.leave hrun hacc⟩
  | execute_unwinds hu hp hx hall =>
    obtain ⟨out, hrun, hacc⟩ := (h.registered hp hx).executor_unwound hu hall
    exact ⟨h.once, RegisteredInv.leave hrun hacc⟩
  | single_start hp hidle =>
    exact h.start _ hn hidle (by simp [hp]) (by simp [hp]) (by simp [hp])
  | single_ends hp hr =>
    have hone := h.path
    rw [hp] at hone
    cases hone
    exact ⟨h.once, rfl, leftWith_single hr⟩
  | spawn hp hnext =>
    have hscope := h.scoped hp
    exact ⟨h.once, hnext, fun i hi => hscope.2 i (by omega)⟩
  | @thread_starts s i hp hx hsp hidle =>
    refine h.start _ (h.spawned_lt hp hsp) hidle (by simp [hp]) (by simp [hp]) fun s' hs' => ?_
    rw [hp] at hs'
    cases hs'
    exact hsp
  | inline_starts hp =>
    have hidle := (h.scoped hp).2 (n - 1) (Nat.le_refl _)
    refine ⟨calledOnce_start h.once (by omega) hidle _, ?_⟩
    simp [PathInv, ScopeInv, Pool.start]
  | inline_ends hp hr => exact ⟨h.once, scopeInv_after_inline hn hr⟩
  | join hp hnext hr => exact ⟨h.once, (h.scoped hp).join hnext hr⟩
  | joined hp => exact ⟨h.once, (h.scoped hp).joined hn⟩
  | scope_returns hp hall =>
    have hscope := h.scoped hp
    exact ⟨h.once, hscope⟩
  | scope_unwinds hp hall =>
    have hscope := h.scoped hp
    exact ⟨h.once, Chosen.left hscope hall⟩

theorem inv_of_reaches_init (hn : 0 < n) {slot : Option Executor} {others : List SlotCall}
    {mem : μ} (h : Reaches (Step n run unwinds) (Drive.init slot others mem) d) : Inv n unwinds d :=
  inv_of_reaches h (inv_init n unwinds slot others mem) fun _ _ => inv_step hn

/-- A step leaves the tasks alone, or starts one for the first time, or is one's action. -/
theorem step_pool (hn : 0 < n) (h : Inv n unwinds d) (hs : Step n run unwinds d d') :
    d'.pool = d.pool ∨ Pool.Move run n d.pool d'.pool := by
  cases hs with
  | act i hx ha => exact .inr (.act i ha)
  | start hp hx hi hidle => exact .inr (.start hi hidle)
  | single_start hp hidle => exact .inr (.start hn hidle)
  | @thread_starts s i hp hx hsp hidle => exact .inr (.start (h.spawned_lt hp hsp) hidle)
  | inline_starts hp =>
    exact .inr (.start (by omega) ((h.scoped hp).2 (n - 1) (Nat.le_refl _)))
  | _ => exact .inl rfl

/-- What the tasks do to their pool keeps, a whole call keeps. -/
theorem pool_inv_of_reaches {P : Pool μ κ α SlotCall ρ π → Prop} (hn : 0 < n)
    {slot : Option Executor} {others : List SlotCall} {mem : μ}
    (h : Reaches (Step n run unwinds) (Drive.init slot others mem) d) (h0 : P (Pool.init mem))
    (hm : ∀ p p', P p → Pool.Move run n p p' → P p') : P d.pool := by
  have hboth : Inv n unwinds d ∧ P d.pool := by
    refine inv_of_reaches (I := fun d => Inv n unwinds d ∧ P d.pool) h
      ⟨inv_init n unwinds slot others mem, h0⟩
      fun a b ⟨ha, hpa⟩ hab => ?_
    refine ⟨inv_step hn ha hab, ?_⟩
    rcases step_pool hn ha hab with heq | hmove
    · rw [heq]
      exact hpa
    · exact hm _ _ hpa hmove
  exact hboth.2

/-! ## No run stops before the call is left -/

omit [Memory μ κ α] in
theorem Inv.lt_of_ended (h : Inv n unwinds d) {i : Nat} (hi : d.pool.status i ≠ .idle) : i < n := by
  by_contra hge
  exact hi (h.once.idle_above i (by omega))

/-- In a stopped state that is not an exit, every task whose thread is there has ended. -/
theorem ended_of_stopped (hst : Stopped (Step n run unwinds) d) (hx : d.exit = none) {i : Nat}
    (hstart : d.pool.status i = .idle → ∃ d', Step n run unwinds d d') :
    ∃ o, d.pool.status i = .ended o := by
  cases hs : d.pool.status i with
  | idle =>
    obtain ⟨d', hd⟩ := hstart hs
    exact absurd hd (hst d')
  | running t =>
    obtain ⟨e, p, hp⟩ := Pool.advance_of_running hs
    exact absurd (.act i hx hp) (hst _)
  | ended o => exact ⟨o, rfl⟩

theorem registered_progress (h : Inv n unwinds d) {st : Registered ρ π}
    (hp : d.path = .registered st) (hx : st.exit = none) : ¬ Stopped (Step n run unwinds) d := by
  intro hst
  have hdx : d.exit = none := by simp [Drive.exit, hp, hx]
  have hex := h.registered hp hx
  have hend : ∀ i < n, ∃ o, d.pool.status i = .ended o := fun i hi =>
    ended_of_stopped hst hdx fun hidle => ⟨_, .start hp hx hi hidle⟩
  have hdone : ∀ i < n, st.wrapper i = .done := by
    intro i hi
    by_contra hne
    obtain ⟨o, ho⟩ := hend i hi
    obtain ⟨j, -, o', hj, hw⟩ := hex.wrapper_ready hi ho hne
    obtain ⟨st', hst'⟩ := Option.isSome_iff_exists.mp hw
    exact hst _ (.wrapper hp hx hj hst')
  exact hst _ (.execute_returns hp hx hdone)

theorem single_progress (hp : d.path = .single none) : ¬ Stopped (Step n run unwinds) d := by
  intro hst
  obtain ⟨o, ho⟩ := ended_of_stopped (i := 0) hst (by simp [Drive.exit, hp]) fun hidle =>
    ⟨_, .single_start hp hidle⟩
  exact hst _ (.single_ends hp ho)

theorem scoped_progress (h : Inv n unwinds d) {s : Scope ρ π} (hp : d.path = .threads s)
    (hx : d.exit = none) : ¬ Stopped (Step n run unwinds) d := by
  intro hst
  have hscope := h.scoped hp
  have hend : ∀ i, s.spawned n i → ∃ o, d.pool.status i = .ended o := fun i hi =>
    ended_of_stopped hst hx fun hidle => ⟨_, .thread_starts hp hx hi hidle⟩
  cases s with
  | spawning next =>
    rcases Nat.lt_or_eq_of_le hscope.1 with hlt | rfl
    · exact hst _ (.spawn hp hlt)
    · exact hst _ (.inline_starts hp)
  | inline =>
    obtain ⟨o, ho⟩ := ended_of_stopped hst hx fun hidle => absurd hidle hscope
    exact hst _ (.inline_ends hp ho)
  | joining next results last =>
    rcases Nat.lt_or_eq_of_le hscope.1 with hlt | rfl
    · obtain ⟨o, ho⟩ := hend next hlt
      exact hst _ (.join hp hlt ho)
    · exact hst _ (.joined hp)
  | returning results => exact hst _ (.scope_returns hp hend)
  | unwinding payload => exact hst _ (.scope_unwinds hp hend)
  | left exit => simp [Drive.exit, hp] at hx

theorem exit_of_stopped (h : Inv n unwinds d) (hst : Stopped (Step n run unwinds) d) :
    ∃ exit, d.exit = some exit := by
  rw [← Option.ne_none_iff_exists']
  intro hx
  cases hp : d.path with
  | loading => exact hst _ (.load hp)
  | registered st => exact registered_progress h hp (by simpa [Drive.exit, hp] using hx) hst
  | single exit =>
    obtain rfl : exit = none := by simpa [Drive.exit, hp] using hx
    exact single_progress hp hst
  | threads s => exact scoped_progress h hp hx hst

/-! ## Every run stops -/

def Wrapper.left : Wrapper → Nat
  | .caught => 3
  | .locked => 2
  | .wrote => 1
  | .stored => 1
  | .done => 0

def Path.wrapper : Path ρ π → Nat → Wrapper
  | .registered st => st.wrapper
  | _ => fun _ => .caught

def Scope.stepsLeft (n : Nat) : Scope ρ π → Nat
  | .spawning next => 2 * n + 5 - next
  | .inline => n + 4
  | .joining next _ _ => n + 3 - next
  | .returning _ => 1
  | .unwinding _ => 1
  | .left _ => 0

def Path.left (n : Nat) : Path ρ π → Nat
  | .loading => 2 * n + 6
  | .registered st => st.exit.elim 1 (fun _ => 0) + (!st.panic_payload.poisoned).toNat
  | .single exit => exit.elim 1 fun _ => 0
  | .threads s => s.stepsLeft n

/-- First the tasks, then the wrappers, then the calling thread and the others. -/
noncomputable def Drive.left (n : Nat) (d : Drive μ κ α ρ π) :
    (Fin n → Ordinal) ×ₗ (Fin n → Nat) ×ₗ Nat :=
  toLex (d.pool.left n, toLex (fun i => (d.path.wrapper i).left, d.path.left n + d.others.length))

omit [Memory μ κ α] in
theorem left_of_pool (h : d'.pool.left n < d.pool.left n) : d'.left n < d.left n :=
  Prod.Lex.left _ _ h

omit [Memory μ κ α] in
theorem left_of_path (hp : d'.pool = d.pool) (hw : d'.path.wrapper = d.path.wrapper)
    (h : d'.path.left n + d'.others.length < d.path.left n + d.others.length) :
    d'.left n < d.left n := by
  unfold Drive.left
  rw [hp, hw]
  exact Prod.Lex.right _ (Prod.Lex.right _ h)

omit [Memory μ κ α] in
/-- Each action of a wrapper brings its task's wrapper closer to the end. -/
theorem left_of_wrapper {st st' : Registered ρ π} {i : Nat} (hi : i < n) {pc : Wrapper}
    (hp : d.path = .registered st) (hw : st'.wrapper = Function.update st.wrapper i pc)
    (h : pc.left < (st.wrapper i).left) : Drive.left n { d with path := .registered st' } <
      d.left n := by
  refine Prod.Lex.right _ (Prod.Lex.left _ _ (Pi.lt_def.mpr ⟨fun j => ?_, ⟨i, hi⟩, ?_⟩))
  · simp only [Path.wrapper, hp, hw]
    by_cases hj : (j : Nat) = i
    · rw [hj, Function.update_self]
      exact h.le
    · rw [Function.update_of_ne hj]
  · simp only [Path.wrapper, hp, hw, Function.update_self]
    exact h

theorem left_step (hn : 0 < n) (h : Inv n unwinds d) (hs : Step n run unwinds d d') :
    d'.left n < d.left n := by
  cases hs with
  | other hx ho => exact left_of_path rfl rfl (by simp [ho])
  | load hp =>
    refine left_of_path rfl ?_ ?_
    · rw [hp]
      unfold driver
      split
      · rfl
      · split <;> rfl
    · rw [hp]
      unfold driver
      split
      · simp [Path.left, Registered.init, PanicPayloadMutex.new]
      · split <;> simp [Path.left, Scope.stepsLeft]
  | act i hx ha =>
    obtain ⟨t, s, hs, -⟩ := Pool.advance_cases ha
    exact left_of_pool (left_advance_lt (h.lt_of_ended (by simp [hs])) ha)
  | start hp hx hi hidle => exact left_of_pool (left_start_lt hi hidle _)
  | @wrapper st st' i result hp hx hr hw =>
    have hi := h.lt_of_ended (i := i) (by simp [hr])
    have hreg' := ((h.registered hp hx).task_wrapper hi hr hw).2
    rcases task_wrapper_cases hw with ⟨val, rfl, hc, hout⟩ | ⟨val, rfl, hc, rfl⟩ |
      ⟨q, rfl, hc, -, rfl⟩ | ⟨q, rfl, hc, rfl⟩ | ⟨q, rfl, hc, rfl⟩
    · rcases hout with ⟨out, -, rfl⟩ | ⟨f, -, rfl⟩
      · exact left_of_wrapper hi hp rfl (by simp [hc, Wrapper.left])
      · simp [hx] at hreg'
    all_goals exact left_of_wrapper hi hp rfl (by simp [hc, Wrapper.left])
  | poison hp hx hpo =>
    refine left_of_path rfl (by simp [hp, Path.wrapper]) ?_
    simp [hp, Path.left, hpo]
  | execute_returns hp hx hall =>
    obtain ⟨out, exit, hrun, -⟩ := (h.registered hp hx).after_execute unwinds hall
    refine left_of_path rfl (by simp [hp, hrun, Path.wrapper, Registered.leave]) ?_
    simp [hp, hrun, Path.left, Registered.leave, hx]
  | execute_unwinds hu hp hx hall =>
    obtain ⟨out, hrun, -⟩ := (h.registered hp hx).executor_unwound hu hall
    refine left_of_path rfl (by simp [hp, hrun, Path.wrapper, Registered.leave]) ?_
    simp [hp, hrun, Path.left, Registered.leave, hx]
  | single_start hp hidle => exact left_of_pool (left_start_lt hn hidle _)
  | single_ends hp hr =>
    exact left_of_path rfl (by simp [hp, Path.wrapper]) (by simp [hp, Path.left])
  | spawn hp hnext =>
    refine left_of_path rfl (by simp [hp, Path.wrapper]) ?_
    simp only [hp, Path.left, Scope.stepsLeft]
    omega
  | thread_starts hp hx hsp hidle =>
    exact left_of_pool (left_start_lt (h.spawned_lt hp hsp) hidle _)
  | inline_starts hp =>
    have hidle := (h.scoped hp).2 (n - 1) (Nat.le_refl _)
    exact left_of_pool (left_start_lt (by omega) hidle _)
  | @inline_ends result hp hr =>
    refine left_of_path rfl (by simp [hp, Path.wrapper]) ?_
    cases result <;> simp [hp, Path.left, Scope.stepsLeft, Scope.after_inline]
  | @join next results last result hp hnext hr =>
    refine left_of_path rfl (by simp [hp, Path.wrapper]) ?_
    cases result <;> simp only [hp, Path.left, Scope.stepsLeft, Scope.after_join] <;> omega
  | joined hp =>
    refine left_of_path rfl (by simp [hp, Path.wrapper]) ?_
    simp only [hp, Path.left, Scope.stepsLeft]
    omega
  | scope_returns hp hall =>
    exact left_of_path rfl (by simp [hp, Path.wrapper]) (by simp [hp, Path.left, Scope.stepsLeft])
  | scope_unwinds hp hall =>
    exact left_of_path rfl (by simp [hp, Path.wrapper]) (by simp [hp, Path.left, Scope.stepsLeft])

/-- Whatever the schedule, the call ends, and it ends at an exit. -/
theorem drive_ends (hn : 0 < n) (slot : Option Executor) (others : List SlotCall) (mem : μ) :
    Ends (Step n run unwinds) (fun d => Inv n unwinds d ∧ ∃ exit, d.exit = some exit)
      (Drive.init slot others mem) :=
  ends_of_measure (I := Inv n unwinds) (Drive.left n) (fun _ _ => inv_step hn)
    (fun _ _ => left_step hn) (fun _ h hst => ⟨h, exit_of_stopped h hst⟩)
    (inv_init n unwinds slot others mem)

/-! ## The exits -/

omit [Memory μ κ α] in
/-- An exit from a path without an executor. -/
theorem Inv.leftWith {exit : Exit ρ π} (h : Inv n unwinds d) (hx : d.exit = some exit)
    (hr : ∀ st, d.path ≠ .registered st) : LeftWith n d.pool.status exit := by
  have hpath := h.path
  unfold Drive.exit at hx
  cases hp : d.path with
  | loading => simp [hp] at hx
  | registered st => exact absurd hp (hr st)
  | single e =>
    simp only [hp] at hx hpath
    subst hx
    obtain ⟨rfl, hleft⟩ := hpath
    exact hleft
  | threads s =>
    cases s with
    | left e =>
      simp only [hp, Option.some.injEq] at hx hpath
      exact hx ▸ hpath
    | _ => simp [hp] at hx

omit [Memory μ κ α] in
theorem Inv.accounted {st : Registered ρ π} {exit : Exit ρ π} (h : Inv n unwinds d)
    (hp : d.path = .registered st) (hx : st.exit = some exit) :
    Accounted n unwinds d.pool.status st exit := by
  have hpath : RegisteredInv n unwinds d.pool.status st := by
    have := h.path
    rwa [hp] at this
  unfold RegisteredInv at hpath
  rwa [hx] at hpath

omit [Memory μ κ α] in
theorem Inv.returned {results : List ρ} (h : Inv n unwinds d)
    (hx : d.exit = some (.returned results)) : Results n d.pool.status results := by
  by_cases hr : ∃ st, d.path = .registered st
  · obtain ⟨st, hp⟩ := hr
    have hacc := h.accounted hp (by simpa [Drive.exit, hp] using hx)
    exact hacc.1
  · exact h.leftWith hx (not_exists.mp hr)

omit [Memory μ κ α] in
theorem Inv.resumed {payload : π} (h : Inv n unwinds d) (hx : d.exit = some (.resumed payload)) :
    (∀ i < n, ∃ o, d.pool.status i = .ended o) ∧
      ∃ i < n, d.pool.status i = .ended (.error payload) := by
  by_cases hr : ∃ st, d.path = .registered st
  · obtain ⟨st, hp⟩ := hr
    obtain ⟨hall, horder, ⟨i, hi, hs⟩, -⟩ := h.accounted hp (by simpa [Drive.exit, hp] using hx)
    exact ⟨hall, i, ((horder i).mp (List.mem_of_mem_head? hi)).1, hs⟩
  · obtain ⟨⟨i, hi, hs, -⟩, hall⟩ := h.leftWith hx (not_exists.mp hr)
    exact ⟨hall, i, hi, hs⟩

omit [Memory μ κ α] in
theorem Inv.no_fault (h : Inv n unwinds d) (f : Fault) : d.exit ≠ some (.fault f) := by
  intro hx
  by_cases hr : ∃ st, d.path = .registered st
  · obtain ⟨st, hp⟩ := hr
    exact h.accounted hp (by simpa [Drive.exit, hp] using hx)
  · exact h.leftWith hx (not_exists.mp hr)

omit [Memory μ κ α] in
/-- `drive` returns only when every task has, so no task panicked. -/
theorem Results.no_panic {ε : Type} {status : Nat → Status κ α ε ρ π} {results : List ρ}
    (h : Results n status results) {i : Nat} (hi : i < n) (q : π) :
    status i ≠ .ended (.error q) := by
  obtain ⟨val, hval, -⟩ := h.2 i hi
  simp [hval]

omit [Memory μ κ α] in
/-- An executor that does not unwind gives no exit of its own. -/
theorem Inv.not_unwound (h : Inv n unwinds d) (hu : ¬ unwinds) : d.exit ≠ some .unwound := by
  intro hx
  by_cases hr : ∃ st, d.path = .registered st
  · obtain ⟨st, hp⟩ := hr
    have hacc := h.accounted hp (by simpa [Drive.exit, hp] using hx)
    exact hu hacc.1
  · exact h.leftWith hx (not_exists.mp hr)

omit [Memory μ κ α] in
/-- Every exit of a call whose executor returns: the results, or a panic. -/
theorem Inv.exit_cases {exit : Exit ρ π} (h : Inv n unwinds d) (hu : ¬ unwinds)
    (hx : d.exit = some exit) :
    (∃ results, exit = .returned results) ∨ ∃ payload, exit = .resumed payload := by
  cases exit with
  | returned results => exact .inl ⟨results, rfl⟩
  | resumed payload => exact .inr ⟨payload, rfl⟩
  | unwound => exact absurd hx (h.not_unwound hu)
  | fault f => exact absurd hx (h.no_fault f)

omit [Memory μ κ α] in
/-- At an exit of a call whose executor returns every task has ended. -/
theorem Inv.all_ended {exit : Exit ρ π} (h : Inv n unwinds d) (hu : ¬ unwinds)
    (hx : d.exit = some exit) : ∀ i < n, ∃ o, d.pool.status i = .ended o := by
  rcases h.exit_cases hu hx with ⟨results, rfl⟩ | ⟨payload, rfl⟩
  · intro i hi
    obtain ⟨val, hval, -⟩ := (h.returned hx).2 i hi
    exact ⟨_, hval⟩
  · exact (h.resumed hx).1

omit [Memory μ κ α] in
/-- Each of the `n` indices was called, and once. -/
theorem Inv.calls_perm (h : Inv n unwinds d)
    (hall : ∀ i < n, ∃ o, d.pool.status i = .ended o) :
    (d.pool.calls.map (·.1)).Perm (List.range n) := by
  refine (List.perm_ext_iff_of_nodup h.once.nodup List.nodup_range).mpr fun i => ?_
  rw [h.once.called i, List.mem_range]
  refine ⟨h.lt_of_ended, fun hi => ?_⟩
  obtain ⟨o, ho⟩ := hall i hi
  simp [ho]

/-! ## An index that has the executor to itself -/

/-- `task_wrapper` has written the value and set the flag. -/
def Registered.keep (st : Registered ρ π) (index : Nat) (val : ρ) : Registered ρ π :=
  { st with
    out.slots := st.out.slots.set index (some val)
    successful := st.successful.set index true
    wrapper := Function.update st.wrapper index .done }

/-- `task_wrapper` has been at the mutex with the payload. -/
def Registered.report (st : Registered ρ π) (index : Nat) (payload : π) : Registered ρ π :=
  { st with
    panic_payload.value := if st.panic_payload.value.isNone then some payload
      else st.panic_payload.value
    panic_payload.holder := none
    wrapper := Function.update st.wrapper index .done
    lock_order := st.lock_order ++ [index] }

/-- The index has run from its start to `result`. -/
def Drive.ran (d : Drive μ κ α ρ π) (index : Nat) (result : Except π ρ) (st : Registered ρ π) :
    Drive μ κ α ρ π :=
  { d with
    pool.status := Function.update d.pool.status index (.ended result)
    pool.calls := d.pool.calls ++ [(index, d.pool.mem)]
    path := .registered st }

section alone

variable {st : Registered ρ π} {index : Nat}

/-- A task that only ends, up to what `catch_unwind` gives. -/
theorem reaches_result {result : Except π ρ} (hp : d.path = .registered st) (hx : st.exit = none)
    (hi : index < n) (hidle : d.pool.status index = .idle)
    (hrun : run index = match result with | .ok val => .ret val | .error q => .panic q) :
    Reaches (Step n run unwinds) d (d.ran index result st) := by
  let started : Drive μ κ α ρ π := { d with pool := d.pool.start index (run index) }
  have hstart : Step n run unwinds d started := .start hp hx hi hidle
  have hact : started.pool.advance index = some (none, (d.ran index result st).pool) := by
    simp only [started, hrun]
    cases result <;> simp [Pool.advance, Pool.start, Drive.ran]
  have hdx : started.exit = none := by simp [Drive.exit, started, hp, hx]
  have hend : Step n run unwinds started { started with pool := (d.ran index result st).pool } :=
    .act index hdx hact
  refine (Relation.ReflTransGen.single hstart).tail ?_
  simpa [started, Drive.ran, hp] using hend

theorem reaches_kept {val : ρ} (hp : d.path = .registered st) (hx : st.exit = none)
    (hr : d.pool.status index = .ended (.ok val)) (hw : st.wrapper index = .caught)
    (hlen : index < st.out.slots.length) (hrel : st.out.released = []) :
    Reaches (Step n run unwinds) d { d with path := .registered (st.keep index val) } := by
  let wrote : Registered ρ π := { st with
    out.slots := st.out.slots.set index (some val)
    wrapper := Function.update st.wrapper index .wrote }
  have hwrite : task_wrapper index (.ok val) st = some wrote := by
    simp [task_wrapper, hw, OutBuffer.write, hlen, hrel, wrote]
  have hflag : task_wrapper index (.ok val) wrote = some (st.keep index val) := by
    simp [task_wrapper, wrote, Registered.keep]
  have h1 : Step n run unwinds d { d with path := .registered wrote } := .wrapper hp hx hr hwrite
  have h2 : Step n run unwinds { d with path := .registered wrote }
      { d with path := .registered (st.keep index val) } := .wrapper rfl hx hr hflag
  exact (Relation.ReflTransGen.single h1).tail h2

theorem reaches_reported {payload : π} (hp : d.path = .registered st) (hx : st.exit = none)
    (hr : d.pool.status index = .ended (.error payload)) (hw : st.wrapper index = .caught)
    (hfree : st.panic_payload.holder = none) :
    Reaches (Step n run unwinds) d { d with path := .registered (st.report index payload) } := by
  let locked : Registered ρ π := { st with
    panic_payload.holder := some index
    wrapper := Function.update st.wrapper index .locked
    lock_order := st.lock_order ++ [index] }
  let stored : Registered ρ π := { locked with
    panic_payload.value := if st.panic_payload.value.isNone then some payload
      else st.panic_payload.value
    wrapper := Function.update locked.wrapper index .stored }
  have hlock : task_wrapper index (.error payload) st = some locked := by
    simp [task_wrapper, hw, hfree, locked]
  have hstore : task_wrapper index (.error payload) locked = some stored := by
    simp [task_wrapper, locked, stored]
  have hunlock : task_wrapper index (.error payload) stored = some (st.report index payload) := by
    simp [task_wrapper, stored, locked, Registered.report]
  have h1 : Step n run unwinds d { d with path := .registered locked } := .wrapper hp hx hr hlock
  have h2 : Step n run unwinds { d with path := .registered locked }
      { d with path := .registered stored } := .wrapper rfl hx hr hstore
  have h3 : Step n run unwinds { d with path := .registered stored }
      { d with path := .registered (st.report index payload) } := .wrapper rfl hx hr hunlock
  exact (Relation.ReflTransGen.single h1).tail h2 |>.tail h3

/-- Task `index` returns `val` and is done before anything else happens. -/
theorem reaches_returned {val : ρ} (hp : d.path = .registered st) (hx : st.exit = none)
    (hi : index < n) (hidle : d.pool.status index = .idle) (hrun : run index = .ret val)
    (hw : st.wrapper index = .caught) (hlen : index < st.out.slots.length)
    (hrel : st.out.released = []) :
    Reaches (Step n run unwinds) d (d.ran index (.ok val) (st.keep index val)) :=
  (reaches_result hp hx hi hidle hrun).trans
    (reaches_kept rfl hx (Function.update_self ..) hw hlen hrel)

/-- Task `index` panics with `payload` and is done before anything else happens. -/
theorem reaches_panicked {payload : π} (hp : d.path = .registered st) (hx : st.exit = none)
    (hi : index < n) (hidle : d.pool.status index = .idle) (hrun : run index = .panic payload)
    (hw : st.wrapper index = .caught) (hfree : st.panic_payload.holder = none) :
    Reaches (Step n run unwinds) d (d.ran index (.error payload) (st.report index payload)) :=
  (reaches_result hp hx hi hidle hrun).trans
    (reaches_reported rfl hx (Function.update_self ..) hw hfree)

end alone

/-! ## The accounts of the registered path -/

/-- On the registered path each value that a task produced is, at the exit,
either in its place of the returned results or dropped, once, and the buffer is
released once. Until then nothing is dropped or released. -/
theorem every_produced_value_is_returned_or_dropped_once (hn : 0 < n)
    (run : Nat → Task κ α SlotCall ρ π) (unwinds : Prop) (slot : Option Executor)
    (others : List SlotCall) (mem : μ) :
    Ends (Step n run unwinds) (fun d => ∃ exit, d.exit = some exit)
      (Drive.init slot others mem) ∧
    ∀ d st, Reaches (Step n run unwinds) (Drive.init slot others mem) d →
      d.path = .registered st →
      (st.exit = none → st.out.dropped = [] ∧ st.out.released = []) ∧
      ∀ exit, st.exit = some exit →
        (∀ f, exit ≠ .fault f) ∧
        ((∃ results, exit = .returned results) ↔
          exit ≠ .unwound ∧ ∀ i < n, ∀ q, d.pool.status i ≠ .ended (.error q)) ∧
        (∀ results, exit = .returned results →
          Results n d.pool.status results ∧ st.out.dropped = [] ∧ st.out.released = [.handed]) ∧
        ((∀ results, exit ≠ .returned results) →
          (st.out.dropped.map (·.1)).Nodup ∧
          (∀ i val, (i, val) ∈ st.out.dropped ↔ i < n ∧ d.pool.status i = .ended (.ok val)) ∧
          st.out.released = [.freed]) := by
  refine ⟨(drive_ends hn slot others mem).mono fun _ _ h => h.2, fun d st hreach hp => ?_⟩
  have hinv : Inv n unwinds d := inv_of_reaches_init hn hreach
  refine ⟨fun hx => ?_, fun exit hx => ?_⟩
  · have hex := hinv.registered hp hx
    exact ⟨hex.undropped, hex.unreleased⟩
  have hacc := hinv.accounted hp hx
  cases exit with
  | returned results =>
    obtain ⟨hres, hdrop, hrel⟩ := hacc
    refine ⟨by simp, ⟨fun _ => ⟨by simp, fun i hi q => hres.no_panic hi q⟩, fun _ => ⟨_, rfl⟩⟩,
      fun r hr => ?_, fun hne => absurd rfl (hne results)⟩
    cases hr
    exact ⟨hres, hdrop, hrel⟩
  | resumed payload =>
    obtain ⟨-, horder, ⟨i, hi, hs⟩, hdrop, hrel⟩ := hacc
    have hin := ((horder i).mp (List.mem_of_mem_head? hi)).1
    refine ⟨by simp, ⟨by simp, fun hnone => absurd hs (hnone.2 i hin payload)⟩, by simp,
      fun _ => ⟨?_, fun _ _ => ?_, hrel⟩⟩ <;> rw [hdrop]
    · exact produced_nodup n d.pool.status
    · exact mem_produced
  | unwound =>
    obtain ⟨-, -, hdrop, hrel⟩ := hacc
    refine ⟨by simp, ⟨by simp, fun hnone => absurd rfl hnone.1⟩, by simp,
      fun _ => ⟨?_, fun _ _ => ?_, hrel⟩⟩ <;> rw [hdrop]
    · exact produced_nodup n d.pool.status
    · exact mem_produced
  | fault f => exact hacc.elim

/-- Task 0 returns, every other task panics. -/
def one_returns (index : Nat) : Task Nat Nat SlotCall Nat Nat :=
  if index = 0 then .ret 7 else .panic index

/-- The 7 that task 0 has returned is dropped once when the panic of task 1 is raised
again, on a call that has loaded an executor. -/
theorem one_returns_ends :
    Ends (Step 2 one_returns True) (fun d => ∃ exit, d.exit = some exit)
      (Drive.init (some ⟨0⟩) [none] [5] : Drive (List Nat) Nat Nat Nat Nat) ∧
    ∃ (d : Drive (List Nat) Nat Nat Nat Nat) (st : Registered Nat Nat),
      Reaches (Step 2 one_returns True) (Drive.init (some ⟨0⟩) [none] [5]) d ∧
      d.path = .registered st ∧ st.exit = some (.resumed 1) ∧ (0, 7) ∈ st.out.dropped ∧
      (st.out.dropped.map (·.1)).Nodup ∧ st.out.released = [.freed] := by
  have haccounts := every_produced_value_is_returned_or_dropped_once (n := 2) (by decide)
    one_returns True (some ⟨0⟩) [none] ([5] : List Nat)
  let loaded : Drive (List Nat) Nat Nat Nat Nat :=
    ⟨some ⟨0⟩, [none], .init [5], .registered (.init 2)⟩
  let kept : Registered Nat Nat := (Registered.init 2).keep 0 7
  let last : Registered Nat Nat := kept.report 1 1
  have hload : Step 2 one_returns True (Drive.init (some ⟨0⟩) [none] [5]) loaded := .load rfl
  have hreturned : Reaches (Step 2 one_returns True) loaded (loaded.ran 0 (.ok 7) kept) :=
    reaches_returned rfl rfl (by decide) rfl rfl rfl (by decide) rfl
  have hpanicked : Reaches (Step 2 one_returns True) (loaded.ran 0 (.ok 7) kept)
      ((loaded.ran 0 (.ok 7) kept).ran 1 (.error 1) last) :=
    reaches_panicked rfl rfl (by decide) rfl rfl rfl rfl
  have hleave : Step 2 one_returns True ((loaded.ran 0 (.ok 7) kept).ran 1 (.error 1) last)
      { (loaded.ran 0 (.ok 7) kept).ran 1 (.error 1) last with
        path := .registered (last.leave (last.after_execute 2)) } := by
    refine .execute_returns rfl rfl fun index hi => ?_
    match index, hi with
    | 0, _ => rfl
    | 1, _ => rfl
  have hrun := (Relation.ReflTransGen.single hload).trans (hreturned.trans hpanicked) |>.tail hleave
  obtain ⟨-, -, -, hdropped⟩ := (haccounts.2 _ _ hrun rfl).2 (.resumed 1) rfl
  obtain ⟨honce, hvalues, hfreed⟩ := hdropped nofun
  exact ⟨haccounts.1, _, _, hrun, rfl, rfl, (hvalues 0 7).mpr ⟨by decide, rfl⟩, honce, hfreed⟩

end melinoe.driver_core
