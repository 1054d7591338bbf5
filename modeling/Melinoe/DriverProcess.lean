-- The calls of `drive` that one process makes, in any order and at once: they share
-- the global slot, each loads it once, and their tasks may register and clear too.
-- To one call the others are threads that make calls on the slot.
import Melinoe.DriverRuns

open tasks runs

namespace melinoe.driver_core

/-! ## One call among others -/

section call

variable {μ κ α ρ π : Type} [Memory μ κ α] {n : Nat} {run : Nat → Task κ α SlotCall ρ π}
  {unwinds : Prop} {d d' : Drive μ κ α ρ π}

/-- What runs the tasks of a call. -/
inductive Driver
  | executor
  | inline
  | scoped
deriving DecidableEq

/-- The driver that the call has started with. -/
def Path.driver : Path ρ π → Option Driver
  | .loading => none
  | .registered _ => some .executor
  | .single _ => some .inline
  | .threads _ => some .scoped

theorem step_driver (h : Step n run unwinds d d') (hp : d.path ≠ .loading) :
    d'.path.driver = d.path.driver := by
  cases h with
  | load hl => exact absurd hl hp
  | other | act | start | single_start | thread_starts => rfl
  | wrapper h | poison h | execute_returns h | execute_unwinds _ h => simp [h, Path.driver]
  | single_ends h => simp [h, Path.driver]
  | spawn h | inline_starts h | inline_ends h | join h | joined h => simp [h, Path.driver]
  | scope_returns h | scope_unwinds h => simp [h, Path.driver]

/-- A call that was left makes no step. -/
theorem exit_of_step (h : Step n run unwinds d d') : d.exit = none := by
  cases h with
  | other hx | act _ hx | thread_starts _ hx => exact hx
  | start h hx | wrapper h hx | poison h hx => simp [Drive.exit, h, hx]
  | execute_returns h hx | execute_unwinds _ h hx => simp [Drive.exit, h, hx]
  | load h | single_start h | single_ends h | spawn h => simp [Drive.exit, h]
  | inline_starts h | inline_ends h | join h | joined h => simp [Drive.exit, h]
  | scope_returns h | scope_unwinds h => simp [Drive.exit, h]

/-- The same call, with more threads that make calls on the slot later on. -/
def Drive.beside (d : Drive μ κ α ρ π) (more : List SlotCall) : Drive μ κ α ρ π :=
  { d with others := d.others ++ more }

theorem step_beside (h : Step n run unwinds d d') (more : List SlotCall) :
    Step n run unwinds (d.beside more) (d'.beside more) := by
  cases h with
  | other hx h => exact .other hx (by simp [Drive.beside, h])
  | load h => exact .load h
  | act i hx h => exact .act i hx h
  | start h hx hi hidle => exact .start h hx hi hidle
  | wrapper h hx hr hw => exact .wrapper h hx hr hw
  | poison h hx hp => exact .poison h hx hp
  | execute_returns h hx hall => exact .execute_returns h hx hall
  | execute_unwinds hu h hx hall => exact .execute_unwinds hu h hx hall
  | single_start h hidle => exact .single_start h hidle
  | single_ends h hr => exact .single_ends h hr
  | spawn h hn => exact .spawn h hn
  | thread_starts h hx hs hidle => exact .thread_starts h hx hs hidle
  | inline_starts h => exact .inline_starts h
  | inline_ends h hr => exact .inline_ends h hr
  | join h hn hr => exact .join h hn hr
  | joined h => exact .joined h
  | scope_returns h hall => exact .scope_returns h hall
  | scope_unwinds h hall => exact .scope_unwinds h hall

theorem reaches_beside {slot : Option Executor} {others : List SlotCall} {mem : μ}
    (h : Reaches (Step n run unwinds) (Drive.init slot others mem) d) (more : List SlotCall) :
    Reaches (Step n run unwinds) (Drive.init slot (others ++ more) mem) (d.beside more) :=
  Relation.ReflTransGen.lift (Drive.beside · more) (fun _ _ hs => step_beside hs more) _ _ h

/-- Only the calls of other threads are taken off the list of them. -/
theorem step_others (h : Step n run unwinds d d') (ho : d.others = []) : d'.others = [] := by
  cases h with
  | other hx h => simp [ho] at h
  | _ => exact ho

end call

/-! ## The calls of a process -/

/-- The tasks of a call and its calling thread. -/
structure CallState (μ κ α ρ π : Type) where
  pool : Pool μ κ α SlotCall ρ π
  path : Path ρ π

variable {ι : Type} {μ κ α ρ π : ι → Type}

/-- `loads` lists the calls that loaded the slot, and what it held, first to last. -/
structure Process (ι : Type) (μ κ α ρ π : ι → Type) where
  slot : Option Executor
  others : List SlotCall
  calls : (k : ι) → CallState (μ k) (κ k) (α k) (ρ k) (π k)
  loads : List (ι × Option Executor)

namespace Process

def init (slot : Option Executor) (others : List SlotCall) (mem : (k : ι) → μ k) :
    Process ι μ κ α ρ π :=
  ⟨slot, others, fun k => ⟨Pool.init (mem k), .loading⟩, []⟩

/-- The call `k` as it stands on the slot. -/
def call (p : Process ι μ κ α ρ π) (k : ι) : Drive (μ k) (κ k) (α k) (ρ k) (π k) :=
  ⟨p.slot, [], (p.calls k).pool, (p.calls k).path⟩

variable [DecidableEq ι] [∀ k, Memory (μ k) (κ k) (α k)]

/-- A thread outside the calls registers or clears, or one call takes a step on the
slot as it is. A call that is not made yet has not loaded the slot. -/
inductive Step (n : ι → Nat) (run : (k : ι) → Nat → Task (κ k) (α k) SlotCall (ρ k) (π k))
    (unwinds : ι → Prop) : Process ι μ κ α ρ π → Process ι μ κ α ρ π → Prop
  | other {p : Process ι μ κ α ρ π} {call : SlotCall} {rest : List SlotCall}
      (h : p.others = call :: rest) :
      Step n run unwinds p { p with slot := call, others := rest }
  | load {p : Process ι μ κ α ρ π} {k : ι} (h : (p.calls k).path = .loading) :
      Step n run unwinds p { p with
        calls := Function.update p.calls k { p.calls k with path := driver (n k) p.slot }
        loads := p.loads ++ [(k, p.slot)] }
  | call {p : Process ι μ κ α ρ π} {k : ι} {d : Drive (μ k) (κ k) (α k) (ρ k) (π k)}
      (hl : (p.calls k).path ≠ .loading)
      (h : driver_core.Step (n k) (run k) (unwinds k) (p.call k) d) :
      Step n run unwinds p { p with
        slot := d.slot
        calls := Function.update p.calls k ⟨d.pool, d.path⟩ }

end Process

variable {n : ι → Nat} {run : (k : ι) → Nat → Task (κ k) (α k) SlotCall (ρ k) (π k)}
  {unwinds : ι → Prop} {slot : Option Executor} {others : List SlotCall} {mem : (k : ι) → μ k}
  {p p' : Process ι μ κ α ρ π} {k : ι}

/-! ## Each call is a run of `drive` -/

section alone

variable [∀ k, Memory (μ k) (κ k) (α k)]

/-- The call `k` is where it would be by itself, next to threads that make the slot
calls `others`. -/
def Alone (n : ι → Nat) (run : (k : ι) → Nat → Task (κ k) (α k) SlotCall (ρ k) (π k))
    (unwinds : ι → Prop) (slot : Option Executor) (mem : (k : ι) → μ k)
    (p : Process ι μ κ α ρ π) (k : ι) : Prop :=
  ∃ others d, Reaches (Step (n k) (run k) (unwinds k)) (Drive.init slot others (mem k)) d ∧
    d.pool = (p.calls k).pool ∧ d.path = (p.calls k).path ∧ (d.exit = none → d = p.call k)

theorem alone_init (k : ι) :
    Alone n run unwinds slot mem (Process.init slot others mem : Process ι μ κ α ρ π) k :=
  ⟨[], _, .refl, rfl, rfl, fun _ => rfl⟩

/-- What the rest of the process does to the slot is a call on it. -/
theorem Alone.environment (h : Alone n run unwinds slot mem p k)
    (hcall : p'.calls k = p.calls k) : Alone n run unwinds slot mem p' k := by
  obtain ⟨others, d, hreach, hpool, hpath, hd⟩ := h
  by_cases hx : d.exit = none
  · obtain rfl := hd hx
    refine ⟨others ++ [p'.slot], p'.call k, ?_, rfl, rfl, fun _ => rfl⟩
    apply (reaches_beside hreach [p'.slot]).tail
    have hstep : Step (n k) (run k) (unwinds k) ((p.call k).beside [p'.slot])
        { (p.call k).beside [p'.slot] with slot := p'.slot, others := [] } := .other hx rfl
    unfold Process.call at hstep ⊢
    rw [hcall]
    exact hstep
  · refine ⟨others, d, hreach, ?_, ?_, fun hnone => absurd hnone hx⟩
    · rw [hcall]
      exact hpool
    · rw [hcall]
      exact hpath

/-- A step of the call itself. -/
theorem Alone.step {d : Drive (μ k) (κ k) (α k) (ρ k) (π k)} (h : Alone n run unwinds slot mem p k)
    (hs : Step (n k) (run k) (unwinds k) (p.call k) d) (hcall : p'.call k = d) :
    Alone n run unwinds slot mem p' k := by
  obtain ⟨others, e, hreach, hpool, hpath, he⟩ := h
  have hx : e.exit = none := by
    have := exit_of_step hs
    unfold Drive.exit at this ⊢
    rw [hpath]
    exact this
  obtain rfl := he hx
  subst hcall
  exact ⟨others, p'.call k, hreach.tail hs, rfl, rfl, fun _ => rfl⟩

theorem Alone.inv (hn : ∀ k, 0 < n k) (h : Alone n run unwinds slot mem p k) :
    Inv (n k) (unwinds k) (p.call k) := by
  obtain ⟨others, d, hreach, hpool, hpath, -⟩ := h
  have hinv := inv_of_reaches_init (hn k) hreach
  refine ⟨?_, ?_⟩
  · have := hinv.once
    rwa [hpool] at this
  · have := hinv.path
    rwa [hpool, hpath] at this

variable [DecidableEq ι]

theorem alone_step (h : ∀ k, Alone n run unwinds slot mem p k)
    (hs : Process.Step n run unwinds p p') : ∀ k, Alone n run unwinds slot mem p' k := by
  intro k
  cases hs with
  | other ho => exact (h k).environment rfl
  | @load j hl =>
    by_cases hk : k = j
    · subst hk
      refine (h k).step (.load hl) ?_
      simp [Process.call]
    · exact (h k).environment (Function.update_of_ne hk _ _)
  | @call j d hl hd =>
    by_cases hk : k = j
    · subst hk
      refine (h k).step hd ?_
      have hothers := step_others hd rfl
      simp only [Process.call, Function.update_self]
      rw [← hothers]
    · exact (h k).environment (Function.update_of_ne hk _ _)

/-! ## Each call loads the slot once -/

/-- A call has a driver once it has loaded the slot, and it is the one for what the
slot held. -/
structure Loaded (n : ι → Nat) (p : Process ι μ κ α ρ π) : Prop where
  once : (p.loads.map Prod.fst).Nodup
  loading : ∀ k, (p.calls k).path = .loading ↔ k ∉ p.loads.map Prod.fst
  kept : ∀ k slot, (k, slot) ∈ p.loads →
    (p.calls k).path.driver = (driver (n k) slot : Path (ρ k) (π k)).driver

omit [DecidableEq ι] [∀ k, Memory (μ k) (κ k) (α k)] in
theorem loaded_init : Loaded n (Process.init slot others mem : Process ι μ κ α ρ π) where
  once := List.nodup_nil
  loading k := by simp [Process.init]
  kept k slot h := by simp [Process.init] at h

omit [DecidableEq ι] [∀ k, Memory (μ k) (κ k) (α k)] in
theorem driver_loaded (n : Nat) (slot : Option Executor) {ρ π : Type} :
    (driver n slot : Path ρ π) ≠ .loading := by
  unfold driver
  split
  · nofun
  · split <;> nofun

omit [DecidableEq ι] [∀ k, Memory (μ k) (κ k) (α k)] in
theorem driver_eq_none {ρ π : Type} {path : Path ρ π} : path.driver = none ↔ path = .loading := by
  cases path <;> simp [Path.driver]

theorem loaded_step (h : Loaded n p) (hs : Process.Step n run unwinds p p') : Loaded n p' := by
  obtain ⟨honce, hloading, hkept⟩ := h
  cases hs with
  | other ho => exact ⟨honce, hloading, hkept⟩
  | @load j hl =>
    have hnew := (hloading j).mp hl
    refine ⟨?_, fun k => ?_, fun k s hk => ?_⟩
    · rw [List.map_append, List.map_singleton, ← List.concat_eq_append]
      exact honce.concat hnew
    · by_cases hkj : k = j
      · subst hkj
        simp [driver_loaded]
      · simp only [Function.update_of_ne hkj, List.map_append, List.mem_append, hloading k]
        simp [hkj]
    · rcases List.mem_append.mp hk with hold | hlast
      · have hkj : k ≠ j := by
          rintro rfl
          exact hnew (List.mem_map.mpr ⟨(k, s), hold, rfl⟩)
        simp only [Function.update_of_ne hkj]
        exact hkept k s hold
      · obtain ⟨rfl, rfl⟩ := Prod.mk.inj (List.mem_singleton.mp hlast)
        simp
  | @call j d hl hd =>
    have hdriver : d.path.driver = (p.calls j).path.driver := step_driver hd hl
    have hsame : ∀ k, ((Function.update p.calls j ⟨d.pool, d.path⟩ k).path).driver =
        (p.calls k).path.driver := by
      intro k
      by_cases hkj : k = j
      · subst hkj
        rw [Function.update_self]
        exact hdriver
      · rw [Function.update_of_ne hkj]
    refine ⟨honce, fun k => ?_, fun k s hk => ?_⟩
    · rw [← driver_eq_none, hsame k, driver_eq_none]
      exact hloading k
    · rw [hsame k]
      exact hkept k s hk

/-! ## Every run of the process ends -/

/-- First the calls, each as it would end by itself, then the threads outside them. -/
noncomputable def Process.left (n : ι → Nat) (p : Process ι μ κ α ρ π) :
    ((k : ι) → (Fin (n k) → Ordinal.{0}) ×ₗ (Fin (n k) → Nat) ×ₗ Nat) ×ₗ Nat :=
  toLex (fun k => (p.call k).left (n k), p.others.length)

omit [DecidableEq ι] [∀ k, Memory (μ k) (κ k) (α k)] in
/-- A step of one call brings the process closer to its end. -/
theorem left_of_call (hk : (p'.call k).left (n k) < (p.call k).left (n k))
    (hother : ∀ j, j ≠ k → p'.calls j = p.calls j) : p'.left n < p.left n := by
  refine Prod.Lex.left _ _ (Pi.lt_def.mpr ⟨fun j => ?_, k, hk⟩)
  by_cases hj : j = k
  · subst hj
    exact hk.le
  · apply le_of_eq
    simp only [Drive.left, Process.call, hother j hj]

theorem process_left_step (hn : ∀ k, 0 < n k) (h : ∀ k, Inv (n k) (unwinds k) (p.call k))
    (hs : Process.Step n run unwinds p p') : p'.left n < p.left n := by
  cases hs with
  | other ho =>
    refine Prod.Lex.right _ ?_
    simp [ho]
  | @load k hl =>
    refine left_of_call (k := k) ?_ fun j hj => Function.update_of_ne hj _ _
    have hstep : Step (n k) (run k) (unwinds k) (p.call k)
        { p.call k with path := driver (n k) p.slot } := .load hl
    have hleft := left_step (hn k) (h k) hstep
    simpa [Process.call, Drive.left] using hleft
  | @call k d hl hd =>
    refine left_of_call (k := k) ?_ fun j hj => Function.update_of_ne hj _ _
    have hothers := step_others hd rfl
    have hleft := left_step (hn k) (h k) hd
    simpa [Process.call, Drive.left, hothers] using hleft

/-- Where the process has stopped, every call has been left. -/
theorem exits_of_stopped (h : ∀ k, Inv (n k) (unwinds k) (p.call k))
    (hst : Stopped (Process.Step n run unwinds) p) (k : ι) :
    ∃ exit, (p.call k).exit = some exit := by
  by_cases hl : (p.calls k).path = .loading
  · exact absurd (.load hl) (hst _)
  · exact exit_of_stopped (h k) fun d hd => hst _ (.call hl hd)

/-! ## The calls of a process -/

structure ProcessInv (n : ι → Nat) (run : (k : ι) → Nat → Task (κ k) (α k) SlotCall (ρ k) (π k))
    (unwinds : ι → Prop) (slot : Option Executor) (mem : (k : ι) → μ k)
    (p : Process ι μ κ α ρ π) : Prop where
  alone : ∀ k, Alone n run unwinds slot mem p k
  loaded : Loaded n p

omit [DecidableEq ι] in
theorem processInv_init : ProcessInv n run unwinds slot mem (Process.init slot others mem) :=
  ⟨alone_init, loaded_init⟩

theorem processInv_step (h : ProcessInv n run unwinds slot mem p)
    (hs : Process.Step n run unwinds p p') : ProcessInv n run unwinds slot mem p' :=
  ⟨alone_step h.alone hs, loaded_step h.loaded hs⟩

/-- Calls of `drive` on one slot, however they, their tasks and the threads that
register and clear are interleaved: no run goes on for ever or stops before every
call is left, each call is where some run of it alone is, and each that has begun has
loaded the slot once and keeps the driver that it found there. -/
theorem concurrent_calls_are_calls_alone [Finite ι] (hn : ∀ k, 0 < n k)
    (run : (k : ι) → Nat → Task (κ k) (α k) SlotCall (ρ k) (π k)) (unwinds : ι → Prop)
    (slot : Option Executor) (others : List SlotCall) (mem : (k : ι) → μ k) :
    Ends (Process.Step n run unwinds) (fun p => ∀ k, ∃ exit, (p.call k).exit = some exit)
      (Process.init slot others mem) ∧
    ∀ p, Reaches (Process.Step n run unwinds) (Process.init slot others mem) p →
      (∀ k, ∃ others d,
        Reaches (Step (n k) (run k) (unwinds k)) (Drive.init slot others (mem k)) d ∧
        d.pool = (p.calls k).pool ∧ d.path = (p.calls k).path ∧ d.exit = (p.call k).exit) ∧
      (p.loads.map Prod.fst).Nodup ∧
      (∀ k, (p.calls k).path ≠ .loading ↔ k ∈ p.loads.map Prod.fst) ∧
      ∀ k slot, (k, slot) ∈ p.loads →
        (p.calls k).path.driver = (driver (n k) slot : Path (ρ k) (π k)).driver := by
  refine ⟨?_, fun p hreach => ?_⟩
  · refine ends_of_measure (I := ProcessInv n run unwinds slot mem) (Process.left n)
      (fun _ _ => processInv_step) (fun p p' h hs => ?_) (fun p h hst => ?_) processInv_init
    · exact process_left_step hn (fun k => (h.alone k).inv hn) hs
    · exact exits_of_stopped (fun k => (h.alone k).inv hn) hst
  · have hinv : ProcessInv n run unwinds slot mem p :=
      inv_of_reaches hreach processInv_init fun _ _ => processInv_step
    refine ⟨fun k => ?_, hinv.loaded.once, fun k => ?_, hinv.loaded.kept⟩
    swap
    · rw [Ne, hinv.loaded.loading k, not_not]
    obtain ⟨others, d, hrun, hpool, hpath, -⟩ := hinv.alone k
    refine ⟨others, d, hrun, hpool, hpath, ?_⟩
    unfold Drive.exit
    rw [hpath]
    rfl

/-- Two calls of two tasks each, where the tasks of the first clear the slot. -/
def clears_and_returns (first : Bool) (index : Nat) : Task Nat Nat SlotCall Nat Nat :=
  if first then .emit none (.ret index) else .ret index

/-- Two calls over regions of numbers. -/
abbrev TwoCalls : Type :=
  Process Bool (fun _ => List Nat) (fun _ => Nat) (fun _ => Nat) (fun _ => Nat) fun _ => Nat

/-- The first call loads an executor and clears the slot, so the second loads none and
runs on scoped threads, while the first keeps its executor. -/
theorem clears_and_returns_ends :
    Ends (Process.Step (fun _ => 2) clears_and_returns fun _ => True)
      (fun p => ∀ k, ∃ exit, (p.call k).exit = some exit)
      (Process.init (some ⟨0⟩) [] fun _ => [5] : TwoCalls) ∧
    ∃ p : TwoCalls,
      Reaches (Process.Step (fun _ => 2) clears_and_returns fun _ => True)
        (Process.init (some ⟨0⟩) [] fun _ => [5]) p ∧
      p.loads = [(true, some ⟨0⟩), (false, none)] ∧
      (p.calls true).path.driver = some .executor ∧
      (p.calls false).path.driver = some .scoped ∧ (p.calls false).path ≠ .loading := by
  obtain ⟨hends, hcalls⟩ := concurrent_calls_are_calls_alone (n := fun _ => 2)
    (μ := fun _ : Bool => List Nat) (fun _ => by decide) clears_and_returns (fun _ => True)
    (some ⟨0⟩) [] fun _ => [5]
  let Next : TwoCalls → TwoCalls → Prop :=
    Process.Step (fun _ => 2) clears_and_returns fun _ => True
  let begun (pool : Pool (List Nat) Nat Nat SlotCall Nat Nat) :
      (k : Bool) → CallState (List Nat) Nat Nat Nat Nat :=
    Function.update (fun _ => ⟨.init [5], .loading⟩) true ⟨pool, .registered (.init 2)⟩
  let started : Pool (List Nat) Nat Nat SlotCall Nat Nat :=
    (Pool.init [5]).start 0 (.emit none (.ret 0))
  let cleared : Pool (List Nat) Nat Nat SlotCall Nat Nat :=
    { started with status := Function.update started.status 0 (.running (.ret 0)) }
  have hcall : ∀ slot slot' pool pool', driver_core.Step 2 (clears_and_returns true) True
      ⟨slot, [], pool, .registered (.init 2)⟩ ⟨slot', [], pool', .registered (.init 2)⟩ →
      Next ⟨slot, [], begun pool, [(true, some ⟨0⟩)]⟩
        ⟨slot', [], begun pool', [(true, some ⟨0⟩)]⟩ := by
    intro slot slot' pool pool' hs
    have hupdate : Function.update (begun pool) true ⟨pool', .registered (.init 2)⟩ =
        begun pool' := by simp [begun]
    rw [← hupdate]
    have hloading : (begun pool true).path ≠ .loading := by simp [begun]
    exact @Process.Step.call _ _ _ _ _ _ _ _ (fun _ => 2) clears_and_returns (fun _ => True)
      ⟨slot, [], begun pool, [(true, some ⟨0⟩)]⟩ true _ hloading hs
  have hload : Next (Process.init (some ⟨0⟩) [] fun _ => [5])
      ⟨some ⟨0⟩, [], begun (.init [5]), [(true, some ⟨0⟩)]⟩ := .load rfl
  have hstart := hcall (some ⟨0⟩) (some ⟨0⟩) (.init [5]) started (.start rfl rfl (by decide) rfl)
  have hclear := hcall (some ⟨0⟩) none started cleared
    (@Step.act _ _ _ _ _ _ _ _ _ _ (some none) cleared 0 rfl rfl)
  have hsecond : Next ⟨none, [], begun cleared, [(true, some ⟨0⟩)]⟩
      ⟨none, [], Function.update (begun cleared) false ⟨.init [5], .threads (.spawning 0)⟩,
        [(true, some ⟨0⟩), (false, none)]⟩ := .load rfl
  have hrun := Relation.ReflTransGen.refl.tail hload |>.tail hstart |>.tail hclear |>.tail hsecond
  obtain ⟨-, -, hbegun, hkept⟩ := hcalls _ hrun
  exact ⟨hends, _, hrun, rfl, hkept true (some ⟨0⟩) (by simp), hkept false none (by simp),
    (hbegun false).mpr (by simp)⟩

end alone

end melinoe.driver_core
