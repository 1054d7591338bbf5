-- The memory that the threads of one `drive` share: the cells of its tasks, the slots
-- and flags that `task_wrapper` writes through raw pointers, and the payload behind
-- the mutex. Whatever threads the executor or the scope runs the tasks on, no two
-- accesses race, and the calling thread has seen all of them when it leaves.
import Melinoe.DriverProcess
import Melinoe.ForkJoin

open tasks runs clocks forkjoin

namespace melinoe.driver_core

variable {μ κ α ρ π : Type}

/-! ## Places and accesses -/

inductive Place (κ : Type)
  | cell (a : κ)
  | out (index : Nat)
  | successful (index : Nat)
  | panic_payload

structure Touch (κ : Type) where
  place : Place κ
  writes : Bool

/-- The two accesses are a data race unless they are ordered. -/
def Touch.Races (x y : Touch κ) : Prop :=
  x.place = y.place ∧ (x.writes = true ∨ y.writes = true)

/-- What task `index` of `n` has for itself, where `F` gives the cells of each task. -/
def Touch.owned (n : Nat) (F : Nat → κ → Prop) (index : Nat) (x : Touch κ) : Prop :=
  match x.place with
  | .cell a => index < n ∧ F index a
  | .out i => i = index
  | .successful i => i = index
  | .panic_payload => False

def Touch.locked (x : Touch κ) : Prop := x.place = .panic_payload

theorem discipline {n : Nat} {F : Nat → κ → Prop}
    (hd : ∀ i < n, ∀ j < n, i ≠ j → ∀ a, F i a → ¬ F j a) :
    Discipline Touch.Races (Touch.owned n F) Touch.locked where
  one_owner x i j hi hj := by
    unfold Touch.owned at hi hj
    cases hplace : x.place with
    | cell a =>
      rw [hplace] at hi hj
      by_contra hne
      exact hd i hi.1 j hj.1 hne a hi.2 hj.2
    | out index | successful index =>
      rw [hplace] at hi hj
      exact hi.symm.trans hj
    | panic_payload =>
      rw [hplace] at hi
      exact hi.elim
  not_locked x i hi hl := by
    unfold Touch.owned at hi
    rw [show x.place = .panic_payload from hl] at hi
    exact hi
  owns_conflict x y i hR hi := by
    unfold Touch.owned at hi ⊢
    rw [hR.1]
    exact hi
  locked_conflict x y hR hl := hR.1.trans hl

/-! ## The clocks -/

/-- The panic mutex and the call of the executor have clocks of their own, besides
those of the threads. -/
def mutexClock : Nat := 0

def callClock : Nat := 1

def threadClock (thread : Nat) : Nat := thread + 2

/-- The thread that runs task `index`: the executor and the spawned threads are free
which, and the last task of a scope runs on the calling thread. -/
def Path.runner (n home : Nat) (worker : Nat → Nat) (path : Path ρ π) (index : Nat) : Nat :=
  match path with
  | .registered _ => worker index
  | .threads _ => if index = n - 1 then home else worker index
  | _ => home

/-- The holder of the panic mutex, or the mutex. -/
def Path.guard (worker : Nat → Nat) : Path ρ π → Nat
  | .registered st => st.panic_payload.holder.elim mutexClock fun i => threadClock (worker i)
  | _ => mutexClock

def parties (n home : Nat) (worker : Nat → Nat) (path : Path ρ π) : Parties where
  home := threadClock home
  call := callClock
  runner index := threadClock (path.runner n home worker index)
  guard := path.guard worker

/-! ## What each step touches -/

/-- What the next action of a task touches. -/
def touches {ε : Type} : Status κ α ε ρ π → List (Touch κ)
  | .running (.load a _) => [⟨.cell a, false⟩]
  | .running (.store a _ _) => [⟨.cell a, true⟩]
  | _ => []

/-- What `drive` writes before it calls the executor. -/
def prepares (n : Nat) : Option Executor → List (Touch κ)
  | none => []
  | some _ => ⟨.panic_payload, true⟩ :: (List.range n).map fun index => ⟨.successful index, true⟩

/-- What `drive`, or its guard, may touch once the executor has returned or unwound:
the payload, and each flag and slot. To move a value out of a slot counts as a write. -/
def tears_down (n : Nat) : List (Touch κ) :=
  ⟨.panic_payload, true⟩ :: (List.range n).flatMap fun index =>
    [⟨.successful index, false⟩, ⟨.out index, true⟩]

/-- An action of `task_wrapper` on the thread with the clock `t`. -/
def wrapper_clocks (index : Nat) (result : Except π ρ) (st : Registered ρ π) (t : Nat)
    (c : Clocks (Touch κ)) : Clocks (Touch κ) :=
  match st.wrapper index, result with
  | .caught, .ok _ => c.record t ⟨.out index, true⟩
  | .wrote, .ok _ => c.record t ⟨.successful index, true⟩
  | .caught, .error _ => c.join mutexClock t
  | .locked, .error _ => c.record t ⟨.panic_payload, true⟩
  | .stored, .error _ => c.join t mutexClock
  | _, _ => c

def has_started {ε : Type} : Status κ α ε ρ π → Bool
  | .idle => false
  | _ => true

/-- The threads that the tasks below `n` have run on. -/
def workers (n : Nat) (worker : Nat → Nat) {ε : Type} (status : Nat → Status κ α ε ρ π) :
    List Nat :=
  ((List.range n).filter fun i => has_started (status i)).map fun i => threadClock (worker i)

/-- A call with what its threads touch and have seen. -/
structure Traced (μ κ α ρ π : Type) where
  drive : Drive μ κ α ρ π
  clocks : Clocks (Touch κ)

def Traced.init (slot : Option Executor) (others : List SlotCall) (mem : μ) :
    Traced μ κ α ρ π := ⟨Drive.init slot others mem, .init⟩

variable [Memory μ κ α]

/-- The steps of a call, with what each touches and who synchronises with whom. A task
of an executor has seen what the calling thread had when it made the call, a spawned
one what it had at the spawn. The calling thread has seen what a task had when it
joins it, and what all had when the executor or the scope is left. -/
inductive Traced.Step (n : Nat) (run : Nat → Task κ α SlotCall ρ π) (unwinds : Prop)
    (home : Nat) (worker : Nat → Nat) : Traced μ κ α ρ π → Traced μ κ α ρ π → Prop
  | other {d : Drive μ κ α ρ π} {c : Clocks (Touch κ)} {call : SlotCall} {rest : List SlotCall}
      (hx : d.exit = none) (h : d.others = call :: rest) :
      Step n run unwinds home worker ⟨d, c⟩ ⟨{ d with slot := call, others := rest }, c⟩
  | load {d : Drive μ κ α ρ π} {c : Clocks (Touch κ)} (h : d.path = .loading) :
      Step n run unwinds home worker ⟨d, c⟩ ⟨{ d with path := driver n d.slot },
        (c.records (threadClock home) (prepares n d.slot)).join (threadClock home) callClock⟩
  | act {d : Drive μ κ α ρ π} {c : Clocks (Touch κ)} {call : Option SlotCall}
      {pool : Pool μ κ α SlotCall ρ π} (index : Nat) (hx : d.exit = none)
      (h : d.pool.advance index = some (call, pool)) :
      Step n run unwinds home worker ⟨d, c⟩ ⟨{ d with pool, slot := call.getD d.slot },
        c.records (threadClock (d.path.runner n home worker index))
          (touches (d.pool.status index))⟩
  | start {d : Drive μ κ α ρ π} {c : Clocks (Touch κ)} {st : Registered ρ π} {index : Nat}
      (h : d.path = .registered st) (hx : st.exit = none) (hi : index < n)
      (hidle : d.pool.status index = .idle) :
      Step n run unwinds home worker ⟨d, c⟩ ⟨{ d with pool := d.pool.start index (run index) },
        c.join callClock (threadClock (worker index))⟩
  | wrapper {d : Drive μ κ α ρ π} {c : Clocks (Touch κ)} {st st' : Registered ρ π} {index : Nat}
      {result : Except π ρ} (h : d.path = .registered st) (hx : st.exit = none)
      (hr : d.pool.status index = .ended result) (hw : task_wrapper index result st = some st') :
      Step n run unwinds home worker ⟨d, c⟩ ⟨{ d with path := .registered st' },
        wrapper_clocks index result st (threadClock (worker index)) c⟩
  | poison {d : Drive μ κ α ρ π} {c : Clocks (Touch κ)} {st : Registered ρ π}
      (h : d.path = .registered st) (hx : st.exit = none)
      (hp : st.panic_payload.poisoned = false) :
      Step n run unwinds home worker ⟨d, c⟩
        ⟨{ d with path := .registered { st with panic_payload.poisoned := true } }, c⟩
  | execute_returns {d : Drive μ κ α ρ π} {c : Clocks (Touch κ)} {st : Registered ρ π}
      (h : d.path = .registered st) (hx : st.exit = none)
      (hall : ∀ index < n, st.wrapper index = .done) :
      Step n run unwinds home worker ⟨d, c⟩
        ⟨{ d with path := .registered (st.leave (st.after_execute n)) },
          (c.joins (workers n worker d.pool.status) (threadClock home)).records
            (threadClock home) (tears_down n)⟩
  | execute_unwinds {d : Drive μ κ α ρ π} {c : Clocks (Touch κ)} {st : Registered ρ π}
      (hu : unwinds) (h : d.path = .registered st) (hx : st.exit = none)
      (hall : ∀ index < n, d.pool.status index = .idle ∨ st.wrapper index = .done) :
      Step n run unwinds home worker ⟨d, c⟩
        ⟨{ d with path := .registered (st.leave st.executor_unwound) },
          (c.joins (workers n worker d.pool.status) (threadClock home)).records
            (threadClock home) (tears_down n)⟩
  | single_start {d : Drive μ κ α ρ π} {c : Clocks (Touch κ)} (h : d.path = .single none)
      (hidle : d.pool.status 0 = .idle) :
      Step n run unwinds home worker ⟨d, c⟩ ⟨{ d with pool := d.pool.start 0 (run 0) }, c⟩
  | single_ends {d : Drive μ κ α ρ π} {c : Clocks (Touch κ)} {result : Except π ρ}
      (h : d.path = .single none) (hr : d.pool.status 0 = .ended result) :
      Step n run unwinds home worker ⟨d, c⟩
        ⟨{ d with path := .single (some (single_exit result)) }, c⟩
  | spawn {d : Drive μ κ α ρ π} {c : Clocks (Touch κ)} {next : Nat}
      (h : d.path = .threads (.spawning next)) (hn : next < n - 1) :
      Step n run unwinds home worker ⟨d, c⟩ ⟨{ d with path := .threads (.spawning (next + 1)) },
        c.join (threadClock home) (threadClock (worker next))⟩
  | thread_starts {d : Drive μ κ α ρ π} {c : Clocks (Touch κ)} {s : Scope ρ π} {index : Nat}
      (h : d.path = .threads s) (hx : d.exit = none) (hs : s.spawned n index)
      (hidle : d.pool.status index = .idle) :
      Step n run unwinds home worker ⟨d, c⟩
        ⟨{ d with pool := d.pool.start index (run index) }, c⟩
  | inline_starts {d : Drive μ κ α ρ π} {c : Clocks (Touch κ)}
      (h : d.path = .threads (.spawning (n - 1))) :
      Step n run unwinds home worker ⟨d, c⟩ ⟨{ d with
        pool := d.pool.start (n - 1) (run (n - 1)), path := .threads .inline }, c⟩
  | inline_ends {d : Drive μ κ α ρ π} {c : Clocks (Touch κ)} {result : Except π ρ}
      (h : d.path = .threads .inline) (hr : d.pool.status (n - 1) = .ended result) :
      Step n run unwinds home worker ⟨d, c⟩ ⟨{ d with path := .threads (.after_inline result) }, c⟩
  | join {d : Drive μ κ α ρ π} {c : Clocks (Touch κ)} {next : Nat} {results : List ρ} {last : ρ}
      {result : Except π ρ} (h : d.path = .threads (.joining next results last)) (hn : next < n - 1)
      (hr : d.pool.status next = .ended result) :
      Step n run unwinds home worker ⟨d, c⟩
        ⟨{ d with path := .threads (.after_join next results last result) },
          c.join (threadClock (worker next)) (threadClock home)⟩
  | joined {d : Drive μ κ α ρ π} {c : Clocks (Touch κ)} {results : List ρ} {last : ρ}
      (h : d.path = .threads (.joining (n - 1) results last)) :
      Step n run unwinds home worker ⟨d, c⟩
        ⟨{ d with path := .threads (.returning (results ++ [last])) }, c⟩
  | scope_returns {d : Drive μ κ α ρ π} {c : Clocks (Touch κ)} {results : List ρ}
      (h : d.path = .threads (.returning results))
      (hall : ∀ index < n - 1, ∃ result, d.pool.status index = .ended result) :
      Step n run unwinds home worker ⟨d, c⟩
        ⟨{ d with path := .threads (.left (.returned results)) },
          c.joins (workers (n - 1) worker d.pool.status) (threadClock home)⟩
  | scope_unwinds {d : Drive μ κ α ρ π} {c : Clocks (Touch κ)} {payload : π}
      (h : d.path = .threads (.unwinding payload))
      (hall : ∀ index < n - 1, ∃ result, d.pool.status index = .ended result) :
      Step n run unwinds home worker ⟨d, c⟩ ⟨{ d with path := .threads (.left (.resumed payload)) },
        c.joins (workers (n - 1) worker d.pool.status) (threadClock home)⟩

variable {n home : Nat} {worker : Nat → Nat} {run : Nat → Task κ α SlotCall ρ π} {unwinds : Prop}
  {F : Nat → κ → Prop} {s s' : Traced μ κ α ρ π}

/-- Without its clocks, a step is a step of the call. -/
theorem forget_clocks (h : Traced.Step n run unwinds home worker s s') :
    Step n run unwinds s.drive s'.drive := by
  cases h with
  | other hx h => exact .other hx h
  | load h => exact .load h
  | act i hx h => exact .act i hx h
  | start h hx hi hidle => exact .start h hx hi hidle
  | wrapper h hx hr hw => exact .wrapper h hx hr hw
  | poison h hx hp => exact .poison h hx hp
  | execute_returns h hx hall => exact .execute_returns h hx hall
  | execute_unwinds hu h hx hall => exact .execute_unwinds hu h hx hall
  | single_start h hidle => exact .single_start h hidle
  | single_ends h hr => exact .single_ends h hr
  | spawn h hn => exact .spawn h hn
  | thread_starts h hx hs hidle => exact .thread_starts h hx hs hidle
  | inline_starts h => exact .inline_starts h
  | inline_ends h hr => exact .inline_ends h hr
  | join h hn hr => exact .join h hn hr
  | joined h => exact .joined h
  | scope_returns h hall => exact .scope_returns h hall
  | scope_unwinds h hall => exact .scope_unwinds h hall

/-- Every step of the call is one with clocks. -/
theorem step_with_clocks (home : Nat) (worker : Nat → Nat) {d d' : Drive μ κ α ρ π}
    (h : Step n run unwinds d d') (c : Clocks (Touch κ)) :
    ∃ c', Traced.Step n run unwinds home worker ⟨d, c⟩ ⟨d', c'⟩ := by
  cases h with
  | other hx h => exact ⟨_, .other hx h⟩
  | load h => exact ⟨_, .load h⟩
  | act i hx h => exact ⟨_, .act i hx h⟩
  | start h hx hi hidle => exact ⟨_, .start h hx hi hidle⟩
  | wrapper h hx hr hw => exact ⟨_, .wrapper h hx hr hw⟩
  | poison h hx hp => exact ⟨_, .poison h hx hp⟩
  | execute_returns h hx hall => exact ⟨_, .execute_returns h hx hall⟩
  | execute_unwinds hu h hx hall => exact ⟨_, .execute_unwinds hu h hx hall⟩
  | single_start h hidle => exact ⟨_, .single_start h hidle⟩
  | single_ends h hr => exact ⟨_, .single_ends h hr⟩
  | spawn h hn => exact ⟨_, .spawn h hn⟩
  | thread_starts h hx hs hidle => exact ⟨_, .thread_starts h hx hs hidle⟩
  | inline_starts h => exact ⟨_, .inline_starts h⟩
  | inline_ends h hr => exact ⟨_, .inline_ends h hr⟩
  | join h hn hr => exact ⟨_, .join h hn hr⟩
  | joined h => exact ⟨_, .joined h⟩
  | scope_returns h hall => exact ⟨_, .scope_returns h hall⟩
  | scope_unwinds h hall => exact ⟨_, .scope_unwinds h hall⟩

/-! ## What every state has -/

def Started {ε : Type} (status : Nat → Status κ α ε ρ π) (i : Nat) : Prop := status i ≠ .idle

/-- The books of a call that is in progress. Only what is done for an executor is done
before the tasks start. -/
def Traced.Books (n home : Nat) (worker : Nat → Nat) (F : Nat → κ → Prop)
    (s : Traced μ κ α ρ π) : Prop :=
  ∃ made, ((∀ st, s.drive.path ≠ .registered st) → made = ∅) ∧
    Ledger Touch.Races (Touch.owned n F) Touch.locked (parties n home worker s.drive.path) made
      (Started s.drive.pool.status) s.clocks

structure TracedInv (n home : Nat) (worker : Nat → Nat) (F : Nat → κ → Prop) (unwinds : Prop)
    (s : Traced μ κ α ρ π) : Prop where
  drive : Inv n unwinds s.drive
  within : ∀ i < n, ∀ t, s.drive.pool.status i = .running t → t.Within (F i)
  loading : s.drive.path = .loading → s.clocks = .init
  books : s.drive.path ≠ .loading → s.drive.exit = none → s.Books n home worker F
  left : ∀ exit, s.drive.exit = some exit → s.clocks.Sound ∧ s.clocks.Raceless Touch.Races ∧
    s.clocks.Knows (threadClock home) fun _ => True

omit [Memory μ κ α] in
theorem tracedInv_init {slot : Option Executor} {others : List SlotCall} {mem : μ} :
    TracedInv n home worker F unwinds (Traced.init slot others mem : Traced μ κ α ρ π) where
  drive := inv_init n unwinds slot others mem
  within i _ t ht := by cases ht
  loading _ := rfl
  books hl := absurd rfl hl
  left exit hx := by cases hx

/-! ## The tasks touch what is their own -/

theorem within_move {p p' : Pool μ κ α SlotCall ρ π} (hw : ∀ i < n, (run i).Within (F i))
    (h : ∀ i < n, ∀ t, p.status i = .running t → t.Within (F i)) (hm : Pool.Move run n p p') :
    ∀ i < n, ∀ t, p'.status i = .running t → t.Within (F i) := by
  intro i hi t ht
  cases hm with
  | @start j hj hidle =>
    rcases Pool.start_status p j (run j) i with heq | ⟨rfl, heq⟩
    · rw [heq] at ht
      exact h i hi t ht
    · rw [heq] at ht
      cases ht
      exact hw i hi
  | act j ha =>
    obtain ⟨u, st, hu, hs, -, hc⟩ := Pool.advance_cases ha
    by_cases hij : i = j
    · subst hij
      have hwithin := h i hi u hu
      rw [hs, Function.update_self] at ht
      subst ht
      rcases hc with ⟨r, -, hst, -⟩ | ⟨q, -, hst, -⟩ | ⟨a, k, rfl, hst, -⟩ |
        ⟨a, v, k, rfl, hst, -⟩ | ⟨x, k, rfl, hst, -⟩ <;> cases hst
      · exact hwithin.2 _
      · exact hwithin.2
      · exact hwithin
    · rw [hs, Function.update_of_ne hij] at ht
      exact h i hi t ht

omit [Memory μ κ α] in
theorem touches_owned {status : Status κ α SlotCall ρ π} {i : Nat} (hi : i < n)
    (hw : ∀ t, status = .running t → t.Within (F i)) :
    touches status = [] ∨ ∃ x, touches status = [x] ∧ x.owned n F i := by
  unfold touches
  split
  · exact .inr ⟨_, rfl, hi, (hw _ rfl).1⟩
  · exact .inr ⟨_, rfl, hi, (hw _ rfl).1⟩
  · exact .inl rfl

/-! ## How the books go on -/

omit [Memory μ κ α] in
theorem started_start (p : Pool μ κ α SlotCall ρ π) (i : Nat) (t : Task κ α SlotCall ρ π)
    (j : Nat) :
    Started (p.start i t).status j ↔ Started p.status j ∨ j = i := by
  unfold Started
  by_cases hji : j = i
  · subst hji
    simp [Pool.start]
  · simp [Pool.start, hji]

theorem started_advance {p p' : Pool μ κ α SlotCall ρ π} {i : Nat} {e : Option SlotCall}
    (h : p.advance i = some (e, p')) : Started p'.status = Started p.status :=
  funext fun j => propext (not_congr (Pool.advance_idle h j))

omit [Memory μ κ α] in
/-- A task starts on the calling thread, or on a thread that was spawned: nothing was
handed to an executor. -/
theorem ledger_start_here {p : Parties} {d : Drive μ κ α ρ π} {c : Clocks (Touch κ)}
    (h : Ledger Touch.Races (Touch.owned n F) Touch.locked p ∅ (Started d.pool.status) c) (i : Nat)
    (t : Task κ α SlotCall ρ π) : Ledger Touch.Races (Touch.owned n F) Touch.locked p ∅
      (Started (d.pool.start i t).status) c :=
  h.start (started_start d.pool i t) (Finset.empty_subset _)

omit [Memory μ κ α] in
theorem exit_leave (st : Registered ρ π) (e : Except Fault (OutBuffer ρ × Exit ρ π)) :
    ∃ exit, (st.leave e).exit = some exit := by
  cases e with
  | ok left => exact ⟨_, rfl⟩
  | error f => exact ⟨_, rfl⟩

omit [Memory μ κ α] in
theorem exit_driver (d : Drive μ κ α ρ π) (slot : Option Executor) :
    ({ d with path := driver n slot } : Drive μ κ α ρ π).exit = none := by
  unfold driver
  split
  · rfl
  · split <;> rfl

omit [Memory μ κ α] in
/-- The call goes on. -/
theorem tracedInv_of_books (hdrive : Inv n unwinds s.drive)
    (hwithin : ∀ i < n, ∀ t, s.drive.pool.status i = .running t → t.Within (F i))
    (hl : s.drive.path ≠ .loading) (hx : s.drive.exit = none) (hb : s.Books n home worker F) :
    TracedInv n home worker F unwinds s :=
  ⟨hdrive, hwithin, fun hp => absurd hp hl, fun _ _ => hb, fun exit he => by simp [hx] at he⟩

omit [Memory μ κ α] in
/-- The call is left. -/
theorem tracedInv_of_left (hdrive : Inv n unwinds s.drive)
    (hwithin : ∀ i < n, ∀ t, s.drive.pool.status i = .running t → t.Within (F i))
    (hl : s.drive.path ≠ .loading) (hx : ∃ exit, s.drive.exit = some exit)
    (hknows : s.clocks.Sound ∧ s.clocks.Raceless Touch.Races ∧
      s.clocks.Knows (threadClock home) fun _ => True) : TracedInv n home worker F unwinds s := by
  obtain ⟨exit, hx⟩ := hx
  exact ⟨hdrive, hwithin, fun hp => absurd hp hl, fun _ he => by simp [hx] at he, fun _ _ => hknows⟩

omit [Memory μ κ α] in
/-- The calling thread has waited for the threads of all started tasks. -/
theorem mem_workers {status : Nat → Status κ α SlotCall ρ π} {m i : Nat} (hi : i < m)
    (hs : Started status i) : threadClock (worker i) ∈ workers m worker status := by
  unfold workers
  apply List.mem_map_of_mem
  rw [List.mem_filter, List.mem_range]
  refine ⟨hi, ?_⟩
  cases h : status i with
  | idle => exact absurd h hs
  | running t => rfl
  | ended o => rfl

omit [Memory μ κ α] in
/-- What `drive` does before it hands the call to an executor. -/
theorem books_of_load {d : Drive μ κ α ρ π} (hidle : ∀ i, d.pool.status i = .idle) :
    (⟨{ d with path := driver n d.slot }, ((Clocks.init : Clocks (Touch κ)).records
      (threadClock home) (prepares n d.slot)).join (threadClock home) callClock⟩ :
      Traced μ κ α ρ π).Books n home worker F := by
  have hnone : ∀ i, ¬ Started d.pool.status i := fun i hi => hi (hidle i)
  cases hslot : d.slot with
  | none =>
    have htrace : ((Clocks.init : Clocks (Touch κ)).records (threadClock home)
        (prepares n none)).trace = [] := rfl
    refine ⟨∅, fun _ => rfl, ?_⟩
    apply ledger_of_call (Clocks.sound_join Clocks.sound_init _ _) (Clocks.raceless_init _)
    · intro pos e he
      cases he
    · exact Finset.empty_subset _
    · exact hnone
  | some executor =>
    let prepared : Clocks (Touch κ) :=
      Clocks.init.records (threadClock home) (prepares n (some executor))
    obtain ⟨hsound, hraceless, hknows⟩ : prepared.Sound ∧ prepared.Raceless Touch.Races ∧
        prepared.Knows (threadClock home) fun _ => True :=
      Clocks.records_of_knows Clocks.sound_init (Clocks.raceless_init _)
        (fun i e he => by cases he) _
    refine ⟨(prepared.join (threadClock home) callClock).knows callClock,
      fun hne => absurd rfl (hne (.init n)), ?_⟩
    apply ledger_of_call (Clocks.sound_join hsound _ _) hraceless
    · intro pos e he
      rw [Clocks.join_trace] at he
      refine ⟨?_, Clocks.knows_joined _ _ _ (hknows pos e he trivial)⟩
      rcases Clocks.trace_records he with he | ht
      · cases he
      · exact ht
    · exact Finset.Subset.refl _
    · exact hnone

/-- An action of `task_wrapper`. -/
theorem ledger_of_wrapper (hdisc : Discipline Touch.Races (Touch.owned n F) Touch.locked)
    {status : Nat → Status κ α SlotCall ρ π} {st st' : Registered ρ π} {c : Clocks (Touch κ)}
    {made : Finset Nat} {i : Nat} {result : Except π ρ} (hex : Executing n status st) (hi : i < n)
    (hr : status i = .ended result) (hw : task_wrapper i result st = some st')
    (h : Ledger Touch.Races (Touch.owned n F) Touch.locked
      (parties n home worker (.registered st)) made (Started status) c) :
    Ledger Touch.Races (Touch.owned n F) Touch.locked (parties n home worker (.registered st')) made
      (Started status) (wrapper_clocks i result st (threadClock (worker i)) c) := by
  have hstarted : Started status i := fun hidle => by simp [hr] at hidle
  have hholder : ∀ w, st.wrapper i = w → w = .locked ∨ w = .stored →
      st.panic_payload.holder = some i := by
    rintro w rfl hw
    exact (hex.payloads.holder i).mpr ⟨hi, hw⟩
  rcases task_wrapper_cases hw with ⟨val, rfl, hc, hout⟩ | ⟨val, rfl, hc, rfl⟩ |
    ⟨q, rfl, hc, hfree, rfl⟩ | ⟨q, rfl, hc, rfl⟩ | ⟨q, rfl, hc, rfl⟩
  · -- the slot is written
    simp only [wrapper_clocks, hc]
    have hrec := h.access hdisc hstarted (x := ⟨.out i, true⟩) rfl
    rcases hout with ⟨out, -, rfl⟩ | ⟨f, -, rfl⟩
    · exact hrec
    · exact hrec
  · -- its flag is set
    simp only [wrapper_clocks, hc]
    exact h.access hdisc hstarted (x := ⟨.successful i, true⟩) rfl
  · -- the mutex is taken
    simp only [wrapper_clocks, hc]
    have hlock := h.lock (i := i)
    have hguard : (parties n home worker (.registered st)).guard = mutexClock := by
      simp [parties, Path.guard, hfree]
    rw [hguard] at hlock
    exact hlock
  · -- its holder stores a payload
    simp only [wrapper_clocks, hc]
    have hguard : (parties n home worker (.registered st)).guard =
        (parties n home worker (.registered st)).runner i := by
      simp [parties, Path.guard, Path.runner, hholder _ hc (.inl rfl)]
    exact h.locked_access hdisc hstarted hguard (x := ⟨.panic_payload, true⟩) rfl
  · -- and lets go of it
    simp only [wrapper_clocks, hc]
    have hguard : (parties n home worker (.registered st)).guard = threadClock (worker i) := by
      simp [parties, Path.guard, hholder _ hc (.inr rfl)]
    have hunlock := @Ledger.unlock _ _ _ _ _ _ _ _ h mutexClock
    rw [hguard] at hunlock
    exact hunlock

omit [Memory μ κ α] in
/-- The calling thread waits for the executor, and only then takes the buffer. -/
theorem left_of_executor {st : Registered ρ π} (hdrive : Inv n unwinds s.drive)
    (hp : s.drive.path = .registered st) (h : s.Books n home worker F) :
    let left := (s.clocks.joins (workers n worker s.drive.pool.status)
      (threadClock home)).records (threadClock home) (tears_down n)
    left.Sound ∧ left.Raceless Touch.Races ∧ left.Knows (threadClock home) fun _ => True := by
  obtain ⟨made, -, hledger⟩ := h
  rw [hp] at hledger
  obtain ⟨hsound, hraceless, hknows⟩ := hledger.collect
    fun i hi => .inr (mem_workers (hdrive.lt_of_ended hi) hi)
  exact Clocks.records_of_knows hsound hraceless hknows _

omit [Memory μ κ α] in
/-- The calling thread waits for the threads of the scope. -/
theorem left_of_scope {sc : Scope ρ π} (hdrive : Inv n unwinds s.drive)
    (hp : s.drive.path = .threads sc) (h : s.Books n home worker F) :
    let left := s.clocks.joins (workers (n - 1) worker s.drive.pool.status) (threadClock home)
    left.Sound ∧ left.Raceless Touch.Races ∧ left.Knows (threadClock home) fun _ => True := by
  obtain ⟨made, -, hledger⟩ := h
  rw [hp] at hledger
  refine hledger.collect fun i hi => ?_
  have hlt := hdrive.lt_of_ended hi
  by_cases hlast : i = n - 1
  · left
    simp [parties, Path.runner, hlast]
  · right
    have hrunner : (parties n home worker (.threads sc)).runner i = threadClock (worker i) := by
      simp [parties, Path.runner, hlast]
    rw [hrunner]
    exact mem_workers (by omega) hi

omit [Memory μ κ α] in
/-- What was handed out before the tasks of a scope, or the only task, start: nothing. -/
theorem books_here {d : Drive μ κ α ρ π} {c : Clocks (Touch κ)} (hp : ∀ st, d.path ≠ .registered st)
    (h : (⟨d, c⟩ : Traced μ κ α ρ π).Books n home worker F) :
    Ledger Touch.Races (Touch.owned n F) Touch.locked (parties n home worker d.path) ∅
      (Started d.pool.status) c := by
  obtain ⟨made, hmade, hledger⟩ := h
  rw [hmade hp] at hledger
  exact hledger

theorem tracedInv_step (hn : 0 < n) (hd : ∀ i < n, ∀ j < n, i ≠ j → ∀ a, F i a → ¬ F j a)
    (hw : ∀ i < n, (run i).Within (F i)) (h : TracedInv n home worker F unwinds s)
    (hs : Traced.Step n run unwinds home worker s s') : TracedInv n home worker F unwinds s' := by
  have hdisc := discipline hd
  have hstep := forget_clocks hs
  have hdrive : Inv n unwinds s'.drive := inv_step hn h.drive hstep
  have hwithin : ∀ i < n, ∀ t, s'.drive.pool.status i = .running t → t.Within (F i) := by
    rcases step_pool hn h.drive hstep with heq | hmove
    · rw [heq]
      exact h.within
    · exact within_move hw h.within hmove
  have hbooks := h.books
  cases hs with
  | @other d c call rest hx ho => exact ⟨hdrive, hwithin, h.loading, hbooks, h.left⟩
  | @load d c hp =>
    have hidle := h.drive.path
    rw [hp] at hidle
    have hload := @books_of_load _ _ _ _ _ n home worker F d hidle
    have hclocks : c = .init := h.loading hp
    subst hclocks
    exact tracedInv_of_books hdrive hwithin (driver_loaded n d.slot) (exit_driver d d.slot) hload
  | @act d c call pool i hx ha =>
    have hl : d.path ≠ .loading := by
      intro hl
      have hidle := h.drive.path
      rw [hl] at hidle
      obtain ⟨t, -, ht, -⟩ := Pool.advance_cases ha
      rw [hidle i] at ht
      cases ht
    obtain ⟨made, hmade, hledger⟩ := hbooks hl hx
    obtain ⟨t, -, ht, -⟩ := Pool.advance_cases ha
    have hstarted : Started d.pool.status i := fun hidle => by simp [hidle] at ht
    have hi : i < n := h.drive.lt_of_ended hstarted
    refine tracedInv_of_books hdrive hwithin hl hx ⟨made, hmade, ?_⟩
    simp only [started_advance ha]
    rcases touches_owned hi (h.within i hi) with hnone | ⟨x, hx, hown⟩
    · rw [hnone]
      exact hledger
    · rw [hx]
      exact hledger.access hdisc hstarted hown
  | @start d c st i hp hx hi hidle =>
    have hexit : d.exit = none := by simp [Drive.exit, hp, hx]
    obtain ⟨made, hmade, hledger⟩ := hbooks (by simp [hp]) hexit
    refine tracedInv_of_books hdrive hwithin (by simp [hp]) hexit ⟨made, hmade, ?_⟩
    have hcalled := hledger.start_called (started_start d.pool i (run i))
    simp only [hp] at hcalled ⊢
    exact hcalled
  | @wrapper d c st st' i result hp hx hr hwr =>
    have hreg := h.drive.registered hp hx
    have hi : i < n := h.drive.lt_of_ended (by simp [hr])
    obtain ⟨-, hx'⟩ := hreg.task_wrapper hi hr hwr
    obtain ⟨made, -, hledger⟩ := hbooks (by simp [hp]) (by simp [Drive.exit, hp, hx])
    simp only [hp] at hledger
    refine tracedInv_of_books hdrive hwithin (by simp) (by simp [Drive.exit, hx', hx])
      ⟨made, fun hne => absurd rfl (hne st'), ?_⟩
    exact ledger_of_wrapper hdisc hreg hi hr hwr hledger
  | @poison d c st hp hx hpo =>
    obtain ⟨made, -, hledger⟩ := hbooks (by simp [hp]) (by simp [Drive.exit, hp, hx])
    simp only [hp] at hledger
    exact tracedInv_of_books hdrive hwithin (by simp) (by simp [Drive.exit, hx])
      ⟨made, fun hne => absurd rfl (hne _), hledger⟩
  | @execute_returns d c st hp hx hall =>
    have hb := hbooks (by simp [hp]) (by simp [Drive.exit, hp, hx])
    exact tracedInv_of_left hdrive hwithin (by simp) (exit_leave st _)
      (left_of_executor h.drive hp hb)
  | @execute_unwinds d c st hu hp hx hall =>
    have hb := hbooks (by simp [hp]) (by simp [Drive.exit, hp, hx])
    exact tracedInv_of_left hdrive hwithin (by simp) (exit_leave st _)
      (left_of_executor h.drive hp hb)
  | @single_start d c hp hidle =>
    have hexit : d.exit = none := by simp [Drive.exit, hp]
    have hledger := books_here (by simp [hp]) (hbooks (by simp [hp]) hexit)
    exact tracedInv_of_books hdrive hwithin (by simp [hp]) hexit
      ⟨∅, fun _ => rfl, ledger_start_here hledger 0 (run 0)⟩
  | @single_ends d c result hp hr =>
    obtain ⟨made, -, hledger⟩ := hbooks (by simp [hp]) (by simp [Drive.exit, hp])
    simp only [hp] at hledger
    have hleft := @Ledger.collect _ _ _ _ _ _ _ _ hledger [] fun i _ => .inl rfl
    exact tracedInv_of_left hdrive hwithin (by simp) ⟨_, rfl⟩ hleft
  | @spawn d c next hp hnext =>
    have hledger := books_here (by simp [hp]) (hbooks (by simp [hp]) (by simp [Drive.exit, hp]))
    simp only [hp] at hledger
    exact tracedInv_of_books hdrive hwithin (by simp) (by simp [Drive.exit])
      ⟨∅, fun _ => rfl, hledger.join _ _⟩
  | @thread_starts d c sc i hp hx hsp hidle =>
    have hledger := books_here (by simp [hp]) (hbooks (by simp [hp]) hx)
    exact tracedInv_of_books hdrive hwithin (by simp [hp]) hx
      ⟨∅, fun _ => rfl, ledger_start_here hledger i (run i)⟩
  | @inline_starts d c hp =>
    have hledger := books_here (by simp [hp]) (hbooks (by simp [hp]) (by simp [Drive.exit, hp]))
    simp only [hp] at hledger
    exact tracedInv_of_books hdrive hwithin (by simp) (by simp [Drive.exit])
      ⟨∅, fun _ => rfl, ledger_start_here hledger (n - 1) (run (n - 1))⟩
  | @inline_ends d c result hp hr =>
    have hledger := books_here (by simp [hp]) (hbooks (by simp [hp]) (by simp [Drive.exit, hp]))
    simp only [hp] at hledger
    exact tracedInv_of_books hdrive hwithin (by simp)
      (by cases result <;> simp [Drive.exit, Scope.after_inline]) ⟨∅, fun _ => rfl, hledger⟩
  | @join d c next results last result hp hnext hr =>
    have hledger := books_here (by simp [hp]) (hbooks (by simp [hp]) (by simp [Drive.exit, hp]))
    simp only [hp] at hledger
    exact tracedInv_of_books hdrive hwithin (by simp)
      (by cases result <;> simp [Drive.exit, Scope.after_join])
      ⟨∅, fun _ => rfl, hledger.join _ _⟩
  | @joined d c results last hp =>
    have hledger := books_here (by simp [hp]) (hbooks (by simp [hp]) (by simp [Drive.exit, hp]))
    simp only [hp] at hledger
    exact tracedInv_of_books hdrive hwithin (by simp) (by simp [Drive.exit])
      ⟨∅, fun _ => rfl, hledger⟩
  | @scope_returns d c results hp hall =>
    have hb := hbooks (by simp [hp]) (by simp [Drive.exit, hp])
    exact tracedInv_of_left hdrive hwithin (by simp) ⟨_, rfl⟩ (left_of_scope h.drive hp hb)
  | @scope_unwinds d c payload hp hall =>
    have hb := hbooks (by simp [hp]) (by simp [Drive.exit, hp])
    exact tracedInv_of_left hdrive hwithin (by simp) ⟨_, rfl⟩ (left_of_scope h.drive hp hb)

theorem tracedInv_of_run (hn : 0 < n) (hd : ∀ i < n, ∀ j < n, i ≠ j → ∀ a, F i a → ¬ F j a)
    (hw : ∀ i < n, (run i).Within (F i)) {slot : Option Executor} {others : List SlotCall} {mem : μ}
    (h : Reaches (Traced.Step n run unwinds home worker) (Traced.init slot others mem) s) :
    TracedInv n home worker F unwinds s :=
  inv_of_reaches h tracedInv_init fun _ _ => tracedInv_step hn hd hw

/-- Every run of a call is one with clocks. -/
theorem run_with_clocks (home : Nat) (worker : Nat → Nat) {slot : Option Executor}
    {others : List SlotCall} {mem : μ} {d : Drive μ κ α ρ π}
    (h : Reaches (Step n run unwinds) (Drive.init slot others mem) d) :
    ∃ c, Reaches (Traced.Step n run unwinds home worker) (Traced.init slot others mem) ⟨d, c⟩ := by
  induction h with
  | refl => exact ⟨.init, .refl⟩
  | tail _ hstep ih =>
    obtain ⟨c, hrun⟩ := ih
    obtain ⟨c', hnext⟩ := step_with_clocks home worker hstep c
    exact ⟨c', hrun.tail hnext⟩

/-! ## Races -/

theorem Touch.Races.symm {x y : Touch κ} (h : x.Races y) : y.Races x :=
  ⟨h.1.symm, h.2.symm⟩

/-- In every run of a call whose tasks keep to cells of their own, on whatever threads
they run, any two accesses of one cell, slot, flag or of the payload of which one
writes are ordered by the spawns, the joins, the call of the executor and the mutex,
and once the call is left the calling thread has seen every access. -/
theorem the_threads_of_a_call_do_not_race (hn : 0 < n)
    (hd : ∀ i < n, ∀ j < n, i ≠ j → ∀ a, F i a → ¬ F j a) (hw : ∀ i < n, (run i).Within (F i))
    (unwinds : Prop) (home : Nat) (worker : Nat → Nat) (slot : Option Executor)
    (others : List SlotCall) (mem : μ) :
    (∀ d, Reaches (Step n run unwinds) (Drive.init slot others mem) d → ∃ c,
      Reaches (Traced.Step n run unwinds home worker) (Traced.init slot others mem) ⟨d, c⟩) ∧
    ∀ s, Reaches (Traced.Step n run unwinds home worker) (Traced.init slot others mem) s →
      (∀ i j (e f : Entry (Touch κ)), s.clocks.trace[i]? = some e → s.clocks.trace[j]? = some f →
        i ≠ j → e.access.Races f.access →
          s.clocks.HappensBefore i j ∨ s.clocks.HappensBefore j i) ∧
      ∀ exit, s.drive.exit = some exit → ∀ i (e : Entry (Touch κ)), s.clocks.trace[i]? = some e →
        i ∈ s.clocks.knows (threadClock home) := by
  refine ⟨fun d hrun => run_with_clocks home worker hrun, fun s hrun => ?_⟩
  have hinv : TracedInv n home worker F unwinds s := tracedInv_of_run hn hd hw hrun
  have hraceless : s.clocks.Raceless Touch.Races := by
    cases hx : s.drive.exit with
    | some exit => exact (hinv.left exit hx).2.1
    | none =>
      by_cases hl : s.drive.path = .loading
      · rw [hinv.loading hl]
        exact Clocks.raceless_init _
      · obtain ⟨made, -, hledger⟩ := hinv.books hl hx
        exact hledger.raceless
  refine ⟨fun i j e f he hf hij hR => ?_, fun exit hx i e he => ?_⟩
  · exact hraceless.ordered (fun _ _ => Touch.Races.symm) he hf hij hR
  · exact (hinv.left exit hx).2.2 i e he trivial

/-- Each task writes its own cell, and the second one panics. -/
def store_and_end (index : Nat) : Task Nat Nat SlotCall Nat Nat :=
  .store index 7 (if index = 0 then .ret 1 else .panic 2)

/-- A run to its exit, and one on the way there: the calling thread clears the flag of
task 0 and another thread sets it, which are two writes of one place, in order. -/
theorem two_stores_do_not_race :
    (∃ s : Traced (List Nat) Nat Nat Nat Nat,
      Reaches (Traced.Step 2 store_and_end False 0 (· + 1)) (Traced.init (some ⟨0⟩) [] [5, 6]) s ∧
      (∃ exit, s.drive.exit = some exit) ∧ ∀ i (e : Entry (Touch Nat)),
        s.clocks.trace[i]? = some e → i ∈ s.clocks.knows (threadClock 0)) ∧
    ∃ (s : Traced (List Nat) Nat Nat Nat Nat) (e f : Entry (Touch Nat)),
      Reaches (Traced.Step 2 store_and_end False 0 (· + 1)) (Traced.init (some ⟨0⟩) [] [5, 6]) s ∧
      s.clocks.trace[1]? = some e ∧ s.clocks.trace[5]? = some f ∧ e.thread ≠ f.thread ∧
      e.access.Races f.access ∧ (s.clocks.HappensBefore 1 5 ∨ s.clocks.HappensBefore 5 1) := by
  have hends : Ends (Step 2 store_and_end False) _
      (Drive.init (some ⟨0⟩) [] [5, 6] : Drive (List Nat) Nat Nat Nat Nat) :=
    drive_ends (by decide) (some ⟨0⟩) [] [5, 6]
  obtain ⟨d, hrun, -, exit, hx⟩ := hends.exists_run
  have hown : ∀ i < 2, (store_and_end i).Within fun a => a = i := by
    intro i _
    refine ⟨rfl, ?_⟩
    split <;> trivial
  obtain ⟨hclocks, hsafe⟩ := the_threads_of_a_call_do_not_race (by decide)
    (fun i _ j _ hij a hi hj => hij (hi.symm.trans hj)) hown False 0 (· + 1) (some ⟨0⟩) [] [5, 6]
  constructor
  · obtain ⟨c, hrun⟩ := hclocks d hrun
    exact ⟨⟨d, c⟩, hrun, ⟨exit, hx⟩, (hsafe _ hrun).2 exit hx⟩
  · let Next := Traced.Step (μ := List Nat) 2 store_and_end False 0 (· + 1)
    let loaded : Drive (List Nat) Nat Nat Nat Nat :=
      ⟨some ⟨0⟩, [], .init [5, 6], .registered (.init 2)⟩
    let started : Drive (List Nat) Nat Nat Nat Nat :=
      { loaded with pool := loaded.pool.start 0 (store_and_end 0) }
    let stored : Drive (List Nat) Nat Nat Nat Nat := { started with
      pool := ⟨[7, 6], Function.update started.pool.status 0 (.running (.ret 1)),
        started.pool.calls⟩ }
    let ended : Drive (List Nat) Nat Nat Nat Nat := { stored with
      pool := ⟨[7, 6], Function.update stored.pool.status 0 (.ended (.ok 1)), stored.pool.calls⟩ }
    let wrote : Registered Nat Nat := { Registered.init 2 with
      out := ⟨[some 1, none], [], []⟩
      wrapper := Function.update (fun _ => .caught) 0 .wrote }
    let c0 : Clocks (Touch Nat) := (Clocks.init.records 2 (prepares 2 (some ⟨0⟩))).join 2 1
    let c1 := c0.join 1 3
    let c2 := c1.record 3 ⟨.cell 0, true⟩
    let c3 := c2.record 3 ⟨.out 0, true⟩
    let c4 := c3.record 3 ⟨.successful 0, true⟩
    have h1 : Next (Traced.init (some ⟨0⟩) [] [5, 6]) ⟨loaded, c0⟩ := .load rfl
    have h2 : Next ⟨loaded, c0⟩ ⟨started, c1⟩ := .start rfl rfl (by decide) rfl
    have h3 : Next ⟨started, c1⟩ ⟨stored, c2⟩ :=
      @Traced.Step.act _ _ _ _ _ _ _ _ _ _ _ started c1 none stored.pool 0 rfl rfl
    have h4 : Next ⟨stored, c2⟩ ⟨ended, c2⟩ :=
      @Traced.Step.act _ _ _ _ _ _ _ _ _ _ _ stored c2 none ended.pool 0 rfl rfl
    have h5 : Next ⟨ended, c2⟩ ⟨{ ended with path := .registered wrote }, c3⟩ :=
      @Traced.Step.wrapper _ _ _ _ _ _ _ _ _ _ _ ended c2 (.init 2) wrote 0 (.ok 1) rfl rfl rfl rfl
    have h6 : Next ⟨{ ended with path := .registered wrote }, c3⟩
        ⟨{ ended with path := .registered { wrote with
            successful := [true, false]
            wrapper := Function.update wrote.wrapper 0 .done } }, c4⟩ :=
      @Traced.Step.wrapper _ _ _ _ _ _ _ _ _ _ _ { ended with path := .registered wrote } c3 wrote
        _ 0 (.ok 1) rfl rfl rfl rfl
    have hrun := Relation.ReflTransGen.refl.tail h1 |>.tail h2 |>.tail h3 |>.tail h4 |>.tail h5
      |>.tail h6
    have hrace : Touch.Races (κ := Nat) ⟨.successful 0, true⟩ ⟨.successful 0, true⟩ :=
      ⟨rfl, .inl rfl⟩
    exact ⟨_, _, _, hrun, rfl, rfl, by decide, hrace,
      (hsafe _ hrun).1 1 5 _ _ rfl rfl (by decide) hrace⟩

end melinoe.driver_core
