-- The engine behind every partition driver: `driver_core.rs` and the global
-- slot of `executor.rs`. `drive` runs `num_chunks` tasks on a registered
-- executor, on scoped threads, or inline. One call is a step relation over the
-- tasks, the calling thread and the calls of other threads on the slot.
-- Allocations succeed and threads spawn.
import Melinoe.Tasks

open tasks runs

namespace melinoe.driver_core

/-- A registered scheduler, known by the shim that the global slot stores. -/
structure Executor where
  shim : Nat
deriving DecidableEq

/-- A call on the global slot: `some` registers an executor, `none` clears. -/
abbrev SlotCall := Option Executor

variable {μ κ α ρ π : Type} [Memory μ κ α]

/-! ## The panic mutex -/

/-- `Mutex<Option<Box<dyn Any + Send>>>`; `holder` is the task with the guard. -/
structure PanicPayloadMutex (π : Type) where
  value : Option π
  poisoned : Bool
  holder : Option Nat

namespace PanicPayloadMutex

def new (value : Option π) : PanicPayloadMutex π := ⟨value, false, none⟩

/-- What the guard of `lock` shows, in an error when the mutex is poisoned. -/
def lock (self : PanicPayloadMutex π) : Except (Option π) (Option π) :=
  if self.poisoned then .error self.value else .ok self.value

def into_inner (self : PanicPayloadMutex π) : Except (Option π) (Option π) :=
  if self.poisoned then .error self.value else .ok self.value

end PanicPayloadMutex

def lock_panic_payload (mutex : PanicPayloadMutex π) : Option π :=
  match mutex.lock with
  | .ok guard => guard
  | .error poison => poison

def take_panic_payload (mutex : PanicPayloadMutex π) : Option π :=
  match mutex.into_inner with
  | .ok value => value
  | .error poison => poison

/-- Poisoning never hides a payload. -/
@[simp] theorem lock_panic_payload_eq (mutex : PanicPayloadMutex π) :
    lock_panic_payload mutex = mutex.value := by
  unfold lock_panic_payload PanicPayloadMutex.lock
  cases mutex.poisoned <;> rfl

@[simp] theorem take_panic_payload_eq (mutex : PanicPayloadMutex π) :
    take_panic_payload mutex = mutex.value := by
  unfold take_panic_payload PanicPayloadMutex.into_inner
  cases mutex.poisoned <;> rfl

/-! ## The out-buffer -/

/-- What a release does with the allocation. -/
inductive Release
  | freed
  | handed
deriving DecidableEq

/-- The undefined behaviour that the buffer's `unsafe` blocks could run into. -/
inductive Fault
  | dangling
  | out_of_bounds
  | uninitialized
deriving DecidableEq

/-- The leaked `Vec<MaybeUninit<R>>`: a slot is `none` until it is written and
after its value is dropped. `dropped` and `released` are the history of it. -/
structure OutBuffer (ρ : Type) where
  slots : List (Option ρ)
  dropped : List (Nat × ρ)
  released : List Release

namespace OutBuffer

def with_capacity (num_chunks : Nat) : OutBuffer ρ := ⟨List.replicate num_chunks none, [], []⟩

/-- `out_ptr.add(index).write(..)`. -/
def write (self : OutBuffer ρ) (index : Nat) (val : ρ) : Except Fault (OutBuffer ρ) :=
  if self.released ≠ [] then .error .dangling
  else if index < self.slots.length then .ok { self with slots := self.slots.set index (some val) }
  else .error .out_of_bounds

/-- `out_ptr.add(index).cast::<R>().drop_in_place()`. -/
def drop_in_place (self : OutBuffer ρ) (index : Nat) : Except Fault (OutBuffer ρ) :=
  if self.released ≠ [] then .error .dangling
  else match self.slots[index]? with
    | none => .error .out_of_bounds
    | some none => .error .uninitialized
    | some (some val) => .ok { self with
        slots := self.slots.set index none, dropped := self.dropped ++ [(index, val)] }

/-- `Vec::from_raw_parts(out_ptr, 0, capacity)`, dropped at once. -/
def free (self : OutBuffer ρ) : Except Fault (OutBuffer ρ) :=
  if self.released ≠ [] then .error .dangling else .ok { self with released := [.freed] }

/-- `Vec::from_raw_parts(out_ptr.cast::<R>(), num_chunks, capacity)`. An unwritten slot is
a fault whatever `R` is; `into_vec_at` tells zero-sized results apart. -/
def into_vec (self : OutBuffer ρ) (num_chunks : Nat) : Except Fault (List ρ × OutBuffer ρ) :=
  if self.released ≠ [] then .error .dangling
  else if self.slots.length < num_chunks then .error .out_of_bounds
  else match (self.slots.take num_chunks).mapM id with
    | none => .error .uninitialized
    | some results => .ok (results, { self with released := [.handed] })

end OutBuffer

/-- Drops the slots below `num_chunks` whose flag is set, in index order. -/
def drop_successful (out : OutBuffer ρ) (successful : List Bool) :
    Nat → Except Fault (OutBuffer ρ)
  | 0 => .ok out
  | num_chunks + 1 => do
    let out ← drop_successful out successful num_chunks
    match successful[num_chunks]? with
    | none => .error .out_of_bounds
    | some true => out.drop_in_place num_chunks
    | some false => .ok out

/-- Its pointers are the buffer and the flags of the call that made it. -/
structure ExecutorDropGuard where
  num_chunks : Nat
  active : Bool

/-- `Drop for ExecutorDropGuard`. -/
def ExecutorDropGuard.drop (self : ExecutorDropGuard) (out : OutBuffer ρ)
    (successful : List Bool) : Except Fault (OutBuffer ρ) :=
  if self.active then do
    let out ← drop_successful out successful self.num_chunks
    out.free
  else .ok out

/-! ## The registered path -/

/-- How `drive` is left. -/
inductive Exit (ρ π : Type)
  /-- It returns the results. -/
  | returned (results : List ρ)
  /-- `resume_unwind` of a task's payload. -/
  | resumed (payload : π)
  /-- The executor's own unwind goes through it. -/
  | unwound
  | fault (f : Fault)

/-- Where a task's `task_wrapper` is once `catch_unwind` has a result. -/
inductive Wrapper
  | caught
  | wrote
  | locked
  | stored
  | done
deriving DecidableEq

/-- The locals of `drive` that live across the executor's call. `lock_order`
lists the tasks that took the panic mutex, first to last. -/
structure Registered (ρ π : Type) where
  out : OutBuffer ρ
  successful : List Bool
  panic_payload : PanicPayloadMutex π
  guard : ExecutorDropGuard
  wrapper : Nat → Wrapper
  lock_order : List Nat
  exit : Option (Exit ρ π)

namespace Registered

def init (num_chunks : Nat) : Registered ρ π where
  out := .with_capacity num_chunks
  successful := List.replicate num_chunks false
  panic_payload := .new none
  guard := ⟨num_chunks, true⟩
  wrapper := fun _ => .caught
  lock_order := []
  exit := none

/-- The rest of `drive`, after the executor has returned. -/
def after_execute (self : Registered ρ π) (num_chunks : Nat) :
    Except Fault (OutBuffer ρ × Exit ρ π) :=
  let guard := { self.guard with active := false }
  match take_panic_payload self.panic_payload with
  | some payload => do
    let out ← drop_successful self.out self.successful self.successful.length
    let out ← out.free
    let out ← guard.drop out self.successful
    .ok (out, .resumed payload)
  | none => do
    let (results, out) ← self.out.into_vec num_chunks
    let out ← guard.drop out self.successful
    .ok (out, .returned results)

/-- The executor unwinds: only the guard's `Drop` runs. -/
def executor_unwound (self : Registered ρ π) : Except Fault (OutBuffer ρ × Exit ρ π) := do
  let out ← self.guard.drop self.out self.successful
  .ok (out, .unwound)

def leave (self : Registered ρ π) : Except Fault (OutBuffer ρ × Exit ρ π) → Registered ρ π
  | .ok (out, exit) => { self with out, exit := some exit }
  | .error f => { self with exit := some (.fault f) }

end Registered

/-- One action of `task_wrapper(index, ..)` after `catch_unwind` has given
`result`: `None` while it waits for the mutex, and when it has returned. -/
def task_wrapper (index : Nat) (result : Except π ρ) (st : Registered ρ π) :
    Option (Registered ρ π) :=
  let goTo (pc : Wrapper) := Function.update st.wrapper index pc
  match st.wrapper index, result with
  | .caught, .ok val =>
    match st.out.write index val with
    | .ok out => some { st with out, wrapper := goTo .wrote }
    | .error f => some { st with exit := some (.fault f) }
  | .wrote, .ok _ =>
    some { st with successful := st.successful.set index true, wrapper := goTo .done }
  | .caught, .error _ =>
    if st.panic_payload.holder = none then
      some { st with
        panic_payload.holder := some index
        wrapper := goTo .locked
        lock_order := st.lock_order ++ [index] }
    else none
  | .locked, .error payload =>
    let g := lock_panic_payload st.panic_payload
    some { st with
      panic_payload.value := if g.isNone then some payload else g
      wrapper := goTo .stored }
  | .stored, .error _ =>
    some { st with panic_payload.holder := none, wrapper := goTo .done }
  | _, _ => none

/-! ## The scoped path -/

/-- Where the calling thread is in `std::thread::scope`. -/
inductive Scope (ρ π : Type)
  /-- `handles.push(scope.spawn(..))` for the indices below `next` is done. -/
  | spawning (next : Nat)
  /-- `run(num_chunks - 1)` on this thread. -/
  | inline
  /-- The handles below `next` are joined. -/
  | joining (next : Nat) (results : List ρ) (last : ρ)
  /-- The closure returned; the scope waits for its threads. -/
  | returning (results : List ρ)
  /-- The closure unwinds; the scope waits for its threads. -/
  | unwinding (payload : π)
  | left (exit : Exit ρ π)

/-- The inline task has ended: the closure goes on to its joins, or unwinds. -/
def Scope.after_inline : Except π ρ → Scope ρ π
  | .ok last => .joining 0 [] last
  | .error payload => .unwinding payload

/-- `h.join()` has given a result. -/
def Scope.after_join (next : Nat) (results : List ρ) (last : ρ) : Except π ρ → Scope ρ π
  | .ok value => .joining (next + 1) (results ++ [value]) last
  | .error payload => .unwinding payload

/-- How `vec![run(0)]` is left. -/
def single_exit : Except π ρ → Exit ρ π
  | .ok value => .returned [value]
  | .error payload => .resumed payload

/-! ## One call of `drive` -/

inductive Path (ρ π : Type)
  | loading
  | registered (st : Registered ρ π)
  | single (exit : Option (Exit ρ π))
  | threads (s : Scope ρ π)

/-- The driver that the loaded slot picks. -/
def driver (num_chunks : Nat) (slot : Option Executor) : Path ρ π :=
  match slot with
  | some _ => .registered (.init num_chunks)
  | none => if num_chunks = 1 then .single none else .threads (.spawning 0)

/-- The whole state of a call: the global slot, the calls that other threads
still make on it, the tasks, and the calling thread. -/
structure Drive (μ κ α ρ π : Type) where
  slot : Option Executor
  others : List SlotCall
  pool : Pool μ κ α SlotCall ρ π
  path : Path ρ π

namespace Drive

def init (slot : Option Executor) (others : List SlotCall) (mem : μ) : Drive μ κ α ρ π :=
  ⟨slot, others, Pool.init mem, .loading⟩

/-- How the call was left, once it was. -/
def exit (d : Drive μ κ α ρ π) : Option (Exit ρ π) :=
  match d.path with
  | .loading => none
  | .registered st => st.exit
  | .single exit => exit
  | .threads (.left exit) => some exit
  | .threads _ => none

end Drive

/-- The handle of `index` is pushed. -/
def Scope.spawned (num_chunks : Nat) : Scope ρ π → Nat → Prop
  | .spawning next, index => index < next
  | _, index => index < num_chunks - 1

/-- The steps of a call of `drive(num_chunks, run)`. `unwinds` says whether the
executor may unwind; it always meets its contract. -/
inductive Step (num_chunks : Nat) (run : Nat → Task κ α SlotCall ρ π) (unwinds : Prop) :
    Drive μ κ α ρ π → Drive μ κ α ρ π → Prop
  /-- Another thread registers or clears. -/
  | other {d : Drive μ κ α ρ π} {call : SlotCall} {rest : List SlotCall} (hx : d.exit = none)
      (h : d.others = call :: rest) :
      Step num_chunks run unwinds d { d with slot := call, others := rest }
  /-- `registered_parallel_executor()`, the call's one load of the slot. -/
  | load {d : Drive μ κ α ρ π} (h : d.path = .loading) :
      Step num_chunks run unwinds d { d with path := driver num_chunks d.slot }
  /-- A started task acts; it may register or clear. -/
  | act {d : Drive μ κ α ρ π} {call : Option SlotCall} {pool : Pool μ κ α SlotCall ρ π}
      (index : Nat) (hx : d.exit = none) (h : d.pool.advance index = some (call, pool)) :
      Step num_chunks run unwinds d { d with pool, slot := call.getD d.slot }
  /-- The executor calls `task_wrapper` for an index it has not called it for. -/
  | start {d : Drive μ κ α ρ π} {st : Registered ρ π} {index : Nat}
      (h : d.path = .registered st) (hx : st.exit = none) (hi : index < num_chunks)
      (hidle : d.pool.status index = .idle) :
      Step num_chunks run unwinds d { d with pool := d.pool.start index (run index) }
  | wrapper {d : Drive μ κ α ρ π} {st st' : Registered ρ π} {index : Nat} {result : Except π ρ}
      (h : d.path = .registered st) (hx : st.exit = none)
      (hr : d.pool.status index = .ended result) (hw : task_wrapper index result st = some st') :
      Step num_chunks run unwinds d { d with path := .registered st' }
  /-- A holder of the panic mutex unwinds. No code of `drive` does; the step is
  here to show that it would not matter. -/
  | poison {d : Drive μ κ α ρ π} {st : Registered ρ π} (h : d.path = .registered st)
      (hx : st.exit = none) (hp : st.panic_payload.poisoned = false) :
      Step num_chunks run unwinds d
        { d with path := .registered { st with panic_payload.poisoned := true } }
  /-- The executor returns, which it does only after every index has run. -/
  | execute_returns {d : Drive μ κ α ρ π} {st : Registered ρ π} (h : d.path = .registered st)
      (hx : st.exit = none) (hall : ∀ index < num_chunks, st.wrapper index = .done) :
      Step num_chunks run unwinds d
        { d with path := .registered (st.leave (st.after_execute num_chunks)) }
  /-- The executor unwinds, with every task that it started finished. -/
  | execute_unwinds {d : Drive μ κ α ρ π} {st : Registered ρ π} (hu : unwinds)
      (h : d.path = .registered st) (hx : st.exit = none)
      (hall : ∀ index < num_chunks, d.pool.status index = .idle ∨ st.wrapper index = .done) :
      Step num_chunks run unwinds d { d with path := .registered (st.leave st.executor_unwound) }
  /-- `vec![run(0)]`. -/
  | single_start {d : Drive μ κ α ρ π} (h : d.path = .single none)
      (hidle : d.pool.status 0 = .idle) :
      Step num_chunks run unwinds d { d with pool := d.pool.start 0 (run 0) }
  | single_ends {d : Drive μ κ α ρ π} {result : Except π ρ} (h : d.path = .single none)
      (hr : d.pool.status 0 = .ended result) :
      Step num_chunks run unwinds d { d with path := .single (some (single_exit result)) }
  | spawn {d : Drive μ κ α ρ π} {next : Nat} (h : d.path = .threads (.spawning next))
      (hn : next < num_chunks - 1) :
      Step num_chunks run unwinds d { d with path := .threads (.spawning (next + 1)) }
  /-- A spawned thread starts. -/
  | thread_starts {d : Drive μ κ α ρ π} {s : Scope ρ π} {index : Nat} (h : d.path = .threads s)
      (hx : d.exit = none) (hs : s.spawned num_chunks index)
      (hidle : d.pool.status index = .idle) :
      Step num_chunks run unwinds d { d with pool := d.pool.start index (run index) }
  | inline_starts {d : Drive μ κ α ρ π}
      (h : d.path = .threads (.spawning (num_chunks - 1))) :
      Step num_chunks run unwinds d { d with
        pool := d.pool.start (num_chunks - 1) (run (num_chunks - 1)), path := .threads .inline }
  | inline_ends {d : Drive μ κ α ρ π} {result : Except π ρ} (h : d.path = .threads .inline)
      (hr : d.pool.status (num_chunks - 1) = .ended result) :
      Step num_chunks run unwinds d { d with path := .threads (.after_inline result) }
  | join {d : Drive μ κ α ρ π} {next : Nat} {results : List ρ} {last : ρ} {result : Except π ρ}
      (h : d.path = .threads (.joining next results last)) (hn : next < num_chunks - 1)
      (hr : d.pool.status next = .ended result) :
      Step num_chunks run unwinds d
        { d with path := .threads (.after_join next results last result) }
  | joined {d : Drive μ κ α ρ π} {results : List ρ} {last : ρ}
      (h : d.path = .threads (.joining (num_chunks - 1) results last)) :
      Step num_chunks run unwinds d { d with path := .threads (.returning (results ++ [last])) }
  /-- Every thread of the scope has finished, so `std::thread::scope` returns,
  or re-raises the panic of its closure. -/
  | scope_returns {d : Drive μ κ α ρ π} {results : List ρ}
      (h : d.path = .threads (.returning results))
      (hall : ∀ index < num_chunks - 1, ∃ result, d.pool.status index = .ended result) :
      Step num_chunks run unwinds d { d with path := .threads (.left (.returned results)) }
  | scope_unwinds {d : Drive μ κ α ρ π} {payload : π}
      (h : d.path = .threads (.unwinding payload))
      (hall : ∀ index < num_chunks - 1, ∃ result, d.pool.status index = .ended result) :
      Step num_chunks run unwinds d { d with path := .threads (.left (.resumed payload)) }

end melinoe.driver_core
