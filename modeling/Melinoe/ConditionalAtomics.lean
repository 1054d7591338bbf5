-- `BrandedAtomic`: `atomic/order.rs`, `atomic/traits.rs`, `atomic/branded.rs` and
-- `atomic/branded/integer.rs`. A call is known by what it does to the place of the
-- atomic, event by event. With what the permits exclude, the plain accesses of the
-- exclusive phases and the atomic ones of the shared phases are, for one atomic, the
-- run of one sequential variable.
import Mathlib.Data.BitVec
import Melinoe.Executions
import Melinoe.ThreadedRuns

open loans runs clocks executions

namespace melinoe.atomic

variable {V R : Type}

/-! ## Orderings -/

/-- `core::sync::atomic::Ordering`. -/
inductive Ordering
  | Relaxed
  | Release
  | Acquire
  | AcqRel
  | SeqCst
deriving DecidableEq

/-- The sealed policies. -/
inductive AtomicOrder
  | Relaxed
  | AcqRel
  | SeqCst
deriving DecidableEq

namespace AtomicOrder

def LOAD : AtomicOrder → Ordering
  | .Relaxed => .Relaxed
  | .AcqRel => .Acquire
  | .SeqCst => .SeqCst

def STORE : AtomicOrder → Ordering
  | .Relaxed => .Relaxed
  | .AcqRel => .Release
  | .SeqCst => .SeqCst

def RMW : AtomicOrder → Ordering
  | .Relaxed => .Relaxed
  | .AcqRel => .AcqRel
  | .SeqCst => .SeqCst

def FAILURE : AtomicOrder → Ordering
  | .Relaxed => .Relaxed
  | .AcqRel => .Acquire
  | .SeqCst => .SeqCst

end AtomicOrder

/-- The two implementations of the trait. -/
inductive OrderingSource
  | runtime (order : Ordering)
  | policy (O : AtomicOrder)

namespace OrderingSource

def load_order : OrderingSource → Ordering
  | .runtime order => order
  | .policy O => O.LOAD

def store_order : OrderingSource → Ordering
  | .runtime order => order
  | .policy O => O.STORE

def rmw_order : OrderingSource → Ordering
  | .runtime order => order
  | .policy O => O.RMW

def failure_order : OrderingSource → Ordering
  | .runtime order => order
  | .policy O => O.FAILURE

end OrderingSource

/-! ## The standard atomics -/

/-- The methods of `Atomic` and `AtomicInt`, with the orderings they are called with.
`rmw` is a swap or a `fetch_` operation. The closure of `fetch_update` may keep state:
its answer is of the values it has been given before, and the value it is given. -/
inductive Call (V : Type)
  | atomic_load (order : Ordering)
  | atomic_store (value : V) (order : Ordering)
  | rmw (f : V → V) (order : Ordering)
  | atomic_compare_exchange (current new : V) (success failure : Ordering)
  | atomic_fetch_update (set_order fetch_order : Ordering) (f : List V → V → Option V)

namespace Call

def atomic_swap (value : V) (order : Ordering) : Call V := .rmw (fun _ => value) order

section Integers

variable {w : Nat}

def atomic_fetch_add (value : BitVec w) : Ordering → Call (BitVec w) := .rmw (· + value)

def atomic_fetch_sub (value : BitVec w) : Ordering → Call (BitVec w) := .rmw (· - value)

def atomic_fetch_and (value : BitVec w) : Ordering → Call (BitVec w) := .rmw (· &&& value)

def atomic_fetch_or (value : BitVec w) : Ordering → Call (BitVec w) := .rmw (· ||| value)

def atomic_fetch_xor (value : BitVec w) : Ordering → Call (BitVec w) := .rmw (· ^^^ value)

def atomic_fetch_nand (value : BitVec w) : Ordering → Call (BitVec w) :=
  .rmw fun old => ~~~(old &&& value)

/-- `signed` for `AtomicI8` to `AtomicIsize`. -/
def le (signed : Bool) (a b : BitVec w) : Bool := if signed then a.sle b else a.ule b

def atomic_fetch_max (signed : Bool) (value : BitVec w) : Ordering → Call (BitVec w) :=
  .rmw fun old => if le signed old value then value else old

def atomic_fetch_min (signed : Bool) (value : BitVec w) : Ordering → Call (BitVec w) :=
  .rmw fun old => if le signed old value then old else value

end Integers

/-- A load takes no release ordering, and a store no acquire ordering: the standard
library panics before it touches the atomic. -/
def panics : Call V → Bool
  | .atomic_load order => order = .Release ∨ order = .AcqRel
  | .atomic_store _ order => order = .Acquire ∨ order = .AcqRel
  | .rmw _ _ => false
  | .atomic_compare_exchange _ _ _ failure => failure = .Release ∨ failure = .AcqRel
  | .atomic_fetch_update _ fetch_order _ => fetch_order = .Release ∨ fetch_order = .AcqRel

end Call

/-- What a call returns. -/
inductive Answer (V : Type)
  | unit
  | value (value : V)
  | result (value : Except V V)

/-- The loop of `fetch_update`, from the value `prev` on. A weak compare-exchange may
fail though the atomic holds `prev`. -/
inductive FetchUpdate (f : List V → V → Option V) :
    List V → V → List (Label V) → Except V V → Prop
  | refused {given : List V} {prev : V} (h : f given prev = none) :
      FetchUpdate f given prev [] (.error prev)
  | stored {given : List V} {prev next : V} (h : f given prev = some next) :
      FetchUpdate f given prev [.update prev next] (.ok prev)
  | again {given : List V} {prev next seen : V} {events : List (Label V)} {result : Except V V}
      (h : f given prev = some next) (rest : FetchUpdate f (given ++ [prev]) seen events result) :
      FetchUpdate f given prev (.read seen :: events) result

/-- The events of a call that returns, and its answer. The orderings add to what
happens before what, which the rules of one place do not look at. -/
inductive Call.Runs : Call V → List (Label V) → Answer V → Prop
  | atomic_load {order : Ordering} (value : V)
      (h : (Call.atomic_load (V := V) order).panics = false) :
      Runs (.atomic_load order) [.read value] (.value value)
  | atomic_store {value : V} {order : Ordering}
      (h : (Call.atomic_store value order).panics = false) :
      Runs (.atomic_store value order) [.write value] .unit
  | rmw {f : V → V} {order : Ordering} (old : V) :
      Runs (.rmw f order) [.update old (f old)] (.value old)
  | exchanged {current new : V} {success failure : Ordering}
      (h : (Call.atomic_compare_exchange current new success failure).panics = false) :
      Runs (.atomic_compare_exchange current new success failure) [.update current new]
        (.result (.ok current))
  | kept {current new : V} {success failure : Ordering} {old : V}
      (h : (Call.atomic_compare_exchange current new success failure).panics = false)
      (hne : old ≠ current) :
      Runs (.atomic_compare_exchange current new success failure) [.read old] (.result (.error old))
  | atomic_fetch_update {set_order fetch_order : Ordering} {f : List V → V → Option V} {prev : V}
      {events : List (Label V)} {result : Except V V}
      (h : (Call.atomic_fetch_update set_order fetch_order f).panics = false)
      (hloop : FetchUpdate f [] prev events result) :
      Runs (.atomic_fetch_update set_order fetch_order f) (.read prev :: events) (.result result)

/-! ## The shared phase of `BrandedAtomic` -/

section Shared

def load_ordered (order : OrderingSource) : Call V := .atomic_load order.load_order

def store_ordered (value : V) (order : OrderingSource) : Call V :=
  .atomic_store value order.store_order

def swap_ordered (value : V) (order : OrderingSource) : Call V := .atomic_swap value order.rmw_order

def compare_exchange_ordered (current new : V) (success failure : OrderingSource) : Call V :=
  .atomic_compare_exchange current new success.rmw_order failure.failure_order

def fetch_update_ordered (set_order fetch_order : OrderingSource)
    (f : List V → V → Option V) : Call V :=
  .atomic_fetch_update set_order.rmw_order fetch_order.failure_order f

/-- The body that `order_pair!` writes down for a `fetch_` operation of an integer. -/
def fetch_ordered {w : Nat} (op : BitVec w → Ordering → Call (BitVec w)) (value : BitVec w)
    (order : OrderingSource) : Call (BitVec w) := op value order.rmw_order

/-- `order_pair!`: the entry that takes an `Ordering`. -/
def by_order {C : Type} (body : OrderingSource → C) (order : Ordering) : C := body (.runtime order)

/-- `order_pair!`: the `_with` twin, which takes a policy. -/
def by_policy {C : Type} (body : OrderingSource → C) (O : AtomicOrder) : C := body (.policy O)

def load : Ordering → Call V := by_order load_ordered
def load_with : AtomicOrder → Call V := by_policy load_ordered
def store (value : V) : Ordering → Call V := by_order (store_ordered value)
def store_with (value : V) : AtomicOrder → Call V := by_policy (store_ordered value)
def swap (value : V) : Ordering → Call V := by_order (swap_ordered value)
def swap_with (value : V) : AtomicOrder → Call V := by_policy (swap_ordered value)

def compare_exchange (current new : V) (success failure : Ordering) : Call V :=
  compare_exchange_ordered current new (.runtime success) (.runtime failure)

def compare_exchange_with (current new : V) (O : AtomicOrder) : Call V :=
  compare_exchange_ordered current new (.policy O) (.policy O)

def fetch_update (set_order fetch_order : Ordering) (f : List V → V → Option V) : Call V :=
  fetch_update_ordered (.runtime set_order) (.runtime fetch_order) f

def fetch_update_with (O : AtomicOrder) (f : List V → V → Option V) : Call V :=
  fetch_update_ordered (.policy O) (.policy O) f

variable {w : Nat} (value : BitVec w)

def fetch_add : Ordering → Call (BitVec w) := by_order (fetch_ordered .atomic_fetch_add value)

def fetch_add_with : AtomicOrder → Call (BitVec w) :=
  by_policy (fetch_ordered .atomic_fetch_add value)

def fetch_sub : Ordering → Call (BitVec w) := by_order (fetch_ordered .atomic_fetch_sub value)

def fetch_sub_with : AtomicOrder → Call (BitVec w) :=
  by_policy (fetch_ordered .atomic_fetch_sub value)

def fetch_and : Ordering → Call (BitVec w) := by_order (fetch_ordered .atomic_fetch_and value)

def fetch_and_with : AtomicOrder → Call (BitVec w) :=
  by_policy (fetch_ordered .atomic_fetch_and value)

def fetch_or : Ordering → Call (BitVec w) := by_order (fetch_ordered .atomic_fetch_or value)

def fetch_or_with : AtomicOrder → Call (BitVec w) :=
  by_policy (fetch_ordered .atomic_fetch_or value)

def fetch_xor : Ordering → Call (BitVec w) := by_order (fetch_ordered .atomic_fetch_xor value)

def fetch_xor_with : AtomicOrder → Call (BitVec w) :=
  by_policy (fetch_ordered .atomic_fetch_xor value)

def fetch_nand : Ordering → Call (BitVec w) := by_order (fetch_ordered .atomic_fetch_nand value)

def fetch_nand_with : AtomicOrder → Call (BitVec w) :=
  by_policy (fetch_ordered .atomic_fetch_nand value)

variable (signed : Bool)

def fetch_max : Ordering → Call (BitVec w) :=
  by_order (fetch_ordered (.atomic_fetch_max signed) value)

def fetch_max_with : AtomicOrder → Call (BitVec w) :=
  by_policy (fetch_ordered (.atomic_fetch_max signed) value)

def fetch_min : Ordering → Call (BitVec w) :=
  by_order (fetch_ordered (.atomic_fetch_min signed) value)

def fetch_min_with : AtomicOrder → Call (BitVec w) :=
  by_policy (fetch_ordered (.atomic_fetch_min signed) value)

end Shared

/-! ## The exclusive phase -/

/-- What a closure does with the `&mut` value that it is given. -/
inductive Closure (V R : Type)
  | done (answer : R)
  | get (next : V → Closure V R)
  | set (value : V) (next : Closure V R)

/-- The plain accesses of a closure that returns, and its answer. -/
inductive Closure.Runs : Closure V R → List (Label V) → R → Prop
  | done (answer : R) : Runs (.done answer) [] answer
  | get {next : V → Closure V R} (value : V) {events : List (Label V)} {answer : R}
      (rest : Runs (next value) events answer) : Runs (.get next) (.read value :: events) answer
  | set {value : V} {next : Closure V R} {events : List (Label V)} {answer : R}
      (rest : Runs next events answer) : Runs (.set value next) (.write value :: events) answer

/-- `with_exclusive` runs its closure on the memory of the atomic. -/
def with_exclusive (f : Closure V R) : Closure V R := f

def load_exclusive : Closure V V := with_exclusive (.get .done)

def store_exclusive (value : V) : Closure V Unit := with_exclusive (.set value (.done ()))

/-! ## What one call does -/

/-- With a policy no call panics. -/
theorem policies_do_not_panic (O : AtomicOrder) (value current : V) (f : List V → V → Option V) :
    (load_with (V := V) O).panics = false ∧ (store_with value O).panics = false ∧
    (swap_with value O).panics = false ∧ (compare_exchange_with current value O).panics = false ∧
    (fetch_update_with O f).panics = false := by
  cases O <;> exact ⟨rfl, rfl, rfl, rfl, rfl⟩

/-- The loop of `fetch_update` gives its closure each value that it reads, until the
closure refuses one or takes one that it then replaces. -/
theorem fetchUpdate_cases {f : List V → V → Option V} {given : List V} {prev : V}
    {events : List (Label V)} {result : Except V V} (h : FetchUpdate f given prev events result) :
    ∃ tried last, (∀ k v, tried[k]? = some v → f (given ++ tried.take k) v ≠ none) ∧
      ((f (given ++ tried) last = none ∧ result = .error last ∧
          Label.read prev :: events = (tried ++ [last]).map .read) ∨
        ∃ next, f (given ++ tried) last = some next ∧ result = .ok last ∧
          Label.read prev :: events = (tried ++ [last]).map .read ++ [.update last next]) := by
  induction h with
  | @refused given prev h =>
    refine ⟨[], prev, fun k v hk => by simp at hk, .inl ⟨?_, rfl, rfl⟩⟩
    rw [List.append_nil]
    exact h
  | @stored given prev next h =>
    refine ⟨[], prev, fun k v hk => by simp at hk, .inr ⟨next, ?_, rfl, rfl⟩⟩
    rw [List.append_nil]
    exact h
  | @again given prev next seen events result h rest ih =>
    obtain ⟨tried, last, htried, hend⟩ := ih
    refine ⟨prev :: tried, last, fun k v hk => ?_, ?_⟩
    · cases k with
      | zero =>
        obtain rfl : prev = v := by simpa using hk
        simp [h]
      | succ k =>
        have hv := htried k v (by simpa using hk)
        simpa using hv
    · rcases hend with ⟨hf, hresult, hevents⟩ | ⟨next', hf, hresult, hevents⟩
      · exact .inl ⟨by simpa using hf, hresult, by rw [hevents]; rfl⟩
      · exact .inr ⟨next', by simpa using hf, hresult, by rw [hevents]; rfl⟩

/-- Where the call writes, it writes what `step` makes of the value that it finds. -/
def Call.Applies (step : V → V) : Call V → Prop
  | .atomic_load _ => True
  | .atomic_store value _ => ∀ old, step old = value
  | .rmw f _ => ∀ old, step old = f old
  | .atomic_compare_exchange current new _ _ => step current = new
  | .atomic_fetch_update _ _ f => ∀ given old new, f given old = some new → step old = new

/-- The event is a read, or a write of what `step` makes of the value found. -/
def Label.Does (step : V → V) (l : Label V) : Prop :=
  l.writes ≠ none → ∀ value, (∀ seen, l.reads = some seen → seen = value) →
    l.writes = some (step value)

theorem does_read (step : V → V) (value : V) : Label.Does step (.read value) :=
  fun h => absurd rfl h

theorem does_update {step : V → V} {old new : V} (h : step old = new) :
    Label.Does step (.update old new) := by
  intro _ value hvalue
  rw [← hvalue old rfl, h]
  rfl

theorem runs_does {step : V → V} {c : Call V} {events : List (Label V)} {answer : Answer V}
    (hr : c.Runs events answer) (ha : c.Applies step) : ∀ l ∈ events, Label.Does step l := by
  cases hr with
  | atomic_load value h => simpa using does_read step value
  | @atomic_store value order h =>
    intro l hl _ old _
    rw [List.mem_singleton.mp hl, ha old]
    rfl
  | @rmw f order old => simpa using does_update (ha old)
  | @exchanged current new success failure h => simpa using does_update ha
  | @kept current new success failure old h hne => simpa using does_read step old
  | @atomic_fetch_update set_order fetch_order f prev events result h hloop =>
    obtain ⟨tried, last, -, hend⟩ := fetchUpdate_cases hloop
    have hreads : ∀ l ∈ (tried ++ [last]).map Label.read, Label.Does step l := by
      intro l hl
      obtain ⟨value, -, rfl⟩ := List.mem_map.mp hl
      exact does_read step value
    rcases hend with ⟨-, -, hevents⟩ | ⟨next, hf, -, hevents⟩
    · rw [hevents]
      exact hreads
    · rw [hevents]
      intro l hl
      rcases List.mem_append.mp hl with hl | hl
      · exact hreads l hl
      · rw [List.mem_singleton.mp hl]
        exact does_update (ha _ _ _ hf)

/-! ## One atomic in a run of the threads -/

open token

variable {A : Type}

/-- An execution of the place `x` in the trace of a run: its events are the accesses
of the place, and what is plain in the trace is a plain read or write. -/
structure OfPlace (st : Threads A) (x : A) (G : Execution V) : Prop where
  events : ∀ k, k ∈ G.events ↔ ∃ e, st.clocks.trace[k]? = some e ∧ e.access.place = x
  hb : ∀ a b, G.hb a b ↔ st.clocks.HappensBefore a b
  read : ∀ (k : Nat) e, st.clocks.trace[k]? = some e → e.access = ⟨x, .read⟩ →
    ∃ v, G.label k = .read v
  write : ∀ (k : Nat) e, st.clocks.trace[k]? = some e → e.access = ⟨x, .write⟩ →
    ∃ v, G.label k = .write v

section Run

variable [DecidableEq A] {brandOf : A → Nat} {isAtomic : A → Bool} {st : Threads A} {x : A}
  {G : Execution V}

omit [DecidableEq A] in
/-- A plain write is ordered with every access of its place. -/
theorem ordered_with_write (hinv : RunInv brandOf isAtomic st) (hG : OfPlace st x G) {i : Nat}
    {e : Entry (Touch A)} (he : st.clocks.trace[i]? = some e) (ha : e.access = ⟨x, .write⟩) :
    ∀ k ∈ G.events, k ≠ i → G.hb k i ∨ G.hb i k := by
  intro k hk hne
  obtain ⟨f, hf, hplace⟩ := (hG.events k).mp hk
  rw [hG.hb, hG.hb]
  refine (conflicting_are_ordered hinv he hf hne.symm ?_ ?_).symm
  · rw [ha, hplace]
  · rw [ha]
    exact .inl rfl

omit [DecidableEq A] in
/-- A plain read is ordered with every access that may write its place. -/
theorem ordered_with_read (hinv : RunInv brandOf isAtomic st) (hG : OfPlace st x G) {j : Nat}
    {e : Entry (Touch A)} (he : st.clocks.trace[j]? = some e) (ha : e.access = ⟨x, .read⟩) :
    ∀ k ∈ G.events, G.Writer k → k ≠ j → G.hb k j ∨ G.hb j k := by
  intro k hk hw hne
  obtain ⟨f, hf, hplace⟩ := (hG.events k).mp hk
  rw [hG.hb, hG.hb]
  refine (conflicting_are_ordered hinv he hf hne.symm ?_ ?_).symm
  · rw [ha, hplace]
  · refine .inr fun hmode => ?_
    have haccess : f.access = ⟨x, .read⟩ := by
      rw [ha] at hmode
      cases hfa : f.access with
      | mk place mode =>
        rw [hfa] at hmode hplace
        simp only at hmode hplace
        rw [← hmode, hplace]
    obtain ⟨v, hv⟩ := hG.read k f hf haccess
    exact hw (by rw [hv]; rfl)

/-- One atomic over a whole run, with its plain accesses and its atomic ones of whatever
orderings: in some order of all of them, each reads what a sequential variable holds
there. The order goes against neither happens-before nor, where one of two accesses is
plain and one may write, the order that they are made in. -/
theorem an_atomic_is_one_sequential_variable (brandOf : A → Nat) (isAtomic : A → Bool)
    (h : Reaches (Threads.Step brandOf isAtomic) Threads.init st) (hG : OfPlace st x G)
    (hc : G.Consistent) :
    ∃ order : List Nat, order.Perm G.events ∧ Replays G.initial (order.map G.label) ∧
      order.Pairwise fun a b => ¬ st.clocks.HappensBefore b a ∧
        ∀ (e f : Entry (Touch A)), st.clocks.trace[a]? = some e → st.clocks.trace[b]? = some f →
          e.access.mode.Conflicts f.access.mode → a < b := by
  have hinv := runInv_of_run h
  obtain ⟨order, hperm, hpair, hreplays⟩ := Execution.exists_sequential_order hc
  have hnodup : order.Nodup := hperm.nodup_iff.mpr (G.sorted.imp fun h => Nat.ne_of_lt h)
  refine ⟨order, hperm, hreplays, ?_⟩
  refine (hnodup.and hpair).imp_of_mem fun {a b} ha hb hab => ?_
  have hnot : ¬ st.clocks.HappensBefore b a := fun hba => hab.2 ((hG.hb b a).mpr hba)
  refine ⟨hnot, fun e f he hf hconf => ?_⟩
  obtain ⟨e', he', hea⟩ := (hG.events a).mp (hperm.mem_iff.mp ha)
  obtain ⟨f', hf', hfb⟩ := (hG.events b).mp (hperm.mem_iff.mp hb)
  rw [he, Option.some.injEq] at he'
  rw [hf, Option.some.injEq] at hf'
  have hplace : e.access.place = f.access.place := by rw [he', hf', hea, hfb]
  have horder := conflicting_are_ordered hinv he hf hab.1 hplace hconf
  exact Clocks.happensBefore_lt hinv.sound (horder.resolve_right hnot)

omit [DecidableEq A] in
theorem exclusive_read_value (hinv : RunInv brandOf isAtomic st) (hG : OfPlace st x G)
    (hc : G.Consistent) {i j : Nat} {e f : Entry (Touch A)} {first seen : V} (step : Nat → V → V)
    (he : st.clocks.trace[i]? = some e) (hew : e.access = ⟨x, .write⟩)
    (hf : st.clocks.trace[j]? = some f) (hfr : f.access = ⟨x, .read⟩) (hij : i < j)
    (hfirst : G.label i = .write first) (hseen : G.label j = .read seen)
    (hs : ∀ k ∈ G.between i j, Label.Does (step k) (G.label k))
    (hcomm : ∀ a ∈ G.between i j, ∀ b ∈ G.between i j, ∀ v,
      step a (step b v) = step b (step a v)) :
    seen = (G.between i j).foldl (fun v k => step k v) first := by
  have hie : i ∈ G.events := (hG.events i).mpr ⟨e, he, by rw [hew]⟩
  have hje : j ∈ G.events := (hG.events j).mpr ⟨f, hf, by rw [hfr]⟩
  have hoi := ordered_with_write hinv hG he hew
  have hhb : G.hb i j := (hoi j hje (Nat.ne_of_gt hij)).resolve_left fun hji => by
    have hlt := G.forward j i hji
    omega
  refine Execution.read_after_phase hc hie hje hfirst hseen hhb (fun k hk _ => hoi k hk)
    (ordered_with_read hinv hG hf hfr) (fun k hk => ?_) hcomm
  exact hs k hk (Execution.mem_between.mp hk).2.2.2

/-- A plain store, then calls of any number of threads and of any orderings, retries of
`fetch_update` loops among them, then a plain load: it gives the stored value with the
step of each write in between taken once, where the steps commute. -/
theorem an_exclusive_load_sees_every_update (brandOf : A → Nat) (isAtomic : A → Bool)
    (h : Reaches (Threads.Step brandOf isAtomic) Threads.init st) (hG : OfPlace st x G)
    (hc : G.Consistent) {i j : Nat} {e f : Entry (Touch A)} {first seen : V}
    (he : st.clocks.trace[i]? = some e) (hew : e.access = ⟨x, .write⟩)
    (hf : st.clocks.trace[j]? = some f) (hfr : f.access = ⟨x, .read⟩) (hij : i < j)
    (hfirst : (store_exclusive first).Runs [G.label i] ())
    (hseen : (load_exclusive (V := V)).Runs [G.label j] seen) (calls : Nat → Call V)
    (step : Nat → V → V)
    (hcalls : ∀ k ∈ G.between i j, (calls k).Applies (step k) ∧
      ∃ events answer, (calls k).Runs events answer ∧ G.label k ∈ events)
    (hcomm : ∀ a ∈ G.between i j, ∀ b ∈ G.between i j, ∀ v,
      step a (step b v) = step b (step a v)) :
    seen = (G.between i j).foldl (fun v k => step k v) first := by
  have hwrite : G.label i = .write first := by
    generalize G.label i = l at hfirst
    cases hfirst with
    | set rest => rfl
  have hread : G.label j = .read seen := by
    generalize G.label j = l at hseen
    cases hseen with
    | get value rest =>
      cases rest with
      | done => rfl
  refine exclusive_read_value (runInv_of_run h) hG hc step he hew hf hfr hij hwrite hread
    (fun k hk => ?_) hcomm
  obtain ⟨happlies, events, answer, hruns, hmem⟩ := hcalls k hk
  exact runs_does hruns happlies _ hmem

omit [DecidableEq A] in
theorem foldl_add {w : Nat} (added : Nat → BitVec w) (first : BitVec w) (events : List Nat) :
    events.foldl (fun v k => v + added k) first = first + (events.map added).sum := by
  induction events generalizing first with
  | nil => simp
  | cons k events ih => rw [List.foldl_cons, ih, List.map_cons, List.sum_cons, BitVec.add_assoc]

/-- Only additions in between: the load gives the stored value and all that was added,
modulo `2 ^ w`, from whatever threads and in whatever orders. -/
theorem no_increment_is_lost {w : Nat} {G : Execution (BitVec w)}
    (h : Reaches (Threads.Step brandOf isAtomic) Threads.init st) (hG : OfPlace st x G)
    (hc : G.Consistent) {i j : Nat} {e f : Entry (Touch A)} {first seen : BitVec w}
    (he : st.clocks.trace[i]? = some e) (hew : e.access = ⟨x, .write⟩)
    (hf : st.clocks.trace[j]? = some f) (hfr : f.access = ⟨x, .read⟩) (hij : i < j)
    (hfirst : G.label i = .write first) (hseen : G.label j = .read seen) (added : Nat → BitVec w)
    (hadds : ∀ k ∈ G.between i j, ∃ order answer,
      (fetch_ordered .atomic_fetch_add (added k) order).Runs [G.label k] answer) :
    seen = first + ((G.between i j).map added).sum := by
  rw [← foldl_add]
  refine exclusive_read_value (runInv_of_run h) hG hc (fun k v => v + added k) he hew hf hfr hij
    hfirst hseen (fun k hk => ?_) fun a _ b _ v => ?_
  · obtain ⟨order, answer, hruns⟩ := hadds k hk
    exact runs_does hruns (fun _ => rfl) _ (List.mem_singleton_self _)
  · rw [BitVec.add_assoc, BitVec.add_assoc, BitVec.add_comm (added b)]

end Run

/-! ## A fence -/

/-- What the three accesses of `fence_run` do: a store of 1000, an addition of 3 and a
load. -/
def fence (c : Clocks (Touch Nat)) (h : c.Sound) : Execution (BitVec 64) where
  events := [0, 1, 2]
  label := fun k => if k = 0 then .write 1000 else if k = 1 then .update 1000 1003 else .read 1003
  hb := c.HappensBefore
  initial := 0
  rf := fun k => if k = 1 then some 0 else if k = 2 then some 1 else none
  mo := [0, 1]
  sorted := by decide
  forward _ _ hb := Clocks.happensBefore_lt h hb

theorem fence_consistent (c : Clocks (Touch Nat)) (h : c.Sound) : (fence c h).Consistent := by
  have hpairs : ∀ a ∈ [0, 1, 2], ∀ b ∈ [0, 1, 2], (fence c h).hb a b →
      a = 0 ∧ b = 1 ∨ a = 0 ∧ b = 2 ∨ a = 1 ∧ b = 2 := by
    intro a ha b hb hab
    have hlt := (fence c h).forward a b hab
    simp only [List.mem_cons, List.not_mem_nil, or_false] at ha hb
    omega
  have hw2 : ¬ (fence c h).Writer 2 := by simp [Execution.Writer, fence, Label.writes]
  have hr0 : ¬ (fence c h).Reader 0 := by simp [Execution.Reader, fence, Label.reads]
  have h0 : (fence c h).stamp (some 0) = 1 := rfl
  have h1 : (fence c h).stamp (some 1) = 2 := rfl
  have hrf1 : (fence c h).rf 1 = some 0 := rfl
  have hrf2 : (fence c h).rf 2 = some 1 := rfl
  have hevents : ∀ {e}, e ∈ (fence c h).events → e = 0 ∨ e = 1 ∨ e = 2 := by
    intro e he
    simpa [fence] using he
  refine ⟨show [0, 1].Nodup by decide, fun e => ?_, fun e he hr w hw => ?_, fun e he v hv => ?_,
    ?_, ?_, ?_, ?_, fun e he hr hw => ?_⟩
  · constructor
    · intro he
      have hcase : e = 0 ∨ e = 1 := by simpa [fence] using he
      rcases hcase with rfl | rfl
      · exact ⟨show 0 ∈ [0, 1, 2] by decide, by simp [Execution.Writer, fence, Label.writes]⟩
      · exact ⟨show 1 ∈ [0, 1, 2] by decide, by simp [Execution.Writer, fence, Label.writes]⟩
    · rintro ⟨he, hw⟩
      rcases hevents he with rfl | rfl | rfl
      · exact show 0 ∈ [0, 1] by decide
      · exact show 1 ∈ [0, 1] by decide
      · exact absurd hw hw2
  · rcases hevents he with rfl | rfl | rfl
    · exact absurd hr hr0
    · rw [hrf1, Option.some.injEq] at hw
      subst hw
      exact show 0 ∈ [0, 1] by decide
    · rw [hrf2, Option.some.injEq] at hw
      subst hw
      exact show 1 ∈ [0, 1] by decide
  · rcases hevents he with rfl | rfl | rfl <;> simp [fence, Label.reads] at hv <;> subst hv <;> rfl
  · intro a ha b hb hab hwa hwb
    rcases hpairs a ha b hb hab with ⟨rfl, rfl⟩ | ⟨rfl, rfl⟩ | ⟨rfl, rfl⟩
    · rw [h0, h1]
      decide
    · exact absurd hwb hw2
    · exact absurd hwb hw2
  · intro a ha b hb hab hwa hrb
    rcases hpairs a ha b hb hab with ⟨rfl, rfl⟩ | ⟨rfl, rfl⟩ | ⟨rfl, rfl⟩
    · rw [hrf1]
    · rw [hrf2, h0, h1]
      decide
    · rw [hrf2]
  · intro a ha b hb hab hra hwb
    rcases hpairs a ha b hb hab with ⟨rfl, rfl⟩ | ⟨rfl, rfl⟩ | ⟨rfl, rfl⟩
    · exact absurd hra hr0
    · exact absurd hwb hw2
    · exact absurd hwb hw2
  · intro a ha b hb hab hra hrb
    rcases hpairs a ha b hb hab with ⟨rfl, rfl⟩ | ⟨rfl, rfl⟩ | ⟨rfl, rfl⟩
    · exact absurd hra hr0
    · exact absurd hra hr0
    · rw [hrf1, hrf2, h0, h1]
      decide
  · rcases hevents he with rfl | rfl | rfl
    · exact absurd hr hr0
    · rfl
    · exact absurd hw hw2

/-- The execution is one of the place of the fence. -/
theorem fence_of_place {st : Threads Nat} (hs : st.clocks.Sound)
    (htrace : st.clocks.trace.map (fun e => (e.thread, e.access)) =
      [(0, ⟨0, .write⟩), (1, ⟨0, .atomic⟩), (0, ⟨0, .read⟩)]) :
    OfPlace st 0 (fence st.clocks hs) := by
  have hat : ∀ (k : Nat) e, st.clocks.trace[k]? = some e →
      (k = 0 ∧ e.access = ⟨0, .write⟩) ∨ (k = 1 ∧ e.access = ⟨0, .atomic⟩) ∨
        k = 2 ∧ e.access = ⟨0, .read⟩ := by
    intro k e he
    have hmap : (st.clocks.trace.map fun e => (e.thread, e.access))[k]? =
        some (e.thread, e.access) := by rw [List.getElem?_map, he]; rfl
    rw [htrace] at hmap
    match k with
    | 0 => exact .inl ⟨rfl, (Prod.mk.inj (Option.some.inj hmap)).2.symm⟩
    | 1 => exact .inr (.inl ⟨rfl, (Prod.mk.inj (Option.some.inj hmap)).2.symm⟩)
    | 2 => exact .inr (.inr ⟨rfl, (Prod.mk.inj (Option.some.inj hmap)).2.symm⟩)
    | k + 3 => cases hmap
  refine ⟨fun k => ⟨fun hk => ?_, ?_⟩, fun _ _ => Iff.rfl, fun k e he ha => ?_,
    fun k e he ha => ?_⟩
  · have hcase : k = 0 ∨ k = 1 ∨ k = 2 := by simpa [fence] using hk
    rcases hcase with rfl | rfl | rfl
    · obtain ⟨e, he, ha⟩ := entry_of_map htrace (i := 0) rfl
      exact ⟨e, he, by rw [(Prod.mk.inj ha).2]⟩
    · obtain ⟨e, he, ha⟩ := entry_of_map htrace (i := 1) rfl
      exact ⟨e, he, by rw [(Prod.mk.inj ha).2]⟩
    · obtain ⟨e, he, ha⟩ := entry_of_map htrace (i := 2) rfl
      exact ⟨e, he, by rw [(Prod.mk.inj ha).2]⟩
  · rintro ⟨e, he, -⟩
    rcases hat k e he with ⟨rfl, -⟩ | ⟨rfl, -⟩ | ⟨rfl, -⟩ <;> simp [fence]
  · rcases hat k e he with ⟨rfl, hk⟩ | ⟨rfl, hk⟩ | ⟨rfl, hk⟩
    · simp [ha] at hk
    · simp [ha] at hk
    · exact ⟨1003, rfl⟩
  · rcases hat k e he with ⟨rfl, hk⟩ | ⟨rfl, hk⟩ | ⟨rfl, hk⟩
    · exact ⟨1000, rfl⟩
    · simp [ha] at hk
    · simp [ha] at hk

theorem the_fence_is_one_sequential_variable : ∃ G : Execution (BitVec 64), ∃ order : List Nat,
    G.mo = [0, 1] ∧ order.Perm [0, 1, 2] ∧ Replays 0 (order.map G.label) := by
  obtain ⟨st, hrun, htrace⟩ := fence_run
  have hs := (runInv_of_run hrun).sound
  obtain ⟨order, hperm, hreplays, -⟩ := an_atomic_is_one_sequential_variable _ _ hrun
    (fence_of_place hs htrace) (fence_consistent st.clocks hs)
  exact ⟨fence st.clocks hs, order, rfl, hperm, hreplays⟩

/-- What the last access of the fence, a plain load, reads: the store and the addition. -/
theorem the_fence_is_loaded_in_full : ∃ (st : Threads Nat) (G : Execution (BitVec 64))
    (e : Entry (Touch Nat)) (seen : BitVec 64),
    Reaches (Threads.Step (fun _ => 0) fun _ => true) Threads.init st ∧
    OfPlace st 0 G ∧ G.Consistent ∧ st.clocks.trace[2]? = some e ∧ e.access = ⟨0, .read⟩ ∧
    (load_exclusive (V := BitVec 64)).Runs [G.label 2] seen ∧ seen = 1000 + 3 := by
  obtain ⟨st, hrun, htrace⟩ := fence_run
  have hs := (runInv_of_run hrun).sound
  have hplace := fence_of_place hs htrace
  have hc := fence_consistent st.clocks hs
  obtain ⟨e, he, hea⟩ := entry_of_map htrace (i := 0) rfl
  obtain ⟨f, hf, hfa⟩ := entry_of_map htrace (i := 2) rfl
  have hfirst : (store_exclusive (1000 : BitVec 64)).Runs [(fence st.clocks hs).label 0] () :=
    .set (.done ())
  have hseen : (load_exclusive (V := BitVec 64)).Runs [(fence st.clocks hs).label 2] 1003 :=
    .get 1003 (.done 1003)
  have hloaded := an_exclusive_load_sees_every_update _ _ hrun hplace hc he (Prod.mk.inj hea).2 hf
    (Prod.mk.inj hfa).2 (by decide) hfirst hseen (fun _ => fetch_add_with 3 .AcqRel)
    (fun _ v => v + 3) (fun k hk => ?_) fun _ _ _ _ _ => rfl
  · exact ⟨st, _, f, _, hrun, hplace, hc, hf, (Prod.mk.inj hfa).2, hseen, hloaded⟩
  · refine ⟨fun _ => rfl, [.update 1000 1003], .value 1000, .rmw 1000, ?_⟩
    obtain ⟨-, hlow, hhigh, -⟩ := Execution.mem_between.mp hk
    obtain rfl : k = 1 := by omega
    exact List.mem_singleton_self _

end melinoe.atomic
