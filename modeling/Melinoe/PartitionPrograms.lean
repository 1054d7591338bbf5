-- Programs over a branded vector or a branded queue: sequential calls (`ops.rs`,
-- `views.rs`) and passes through the partitioned drivers (`partition.rs`), each
-- with any plan, with or without an executor, under any schedule. Every run of a
-- program is its sequential run on a list. Allocations succeed, so a queue's plan
-- has no more chunks than an allocation holds the descriptors of.
import Melinoe.PartitionPasses

open passes tasks tiles runs

namespace melinoe.collections

open driver_core region sync

variable {μ κ σ τ O T M π R : Type}

/-! ## The sequential calls -/

/-- What a call on the values gives back, in order, and what it leaves, or the
payload of its panic. -/
abbrev OpMeaning (O T π : Type) : Type := O → List T → Except π (List T × List T)

/-- The sequential calls of `BrandedVec`. -/
inductive BrandedVec.Op (T : Type)
  | push (value : T)
  | pop
  | insert (index : Nat) (value : T)
  | remove (index : Nat)
  | swap_remove (index : Nat)
  | swap (a b : Nat)
  | clear
  | truncate (len : Nat)
  /-- `f` gives the new values, one at a time. -/
  | resize_with (new_len : Nat) (f : Nat → T)
  /-- `f` gives the new value, and whether it is retained. -/
  | retain_mut (f : T → T × Bool)
  | drain (start stop : Nat)
  | split_off (index : Nat)
  | append (other : List T)
  | extend (iter : List T)
  | get (index : Nat)
  /-- `get_mut(index, permit)`, and `f` on what it gives. -/
  | get_mut (index : Nat) (f : T → T)
  | as_slice
  /-- `as_mut_slice(permit)`, and `f` on each value, with its index. -/
  | as_mut_slice (f : Nat → T → T)

/-- `swap(a, b)`; `index_fail` is the payload of the panic of an index that is out of
bounds. -/
def swap_values (index_fail : π) (a b : Nat) (l : List T) : Except π (List T × List T) :=
  match l[a]?, l[b]? with
  | some x, some y => .ok ([], (l.set a y).set b x)
  | _, _ => .error index_fail

def drain_values (index_fail : π) (start stop : Nat) (l : List T) :
    Except π (List T × List T) :=
  if start ≤ stop ∧ stop ≤ l.length then
    .ok ((Span.mk start (stop - start)).cut l, l.take start ++ l.drop stop)
  else .error index_fail

def split_values (index_fail : π) (index : Nat) (l : List T) : Except π (List T × List T) :=
  if index ≤ l.length then .ok (l.drop index, l.take index) else .error index_fail

def retain_values (f : T → T × Bool) (l : List T) : List T :=
  l.filterMap fun x => if (f x).2 then some (f x).1 else none

def BrandedVec.Op.exec (index_fail : π) : OpMeaning (BrandedVec.Op T) T π
  | push value, l => .ok ([], l ++ [value])
  | pop, l => .ok (l.getLast?.toList, l.dropLast)
  | insert index value, l =>
    if index ≤ l.length then .ok ([], l.take index ++ value :: l.drop index)
    else .error index_fail
  | remove index, l =>
    match l[index]? with
    | some x => .ok ([x], l.eraseIdx index)
    | none => .error index_fail
  | swap_remove index, l =>
    match l[index]?, l.getLast? with
    | some x, some last => .ok ([x], (l.set index last).dropLast)
    | _, _ => .error index_fail
  | swap a b, l => swap_values index_fail a b l
  | clear, _ => .ok ([], [])
  | truncate len, l => .ok ([], l.take len)
  | resize_with new_len f, l =>
    .ok ([], l.take new_len ++ (List.range (new_len - l.length)).map f)
  | retain_mut f, l => .ok ([], retain_values f l)
  | drain start stop, l => drain_values index_fail start stop l
  | split_off index, l => split_values index_fail index l
  | append other, l => .ok ([], l ++ other)
  | extend iter, l => .ok ([], l ++ iter)
  | get index, l => .ok (l[index]?.toList, l)
  | get_mut index f, l => .ok (l[index]?.toList, l.modify index f)
  | as_slice, l => .ok (l, l)
  | as_mut_slice f, l => .ok (l, l.mapIdx f)

/-- The sequential calls of `BrandedVecDeque`. -/
inductive BrandedVecDeque.Op (T : Type)
  | push_back (value : T)
  | push_front (value : T)
  | pop_back
  | pop_front
  | clear
  | truncate (len : Nat)
  | swap (a b : Nat)
  | drain (start stop : Nat)
  | split_off (index : Nat)
  | append (other : List T)
  /-- `f` gives the new value, and whether it is retained. -/
  | retain_mut (f : T → T × Bool)
  | extend (iter : List T)
  | get (index : Nat)
  /-- `get_mut(index, permit)`, and `f` on what it gives. -/
  | get_mut (index : Nat) (f : T → T)
  | as_slices
  /-- `as_mut_slices(permit)`, and `f` on each value, with its logical index. -/
  | as_mut_slices (f : Nat → T → T)

def BrandedVecDeque.Op.exec (index_fail : π) : OpMeaning (BrandedVecDeque.Op T) T π
  | push_back value, l => .ok ([], l ++ [value])
  | push_front value, l => .ok ([], value :: l)
  | pop_back, l => .ok (l.getLast?.toList, l.dropLast)
  | pop_front, l => .ok (l.head?.toList, l.tail)
  | clear, _ => .ok ([], [])
  | truncate len, l => .ok ([], l.take len)
  | swap a b, l => swap_values index_fail a b l
  | drain start stop, l => drain_values index_fail start stop l
  | split_off index, l => split_values index_fail index l
  | append other, l => .ok ([], l ++ other)
  | retain_mut f, l => .ok ([], retain_values f l)
  | extend iter, l => .ok ([], l ++ iter)
  | get index, l => .ok (l[index]?.toList, l)
  | get_mut index f, l => .ok (l[index]?.toList, l.modify index f)
  | as_slices, l => .ok (l, l)
  | as_mut_slices f, l => .ok (l, l.mapIdx f)

/-! ## Programs -/

variable [AddMonoid M]

/-- A program over one collection. It goes on with what a call gives back, and
with the sum of the results of a pass, in the order of the shards. -/
inductive Program (O T M π R : Type) [AddMonoid M]
  | ret (value : R)
  | panic (payload : π)
  | call (op : O) (next : List T → Program O T M π R)
  | partition_map_mut_with (closure : PassClosure T M π) (next : M → Program O T M π R)
  | partition_map_with (weight : Nat → T → Except π M) (next : M → Program O T M π R)

namespace Program

/-- The sequential run: each pass is one pass over the whole list. -/
def exec (meaning : OpMeaning O T π) : Program O T M π R → List T → Except π R × List T
  | ret value, l => (.ok value, l)
  | panic payload, l => (.error payload, l)
  | call op next, l =>
    match meaning op l with
    | .ok (given, l') => (next given).exec meaning l'
    | .error payload => (.error payload, l)
  | partition_map_mut_with closure next, l =>
    match pass closure.step 0 l with
    | (.ok total, l') => (next total).exec meaning l'
    | (.error payload, l') => (.error payload, l')
  | partition_map_with weight next, l =>
    match pass (weigh weight) 0 l with
    | (.ok total, l') => (next total).exec meaning l'
    | (.error payload, l') => (.error payload, l')

/-- In the sequential run the list never has more items than an allocation holds. -/
def Fits (meaning : OpMeaning O T π) : Program O T M π R → List T → Prop
  | ret _, l => l.length ≤ isizeMax
  | panic _, l => l.length ≤ isizeMax
  | call op next, l => l.length ≤ isizeMax ∧
    ∀ given l', meaning op l = .ok (given, l') → (next given).Fits meaning l'
  | partition_map_mut_with closure next, l => l.length ≤ isizeMax ∧
    ∀ total l', pass closure.step 0 l = (.ok total, l') → (next total).Fits meaning l'
  | partition_map_with weight next, l => l.length ≤ isizeMax ∧
    ∀ total l', pass (weigh weight) 0 l = (.ok total, l') → (next total).Fits meaning l'

/-- How a run may end where the sequential run panics: at the same call or pass,
and in a pass with the payload of any item that fails. The items of the pass
are then as they were or as it makes them. -/
def Panics (meaning : OpMeaning O T π) : Program O T M π R → List T → π → List T → Prop
  | ret _, _, _, _ => False
  | panic payload, l, q, l' => q = payload ∧ l' = l
  | call op next, l, q, l' =>
    match meaning op l with
    | .ok (given, k) => (next given).Panics meaning k q l'
    | .error payload => q = payload ∧ l' = l
  | partition_map_mut_with closure next, l, q, l' =>
    match pass closure.step 0 l with
    | (.ok total, k) => (next total).Panics meaning k q l'
    | (.error _, _) => Raises closure.step 0 l q ∧ Swept closure.step 0 l l'
  | partition_map_with weight next, l, q, l' =>
    match pass (weigh weight) 0 l with
    | (.ok total, k) => (next total).Panics meaning k q l'
    | (.error _, _) => Raises (weigh weight) 0 l q ∧ l' = l

/-- A run that ends with `out` and leaves `l'` is the sequential run. -/
def Agrees (meaning : OpMeaning O T π) (p : Program O T M π R) (l : List T) (out : Except π R)
    (l' : List T) : Prop :=
  match p.exec meaning l with
  | (.ok value, k) => out = .ok value ∧ l' = k
  | (.error _, _) => ∃ payload, out = .error payload ∧ p.Panics meaning l payload l'

end Program

/-! ## The runs of a program -/

/-- Where a run is: before a part of the program, in a call of `drive`, or at
the end. -/
inductive State (μ κ O T M π R : Type) [AddMonoid M]
  | before (p : Program O T M π R) (mem : μ)
  | driving (num_chunks : Nat) (run : Nat → Task κ T SlotCall M π) (d : Drive μ κ T M π)
    (next : M → Program O T M π R)
  | left (out : Except π R) (mem : μ)

variable [Memory μ κ T]

/-- A partitioned call is entered. -/
def State.enter (slot : Option Executor) (others : List SlotCall) (mem : μ)
    (next : M → Program O T M π R) : Call σ κ T M π → State μ κ O T M π R
  | .done results => .before (next results.sum) mem
  | .drive num_chunks arg f =>
    .driving num_chunks (Call.run arg f) (Drive.init slot others mem) next

/-- The steps of a run. Each pass has a plan of its own, and finds any executor
in the slot and any calls of other threads on it; the executor meets its contract
and returns. There is no step with a plan whose descriptors fit no allocation, and none
from a call of `drive` that ends with a fault. -/
inductive Program.Step (storage : Storage μ κ σ τ T M π) (meaning : OpMeaning O T π) :
    State μ κ O T M π R → State μ κ O T M π R → Prop
  | ret {value : R} {mem : μ} :
      Program.Step storage meaning (.before (.ret value) mem) (.left (.ok value) mem)
  | panic {payload : π} {mem : μ} :
      Program.Step storage meaning (.before (.panic payload) mem) (.left (.error payload) mem)
  /-- Where the values then lie is the collection's affair. -/
  | call {op : O} {next : List T → Program O T M π R} {mem mem' : μ} {given : List T}
      (h : meaning op (storage.values mem) = .ok (given, storage.values mem')) :
      Program.Step storage meaning (.before (.call op next) mem) (.before (next given) mem')
  | call_panics {op : O} {next : List T → Program O T M π R} {mem : μ} {payload : π}
      (h : meaning op (storage.values mem) = .error payload) :
      Program.Step storage meaning (.before (.call op next) mem) (.left (.error payload) mem)
  | map_mut {closure : PassClosure T M π} {next : M → Program O T M π R} {mem : μ}
      (plan : PartitionPlan) (reported : Option NonZeroUsize) (slot : Option Executor)
      (others : List SlotCall) {call : Call σ κ T M π}
      (h : storage.partition_map_mut_with mem plan reported closure.task = some call) :
      Program.Step storage meaning (.before (.partition_map_mut_with closure next) mem)
        (.enter slot others mem next call)
  | map {weight : Nat → T → Except π M} {next : M → Program O T M π R} {mem : μ}
      (plan : PartitionPlan) (reported : Option NonZeroUsize) (slot : Option Executor)
      (others : List SlotCall) {call : Call τ κ T M π}
      (h : storage.partition_map_with mem plan reported (weighing weight) = some call) :
      Program.Step storage meaning (.before (.partition_map_with weight next) mem)
        (.enter slot others mem next call)
  | drive {num_chunks : Nat} {run : Nat → Task κ T SlotCall M π} {d d' : Drive μ κ T M π}
      {next : M → Program O T M π R} (h : driver_core.Step num_chunks run False d d') :
      Program.Step storage meaning (.driving num_chunks run d next)
        (.driving num_chunks run d' next)
  | returned {num_chunks : Nat} {run : Nat → Task κ T SlotCall M π} {d : Drive μ κ T M π}
      {next : M → Program O T M π R} {results : List M} (h : d.exit = some (.returned results)) :
      Program.Step storage meaning (.driving num_chunks run d next)
        (.before (next results.sum) d.pool.mem)
  | resumed {num_chunks : Nat} {run : Nat → Task κ T SlotCall M π} {d : Drive μ κ T M π}
      {next : M → Program O T M π R} {payload : π} (h : d.exit = some (.resumed payload)) :
      Program.Step storage meaning (.driving num_chunks run d next)
        (.left (.error payload) d.pool.mem)

/-- The run has ended as the sequential run from `l`. -/
def Program.EndsAs (storage : Storage μ κ σ τ T M π) (meaning : OpMeaning O T π)
    (p : Program O T M π R) (l : List T) (s : State μ κ O T M π R) : Prop :=
  ∃ out mem, s = .left out mem ∧ p.Agrees meaning l out (storage.values mem)

section runs

variable {storage : Storage μ κ σ τ T M π} {meaning : OpMeaning O T π}
  {Post : State μ κ O T M π R → Prop}

/-! ## One pass -/

theorem ends_left {out : Except π R} {mem : μ} (h : Post (.left out mem)) :
    Ends (Program.Step storage meaning) Post (.left out mem) :=
  .intro (fun _ hs => by cases hs) fun _ => h

/-- A state that some step leaves, and from which every step goes to an end. -/
theorem ends_of_steps {s : State μ κ O T M π R} (hgo : ∃ t, Program.Step storage meaning s t)
    (h : ∀ t, Program.Step storage meaning s t →
      Ends (Program.Step storage meaning) Post t) :
    Ends (Program.Step storage meaning) Post s := by
  refine .intro h fun hst => ?_
  obtain ⟨t, ht⟩ := hgo
  exact absurd ht (hst t)

variable {ψ : Type} {step : ItemStep T M π} {call : Call ψ κ T M π}
  {next : M → Program O T M π R} {mem : μ}

/-- What follows a call that makes a pass: the total of the pass and the values
that it leaves, or a panic of one of its items. -/
theorem ends_of_pass (h : MakesPass storage.values mem step call) (slot : Option Executor)
    (others : List SlotCall)
    (hok : ∀ total mem', pass step 0 (storage.values mem) = (.ok total, storage.values mem') →
      Ends (Program.Step storage meaning) Post (.before (next total) mem'))
    (herror : ∀ payload mem', (∃ first k, pass step 0 (storage.values mem) = (.error first, k)) →
      Raises step 0 (storage.values mem) payload →
      Swept step 0 (storage.values mem) (storage.values mem') →
        Post (.left (.error payload) mem')) :
    Ends (Program.Step storage meaning) Post (.enter slot others mem next call) := by
  obtain ⟨hends, hexits⟩ := h slot others
  cases call with
  | done results =>
    obtain ⟨spans, out, hout, hpieces⟩ := hexits _ _ (.done results)
    cases out with
    | error payload => cases hout
    | ok totals =>
      cases hout
      exact hok _ mem hpieces.returned
  | drive num_chunks arg f =>
    have hexit : ∀ d exit, Reaches (driver_core.Step num_chunks (Call.run arg f) False)
        (Drive.init slot others mem) d → d.exit = some exit → ∃ spans out, exit = exit_of out ∧
          Pieces step spans (storage.values mem) (storage.values d.pool.mem) out :=
      fun d exit hr hx => hexits exit d.pool (.drive hr hx)
    refine Ends.inside (fun d => State.driving num_chunks (Call.run arg f) d next) hends
      (fun _ _ hab => .drive hab) (fun d s hr hs => ?_) fun d hr hx => ?_
    · cases hs with
      | drive hstep => exact .inl ⟨_, hstep, rfl⟩
      | returned hx =>
        obtain ⟨spans, out, hout, hpieces⟩ := hexit d _ hr hx
        cases out with
        | error payload => cases hout
        | ok totals =>
          cases hout
          exact .inr (hok _ _ hpieces.returned)
      | resumed hx =>
        obtain ⟨spans, out, hout, hpieces⟩ := hexit d _ hr hx
        cases out with
        | ok totals => cases hout
        | error payload =>
          cases hout
          obtain ⟨hfirst, hraises, hswept⟩ := hpieces.failed
          exact .inr (ends_left (herror _ _ hfirst hraises hswept))
    · obtain ⟨exit, hx⟩ := hx
      obtain ⟨spans, out, rfl, -⟩ := hexit d exit hr hx
      cases out with
      | ok results => exact ⟨_, .returned hx⟩
      | error payload => exact ⟨_, .resumed hx⟩

/-! ## Whole programs -/

omit [Memory μ κ T] in
theorem Program.Fits.length {p : Program O T M π R} {l : List T} (h : p.Fits meaning l) :
    l.length ≤ isizeMax := by
  cases p with
  | ret value => exact h
  | panic payload => exact h
  | call op next => exact h.1
  | partition_map_mut_with closure next => exact h.1
  | partition_map_with weight next => exact h.1

omit [Memory μ κ T] in
/-- After a call or a pass that returns, the sequential run is that of what follows. -/
theorem Program.EndsAs.after [Memory μ κ T] {storage : Storage μ κ σ τ T M π}
    {p q : Program O T M π R} {l k : List T} (hexec : p.exec meaning l = q.exec meaning k)
    (hpanics : p.Panics meaning l = q.Panics meaning k) {s : State μ κ O T M π R}
    (h : q.EndsAs storage meaning k s) : p.EndsAs storage meaning l s := by
  obtain ⟨out, mem, rfl, hagrees⟩ := h
  refine ⟨out, mem, rfl, ?_⟩
  unfold Program.Agrees at hagrees ⊢
  rwa [hexec, hpanics]

/-- A program that starts with a pass ends as its sequential run, if what follows
the pass does. -/
theorem ends_as_pass {p : Program O T M π R} (hmakes : MakesPass storage.values mem step call)
    (slot : Option Executor) (others : List SlotCall)
    (hreturns : ∀ total l, pass step 0 (storage.values mem) = (.ok total, l) →
      p.exec meaning (storage.values mem) = (next total).exec meaning l ∧
      p.Panics meaning (storage.values mem) = (next total).Panics meaning l)
    (hfails : ∀ first l, pass step 0 (storage.values mem) = (.error first, l) →
      p.exec meaning (storage.values mem) = (.error first, l) ∧
      ∀ payload l', Raises step 0 (storage.values mem) payload →
        Swept step 0 (storage.values mem) l' →
        p.Panics meaning (storage.values mem) payload l')
    (hnext : ∀ total mem', pass step 0 (storage.values mem) = (.ok total, storage.values mem') →
      Ends (Program.Step storage meaning)
        ((next total).EndsAs storage meaning (storage.values mem'))
        (.before (next total) mem')) :
    Ends (Program.Step storage meaning) (p.EndsAs storage meaning (storage.values mem))
      (.enter slot others mem next call) := by
  refine ends_of_pass hmakes slot others (fun total mem' hpass => ?_)
    fun payload mem' hfirst hraises hswept => ?_
  · obtain ⟨hexec, hpanics⟩ := hreturns total _ hpass
    exact (hnext total mem' hpass).mono fun s _ hs => hs.after hexec hpanics
  · obtain ⟨first, l, hpass⟩ := hfirst
    obtain ⟨hexec, hpanics⟩ := hfails first l hpass
    refine ⟨_, mem', rfl, ?_⟩
    unfold Program.Agrees
    rw [hexec]
    exact ⟨payload, rfl, hpanics payload _ hraises hswept⟩

/-- Every run of a program ends, and as its sequential run. By induction on the
program: what follows a call or a pass starts from the values that it leaves. -/
theorem program_ends_as_exec (storage : Storage μ κ σ τ T M π) (meaning : OpMeaning O T π)
    (p : Program O T M π R) (mem : μ) (hfits : p.Fits meaning (storage.values mem)) :
    Ends (Program.Step storage meaning) (p.EndsAs storage meaning (storage.values mem))
      (.before p mem) := by
  induction p generalizing mem with
  | ret value =>
    refine ends_of_steps ⟨_, .ret⟩ fun t ht => ?_
    cases ht
    exact ends_left ⟨_, mem, rfl, rfl, rfl⟩
  | panic payload =>
    refine ends_of_steps ⟨_, .panic⟩ fun t ht => ?_
    cases ht
    exact ends_left ⟨_, mem, rfl, payload, rfl, rfl, rfl⟩
  | call op next ih =>
    cases hop : meaning op (storage.values mem) with
    | error payload =>
      refine ends_of_steps ⟨_, .call_panics hop⟩ fun t ht => ?_
      cases ht with
      | call h => simp [hop] at h
      | call_panics h =>
        rw [hop] at h
        cases h
        refine ends_left ⟨_, mem, rfl, ?_⟩
        simp [Program.Agrees, Program.exec, Program.Panics, hop]
    | ok r =>
      obtain ⟨given, l'⟩ := r
      obtain ⟨mem', rfl⟩ := storage.stores l'
      refine ends_of_steps ⟨_, .call hop⟩ fun t ht => ?_
      cases ht with
      | call_panics h => simp [hop] at h
      | call h =>
        refine (ih _ _ (hfits.2 _ _ h)).mono fun s _ hs => hs.after ?_ ?_
        · simp only [Program.exec, h]
        · funext q k
          simp only [Program.Panics, h]
  | partition_map_mut_with closure next ih =>
    refine ends_of_steps ?_ fun t ht => ?_
    · obtain ⟨plan, reported, call, hcall⟩ := storage.writes_some mem closure hfits.length
      exact ⟨_, .map_mut plan reported none [] hcall⟩
    · cases ht with
      | map_mut plan reported slot others hcall =>
        have hpass := storage.writes mem plan reported closure _ hfits.length hcall
        apply ends_as_pass hpass slot others
        · intro total l h
          simp only [Program.exec, h, true_and]
          funext q k
          simp only [Program.Panics, h]
        · intro first l h
          simp only [Program.exec, Program.Panics, h, true_and]
          exact fun payload l' hraises hswept => ⟨hraises, hswept⟩
        · exact fun total mem' h => ih total mem' (hfits.2 _ _ h)
  | partition_map_with weight next ih =>
    refine ends_of_steps ?_ fun t ht => ?_
    · obtain ⟨plan, reported, call, hcall⟩ := storage.reads_some mem weight hfits.length
      exact ⟨_, .map plan reported none [] hcall⟩
    · cases ht with
      | map plan reported slot others hcall =>
        have hpass := storage.reads mem plan reported weight _ hfits.length hcall
        apply ends_as_pass hpass slot others
        · intro total l h
          simp only [Program.exec, h, true_and]
          funext q k
          simp only [Program.Panics, h]
        · intro first l h
          simp only [Program.exec, Program.Panics, h, true_and]
          exact fun payload l' hraises hswept => ⟨hraises, hswept.eq_of_weigh⟩
        · exact fun total mem' h => ih total mem' (hfits.2 _ _ h)

end runs

/-- Whatever plans its passes are made with, however many threads there are,
whichever executors are registered meanwhile, in whatever order the shards run
and wherever a queue's values wrap: every run of a program over a vector, and of
one over a queue, ends, and as the program does by itself on a list. -/
theorem a_program_runs_as_on_a_list (index_fail slice_fail : π) :
    (∀ (p : Program (BrandedVec.Op T) T M π R) (cells : List T),
      p.Fits (BrandedVec.Op.exec index_fail) cells →
      Ends (Program.Step (BrandedVec.storage slice_fail) (BrandedVec.Op.exec index_fail))
        (p.EndsAs (BrandedVec.storage slice_fail) (BrandedVec.Op.exec index_fail) cells)
        (.before p cells)) ∧
    ∀ (p : Program (BrandedVecDeque.Op T) T M π R) (front back : List T),
      p.Fits (BrandedVecDeque.Op.exec index_fail) (front ++ back) →
      Ends (Program.Step (BrandedVecDeque.storage slice_fail) (BrandedVecDeque.Op.exec index_fail))
        (p.EndsAs (BrandedVecDeque.storage slice_fail) (BrandedVecDeque.Op.exec index_fail)
          (front ++ back))
        (.before p ⟨front, back⟩) := by
  refine ⟨fun p cells hfits => ?_, fun p front back hfits => ?_⟩
  · exact program_ends_as_exec (BrandedVec.storage slice_fail) _ p cells hfits
  · exact program_ends_as_exec (BrandedVecDeque.storage slice_fail) _ p ⟨front, back⟩ hfits

/-- Adds a 6, bumps each value (a 0 panics), drops the first and adds up the rest. -/
def bump_and_sum (add_six drop_first : O) : Program O Nat Nat Nat Nat :=
  .call add_six fun _ =>
  .partition_map_mut_with (.loop fun i x => if x = 0 then .error i else .ok (x + 1, x)) fun old =>
  .call drop_first fun _ =>
  .partition_map_with (fun _ x => .ok x) fun new => .ret (old + new)

theorem bump_and_sum_over_five_values :
    (bump_and_sum (.push_back 6) .pop_front).exec (BrandedVecDeque.Op.exec 0) [1, 2, 3, 4, 5] =
      (.ok 46, [3, 4, 5, 6, 7]) ∧
    Ends (Program.Step (BrandedVecDeque.storage 0) (BrandedVecDeque.Op.exec 0))
      ((bump_and_sum (.push_back 6) .pop_front).EndsAs (BrandedVecDeque.storage 0)
        (BrandedVecDeque.Op.exec 0) [1, 2, 3, 4, 5])
      (.before (bump_and_sum (.push_back 6) .pop_front) ⟨[1, 2, 3], [4, 5]⟩) ∧
    Ends (Program.Step (BrandedVec.storage 0) (BrandedVec.Op.exec 0))
      ((bump_and_sum (.push 6) (.remove 0)).EndsAs (BrandedVec.storage 0)
        (BrandedVec.Op.exec 0) [1, 2, 3, 4, 5])
      (.before (bump_and_sum (.push 6) (.remove 0)) [1, 2, 3, 4, 5]) := by
  refine ⟨rfl, (a_program_runs_as_on_a_list 0 0).2 _ [1, 2, 3] [4, 5] ?_,
    (a_program_runs_as_on_a_list 0 0).1 _ [1, 2, 3, 4, 5] ?_⟩
  all_goals
    refine ⟨by decide, fun given l h => ?_⟩
    cases h
    refine ⟨by decide, fun total l h => ?_⟩
    cases h
    refine ⟨by decide, fun given l h => ?_⟩
    cases h
    refine ⟨by decide, fun total l h => ?_⟩
    cases h
    show 5 ≤ isizeMax
    decide

end melinoe.collections
