-- Permits and views on threads. A value moves to another thread only where its
-- type is `Send`, and it ends where a join lets a thread that still holds its loan
-- see what was done with it. Every access of every thread is in one trace.
import Mathlib.Data.List.Pairwise
import Melinoe.Clocks
import Melinoe.PermitRuns

open loans runs clocks

namespace melinoe.token

variable {A : Type}

/-! ## Accesses -/

/-- How an access goes to its place. `atomic` stands for loads too. -/
inductive Mode
  | read
  | write
  | atomic
deriving DecidableEq

/-- Two accesses of one place, unordered, are a data race unless both are plain reads
or both are atomic. -/
def Mode.Conflicts (m n : Mode) : Prop := m = .write ∨ m ≠ n

structure Touch (A : Type) where
  place : A
  mode : Mode

/-- How a shared reference reaches a place: the payloads are `Sync`, so all that is
written through it is the memory of an atomic. -/
def shared_mode (isAtomic : A → Bool) (x : A) : Mode := if isAtomic x then .atomic else .read

/-- An access that shared references do not make. -/
def Touch.Exclusive (isAtomic : A → Bool) (t : Touch A) : Prop :=
  t.mode ≠ shared_mode isAtomic t.place

theorem shared_mode_ne_write (isAtomic : A → Bool) (x : A) :
    shared_mode isAtomic x ≠ .write := by
  unfold shared_mode
  split <;> exact Mode.noConfusion

/-- What conflicts with a shared access is no shared access. -/
theorem exclusive_of_conflicts {isAtomic : A → Bool} {t : Touch A}
    (h : t.mode.Conflicts (shared_mode isAtomic t.place)) : t.Exclusive isAtomic := by
  rcases h with h | h
  · unfold Touch.Exclusive
    rw [h]
    exact (shared_mode_ne_write isAtomic t.place).symm
  · exact h

/-! ## Values on threads -/

structure Placed (V : Type) where
  thread : Nat
  value : V

/-- The values of one thread. -/
def placed {V : Type} (thread : Nat) (values : List V) : List (Placed V) :=
  values.map (⟨thread, ·⟩)

@[simp] theorem values_placed {V : Type} (thread : Nat) (values : List V) :
    (placed thread values).map (·.value) = values := by
  unfold placed
  rw [List.map_map]
  exact List.map_id values

/-- A live permit or view as its loan has it: the thread it is on, and the accesses
that its thread must have seen before it makes one of its own. -/
structure Holding (A : Type) where
  thread : Nat
  loan : Loan Nat
  needs : Touch A → Prop

section Holdings

variable (brandOf : A → Nat) (isAtomic : A → Bool)

/-- An exclusive permit may reach every place of its brand. -/
def Placed.permit_holding (p : Placed (Permit Nat)) : Holding A where
  thread := p.thread
  loan := p.value.loan
  needs t := brandOf t.place = p.value.loan.of ∧
    (p.value.loan.kind = .exclusive ∨ t.Exclusive isAtomic)

def Placed.view_holding (v : Placed (View A)) : Holding A where
  thread := v.thread
  loan := v.value.loan
  needs t := t.place ∈ v.value.places ∧ (v.value.kind = .exclusive ∨ t.Exclusive isAtomic)

end Holdings

/-! ## The states and the steps -/

/-- A `State` whose values are on threads, with the accesses made so far. -/
structure Threads (A : Type) where
  owners : List Owner
  permits : List (Placed (Permit Nat))
  views : List (Placed (View A))
  next : Nat
  clocks : Clocks (Touch A)

namespace Threads

def init : Threads A := ⟨[], [], [], 0, .init⟩

/-- The state without the threads and the accesses. -/
def forget (st : Threads A) : State A where
  owners := st.owners
  permits := st.permits.map (·.value)
  views := st.views.map (·.value)
  next := st.next

def holdings (brandOf : A → Nat) (isAtomic : A → Bool) (st : Threads A) : List (Holding A) :=
  st.permits.map (·.permit_holding brandOf isAtomic) ++ st.views.map (·.view_holding isAtomic)

/-- The thread of the owner, or of a live value of the loan. -/
inductive Holds (st : Threads A) (loan : Loan Nat) : Nat → Prop
  | owner {owner : Owner} (h : st.owners[loan.of]? = some owner) : Holds st loan owner.thread
  | permit {p : Placed (Permit Nat)} (h : p ∈ st.permits) (hl : p.value.loan = loan) :
      Holds st loan p.thread
  | view {v : Placed (View A)} (h : v ∈ st.views) (hl : v.value.loan = loan) :
      Holds st loan v.thread

/-- `u` synchronises with `t`: a spawn, a channel, a join. -/
def join (st : Threads A) (t u : Nat) : Threads A := { st with clocks := st.clocks.join t u }

end Threads

section Steps

variable [DecidableEq A]

open Threads in
/-- The steps of `State.Step`, each on the thread of the value it is of, then the
moves between threads, the accesses, and every other synchronisation. -/
inductive Threads.Step (brandOf : A → Nat) (isAtomic : A → Bool) : Threads A → Threads A → Prop
  | with_fresh_token {st : Threads A} (family : TokenFamily) (thread : Nat) :
      Step brandOf isAtomic st { st with owners := st.owners ++ [⟨family, thread⟩] }
  | borrow_owner {st : Threads A} {brand : Nat} {owner : Owner} {carrier : Carrier}
      (ho : st.owners[brand]? = some owner) (hl : owner.lends carrier = true)
      (ha : Admits st.forget.loans brand carrier.kind) :
      Step brandOf isAtomic st { st with
        permits := ⟨owner.thread, carrier, ⟨st.next, brand, carrier.kind⟩, rfl⟩ :: st.permits
        next := st.next + 1 }
  | copy_permit {st : Threads A} {p : Placed (Permit Nat)} (hp : p ∈ st.permits)
      (hc : p.value.carrier.is_copy = true) :
      Step brandOf isAtomic st { st with permits := p :: st.permits }
  /-- A borrow or a `SharedReadToken` is `Send` where the token of the family is
  `Send` and `Sync`. -/
  | send_permit {st : Threads A} {p : Placed (Permit Nat)}
      {before after : List (Placed (Permit Nat))} {owner : Owner} (thread : Nat)
      (hp : st.permits = before ++ p :: after)
      (ho : st.owners[p.value.loan.of]? = some owner) (hs : owner.family.is_send = true) :
      Step brandOf isAtomic st (Threads.join { st with
        permits := before ++ ⟨thread, p.value⟩ :: after } p.thread thread)
  /-- The lifetime of a permit ends: by then a thread that holds its loan has joined
  the thread that it was on. -/
  | end_permit {st : Threads A} {p : Placed (Permit Nat)} {rest : List (Placed (Permit Nat))}
      {thread : Nat} (hp : st.permits.Perm (p :: rest))
      (hh : Holds { st with permits := rest } p.value.loan thread) :
      Step brandOf isAtomic st (Threads.join { st with permits := rest } p.thread thread)
  | call {st : Threads A} {p : Placed (Permit Nat)} {rest : List (Placed (Permit Nat))}
      {object : Object brandOf} {access : Access A} (hp : st.permits.Perm (p :: rest))
      (hb : object.brand = p.value.loan.of) (ho : object.shape.Offers access)
      (ha : access.bound.accepts p.value.carrier = true) :
      Step brandOf isAtomic st { st with
        permits := rest
        views := placed p.thread (access.lend p.value ha) ++ st.views }
  | map {st : Threads A} {v : Placed (View A)} {rest : List (Placed (View A))} {places : Finset A}
      (hv : st.views.Perm (v :: rest)) (hs : places ⊆ v.value.places) :
      Step brandOf isAtomic st { st with views := ⟨v.thread, v.value.map places⟩ :: rest }
  | map_split {st : Threads A} {v : Placed (View A)} {rest : List (Placed (View A))}
      {left right : Finset A} (hv : st.views.Perm (v :: rest)) (hl : left ⊆ v.value.places)
      (hr : right ⊆ v.value.places) (hd : v.value.kind = .exclusive → Disjoint left right) :
      Step brandOf isAtomic st { st with
        views := ⟨v.thread, v.value.map left⟩ :: ⟨v.thread, v.value.map right⟩ :: rest }
  | copy_view {st : Threads A} {v : Placed (View A)} {rest : List (Placed (View A))}
      (hv : st.views.Perm (v :: rest)) (hk : v.value.kind = .shared) :
      Step brandOf isAtomic st { st with views := v :: v :: rest }
  /-- A view holds plain references, which are `Send` whatever the family is. -/
  | send_view {st : Threads A} {v : Placed (View A)} {before after : List (Placed (View A))}
      (thread : Nat) (hv : st.views = before ++ v :: after) :
      Step brandOf isAtomic st (Threads.join { st with
        views := before ++ ⟨thread, v.value⟩ :: after } v.thread thread)
  | end_view {st : Threads A} {v : Placed (View A)} {rest : List (Placed (View A))} {thread : Nat}
      (hv : st.views.Perm (v :: rest)) (hh : Holds { st with views := rest } v.value.loan thread) :
      Step brandOf isAtomic st (Threads.join { st with views := rest } v.thread thread)
  | send {st : Threads A} {brand thread : Nat} {owner : Owner}
      (ho : st.owners[brand]? = some owner) (hs : owner.family.is_send = true)
      (hl : ∀ l ∈ st.forget.loans, l.of ≠ brand) :
      Step brandOf isAtomic st (Threads.join { st with
        owners := st.owners.set brand { owner with thread } } owner.thread thread)
  /-- An access through a live view, on the thread that the view is on. -/
  | access {st : Threads A} {v : Placed (View A)} {x : A} {mode : Mode} (hv : v ∈ st.views)
      (hx : x ∈ v.value.places) (hm : v.value.kind = .shared → mode = shared_mode isAtomic x) :
      Step brandOf isAtomic st { st with clocks := st.clocks.record v.thread ⟨x, mode⟩ }
  | sync {st : Threads A} (t u : Nat) : Step brandOf isAtomic st (st.join t u)

variable {brandOf : A → Nat} {isAtomic : A → Bool} {st st' : Threads A}

/-! ## Without the threads, a run is a run of `State.Step` -/

/-- A step of the threads is a step of the state, or a move or an access that the
state does not have. -/
theorem forget_step (h : Threads.Step brandOf isAtomic st st') :
    st'.forget = st.forget ∨ State.Step brandOf st.forget st'.forget := by
  cases h with
  | with_fresh_token family thread => exact .inr (.with_fresh_token family thread)
  | borrow_owner ho hl ha => exact .inr (.borrow_owner ho hl ha)
  | copy_permit hp hc => exact .inr (.copy_permit (List.mem_map_of_mem hp) hc)
  | send_permit thread hp ho hs => exact .inl (by simp [Threads.forget, Threads.join, hp])
  | end_permit hp hh => exact .inr (.drop_permit (hp.map _))
  | @call p rest object access hp hb ho ha =>
    right
    have hperm : st.forget.permits.Perm (p.value :: rest.map Placed.value) := hp.map Placed.value
    have hcall := State.Step.call hperm hb ho ha
    simpa [Threads.forget] using hcall
  | map hv hs => exact .inr (.map (hv.map _) hs)
  | map_split hv hl hr hd => exact .inr (.map_split (hv.map _) hl hr hd)
  | copy_view hv hk => exact .inr (.copy_view (hv.map _) hk)
  | send_view thread hv => exact .inl (by simp [Threads.forget, Threads.join, hv])
  | end_view hv hh => exact .inr (.drop_view (hv.map _))
  | send ho hs hl => exact .inr (.send ho hs hl)
  | access hv hx hm => exact .inl rfl
  | sync t u => exact .inl rfl

end Steps

/-! ## What the threads have seen -/

section Seen

variable (brandOf : A → Nat) (isAtomic : A → Bool)

/-- A thread that has a part in the brand: the owner or a live value is on it. -/
inductive Threads.Party (st : Threads A) (brand : Nat) : Nat → Prop
  | owner {owner : Owner} (h : st.owners[brand]? = some owner) : Party st brand owner.thread
  | value {x : Holding A} (h : x ∈ st.holdings brandOf isAtomic) (hof : x.loan.of = brand) :
      Party st brand x.thread

/-- No access is forgotten by all that have a part in its brand. -/
def Kept (st : Threads A) : Prop :=
  ∀ (i : Nat) e, st.clocks.trace[i]? = some e →
    ∃ t, st.Party brandOf isAtomic (brandOf e.access.place) t ∧ i ∈ st.clocks.knows t

structure Seen (st : Threads A) : Prop where
  minted : ∀ x ∈ st.holdings brandOf isAtomic, x.loan.of < st.owners.length
  values : ∀ x ∈ st.holdings brandOf isAtomic, st.clocks.Knows x.thread x.needs
  /-- While a brand is not lent exclusively, its owner may lend it shared. -/
  lenders : ∀ brand owner, st.owners[brand]? = some owner →
    (∀ x ∈ st.holdings brandOf isAtomic, x.loan.of = brand → x.loan.kind = .shared) →
    st.clocks.Knows owner.thread fun t => brandOf t.place = brand ∧ t.Exclusive isAtomic
  kept : Kept brandOf isAtomic st

end Seen

variable {brandOf : A → Nat} {isAtomic : A → Bool} {st st' : Threads A}

theorem Threads.Party.of_values {brand t : Nat} (h : st.Party brandOf isAtomic brand t)
    (ho : st'.owners = st.owners)
    (hv : st'.holdings brandOf isAtomic = st.holdings brandOf isAtomic) :
    st'.Party brandOf isAtomic brand t := by
  cases h with
  | owner h => exact .owner (ho ▸ h)
  | value hx hof => exact .value (hv ▸ hx) hof

theorem holdings_loans : (st.holdings brandOf isAtomic).map (·.loan) = st.forget.loans := by
  simp [Threads.holdings, State.loans, Threads.forget, Placed.permit_holding, Placed.view_holding,
    Function.comp_def]

theorem holding_loan {x : Holding A} (h : x ∈ st.holdings brandOf isAtomic) :
    x.loan ∈ st.forget.loans := by
  have hmem : x.loan ∈ (st.holdings brandOf isAtomic).map (·.loan) := List.mem_map_of_mem h
  rw [holdings_loans] at hmem
  exact hmem

/-- A brand that has no live value is all known to the thread of its owner. -/
theorem knows_of_unlent (h : Kept brandOf isAtomic st) {brand : Nat} {owner : Owner}
    (ho : st.owners[brand]? = some owner)
    (hn : ∀ x ∈ st.holdings brandOf isAtomic, x.loan.of ≠ brand) :
    st.clocks.Knows owner.thread fun t => brandOf t.place = brand := by
  intro i e he hb
  obtain ⟨t, hparty, ht⟩ := h i e he
  cases hparty with
  | owner ho' =>
    rw [hb, ho, Option.some.injEq] at ho'
    rw [ho']
    exact ht
  | value hx hof => exact absurd (hof.trans hb) (hn _ hx)

/-- Values that take the place of one value, with its loan. If none does, some thread
with a part in the brand has joined the thread of the value. -/
theorem seen_replace (new : List (Holding A)) (hl : Lawful st.forget.loans)
    (h : Seen brandOf isAtomic st) {x : Holding A} {rest : List (Holding A)}
    (hst : (st.holdings brandOf isAtomic).Perm (x :: rest))
    (hst' : (st'.holdings brandOf isAtomic).Perm (new ++ rest)) (howners : st'.owners = st.owners)
    (htrace : st'.clocks.trace = st.clocks.trace)
    (hgrow : ∀ t, st.clocks.knows t ⊆ st'.clocks.knows t)
    (hnew : ∀ y ∈ new, y.loan = x.loan ∧ (∀ t, y.needs t → x.needs t) ∧
      st.clocks.knows x.thread ⊆ st'.clocks.knows y.thread)
    (hend : ∃ t, st'.Party brandOf isAtomic x.loan.of t ∧
      st.clocks.knows x.thread ⊆ st'.clocks.knows t) : Seen brandOf isAtomic st' := by
  have hx : x ∈ st.holdings brandOf isAtomic := hst.mem_iff.mpr (by simp)
  have hrest : ∀ y ∈ rest, y ∈ st.holdings brandOf isAtomic :=
    fun y hy => hst.mem_iff.mpr (by simp [hy])
  have hmem : ∀ y, y ∈ st'.holdings brandOf isAtomic → y ∈ new ∨ y ∈ rest :=
    fun y hy => List.mem_append.mp (hst'.mem_iff.mp hy)
  have hkept : Kept brandOf isAtomic st' := by
    intro i e he
    rw [htrace] at he
    obtain ⟨t, hparty, ht⟩ := h.kept i e he
    cases hparty with
    | owner ho => exact ⟨_, .owner (howners ▸ ho), hgrow _ ht⟩
    | @value y hy hof =>
      rcases List.mem_cons.mp (hst.mem_iff.mp hy) with rfl | hy
      · obtain ⟨u, hu, hsub⟩ := hend
        exact ⟨u, hof ▸ hu, hsub ht⟩
      · exact ⟨_, .value (hst'.mem_iff.mpr (List.mem_append_right _ hy)) hof, hgrow _ ht⟩
  refine ⟨fun y hy => ?_, fun y hy => ?_, fun brand owner ho hsh => ?_, hkept⟩
  · rw [howners]
    rcases hmem y hy with hy | hy
    · rw [(hnew y hy).1]
      exact h.minted x hx
    · exact h.minted y (hrest y hy)
  · rcases hmem y hy with hy | hy
    · obtain ⟨-, hneeds, hsub⟩ := hnew y hy
      exact (h.values x hx).mono htrace hsub hneeds
    · exact (h.values y (hrest y hy)).mono htrace (hgrow _) fun _ => id
  · by_cases hcase : x.loan.of = brand ∧ x.loan.kind = .exclusive
    · -- an exclusive loan has ended, so nothing of the brand is lent any more
      obtain ⟨rfl, hkind⟩ := hcase
      have hgone : ∀ y ∈ st'.holdings brandOf isAtomic, y.loan.of ≠ x.loan.of := by
        intro y hy hof
        have hshared := hsh y hy hof
        rcases hmem y hy with hy | hy
        · rw [(hnew y hy).1, hkind] at hshared
          cases hshared
        · rw [hl _ (holding_loan hx) _ (holding_loan (hrest y hy)) hof.symm hkind, hkind] at hshared
          cases hshared
      exact (knows_of_unlent hkept ho hgone).mono rfl (Finset.Subset.refl _) fun _ hb => hb.1
    · rw [howners] at ho
      refine (h.lenders brand owner ho fun y hy hof => ?_).mono htrace (hgrow _) fun _ => id
      rcases List.mem_cons.mp (hst.mem_iff.mp hy) with rfl | hy
      · have hne : y.loan.kind ≠ .exclusive := fun he => hcase ⟨hof, he⟩
        cases hk : y.loan.kind <;> trivial
      · exact hsh y (hst'.mem_iff.mpr (List.mem_append_right _ hy)) hof

theorem seen_init : Seen brandOf isAtomic Threads.init where
  minted x hx := by cases hx
  values x hx := by cases hx
  lenders brand owner ho := by cases ho
  kept i e he := by cases he

/-- A fresh brand has no accesses yet. -/
theorem seen_mint (h : Seen brandOf isAtomic st) (owner : Owner) :
    Seen brandOf isAtomic { st with owners := st.owners ++ [owner] } := by
  refine ⟨fun x hx => ?_, h.values, fun brand lender ho hsh => ?_, fun i e he => ?_⟩
  · have hlt := h.minted x hx
    rw [List.length_append]
    omega
  · by_cases hb : brand < st.owners.length
    · rw [List.getElem?_append_left hb] at ho
      exact h.lenders brand lender ho hsh
    · intro i e he hfresh
      obtain ⟨t, hparty, -⟩ := h.kept i e he
      rw [hfresh.1] at hparty
      cases hparty with
      | owner ho' => exact absurd (List.getElem?_eq_some_iff.mp ho').1 hb
      | value hx hof => exact absurd (hof ▸ h.minted _ hx) hb
  · obtain ⟨t, hparty, ht⟩ := h.kept i e he
    refine ⟨t, ?_, ht⟩
    cases hparty with
    | owner ho =>
      refine .owner ?_
      rw [List.getElem?_append_left (List.getElem?_eq_some_iff.mp ho).1]
      exact ho
    | value hx hof => exact .value hx hof

/-- A permit that is borrowed from the owner, on its thread, next to what is live. -/
theorem seen_borrow (h : Seen brandOf isAtomic st) {brand next : Nat} {owner : Owner}
    {p : Permit Nat} (ho : st.owners[brand]? = some owner) (hof : p.loan.of = brand)
    (ha : Admits st.forget.loans brand p.loan.kind) :
    Seen brandOf isAtomic { st with permits := ⟨owner.thread, p⟩ :: st.permits, next } := by
  subst hof
  have hadmits : ∀ x ∈ st.holdings brandOf isAtomic, x.loan.of = p.loan.of →
      p.loan.kind = .shared ∧ x.loan.kind = .shared := fun x hx => ha _ (holding_loan hx)
  refine ⟨fun x hx => ?_, fun x hx => ?_, fun brand lender hl hsh => ?_, fun i e he => ?_⟩
  · rcases List.mem_cons.mp hx with rfl | hx
    · exact (List.getElem?_eq_some_iff.mp ho).1
    · exact h.minted x hx
  · rcases List.mem_cons.mp hx with rfl | hx
    · by_cases hk : p.loan.kind = .exclusive
      · have hnone : ∀ x ∈ st.holdings brandOf isAtomic, x.loan.of ≠ p.loan.of := by
          intro x hx hof
          have hshared := (hadmits x hx hof).1
          rw [hk] at hshared
          cases hshared
        exact (knows_of_unlent h.kept ho hnone).mono rfl (Finset.Subset.refl _) fun _ hn => hn.1
      · have hshared : ∀ x ∈ st.holdings brandOf isAtomic, x.loan.of = p.loan.of →
            x.loan.kind = .shared := fun x hx hof => (hadmits x hx hof).2
        exact (h.lenders _ owner ho hshared).mono rfl (Finset.Subset.refl _)
          fun _ hn => ⟨hn.1, hn.2.resolve_left hk⟩
    · exact h.values x hx
  · exact h.lenders brand lender hl fun x hx => hsh x (List.mem_cons_of_mem _ hx)
  · obtain ⟨t, hparty, ht⟩ := h.kept i e he
    refine ⟨t, ?_, ht⟩
    cases hparty with
    | owner ho => exact .owner ho
    | value hx hof => exact .value (List.mem_cons_of_mem _ hx) hof

/-- An owner that is not lent moves with all that was done with its brand. -/
theorem seen_send (h : Seen brandOf isAtomic st) {brand : Nat} {owner : Owner} (thread : Nat)
    (ho : st.owners[brand]? = some owner) (hn : ∀ l ∈ st.forget.loans, l.of ≠ brand) :
    Seen brandOf isAtomic (Threads.join { st with
      owners := st.owners.set brand { owner with thread } } owner.thread thread) := by
  have hunlent : ∀ x ∈ st.holdings brandOf isAtomic, x.loan.of ≠ brand :=
    fun x hx => hn _ (holding_loan hx)
  have hgrow := Clocks.knows_join st.clocks owner.thread thread
  have hmoved := Clocks.knows_joined st.clocks owner.thread thread
  have hlt := (List.getElem?_eq_some_iff.mp ho).1
  refine ⟨fun x hx => ?_, fun x hx => ?_, fun other lender hl hsh => ?_, fun i e he => ?_⟩
  · simpa [Threads.join] using h.minted x hx
  · exact (h.values x hx).mono rfl (hgrow _) fun _ => id
  · by_cases hb : other = brand
    · subst hb
      simp only [Threads.join, List.getElem?_set_self hlt, Option.some.injEq] at hl
      subst hl
      exact (knows_of_unlent h.kept ho hunlent).mono rfl hmoved fun _ ht => ht.1
    · simp only [Threads.join, List.getElem?_set_ne (Ne.symm hb)] at hl
      exact (h.lenders other lender hl hsh).mono rfl (hgrow _) fun _ => id
  · obtain ⟨t, hparty, ht⟩ := h.kept i e he
    cases hparty with
    | @owner lender hl =>
      by_cases hb : brandOf e.access.place = brand
      · rw [hb, ho, Option.some.injEq] at hl
        subst hl
        have hset : (st.owners.set brand { owner with thread })[brandOf e.access.place]? =
            some { owner with thread } := by rw [hb, List.getElem?_set_self hlt]
        exact ⟨_, .owner hset, hmoved ht⟩
      · have hset : (st.owners.set brand { owner with thread })[brandOf e.access.place]? =
            some lender := by rw [List.getElem?_set_ne (Ne.symm hb), hl]
        exact ⟨_, .owner hset, hgrow _ ht⟩
    | value hx hof => exact ⟨_, .value hx hof, hgrow _ ht⟩

/-! ## An access -/

theorem mem_holdings {x : Holding A} : x ∈ st.holdings brandOf isAtomic ↔
    (∃ p ∈ st.permits, p.permit_holding brandOf isAtomic = x) ∨
      ∃ v ∈ st.views, v.view_holding isAtomic = x := by
  unfold Threads.holdings
  rw [List.mem_append, List.mem_map, List.mem_map]

theorem view_mem_holdings {v : Placed (View A)} (hv : v ∈ st.views) :
    v.view_holding isAtomic ∈ st.holdings brandOf isAtomic := mem_holdings.mpr (.inr ⟨v, hv, rfl⟩)

/-- Two live views that reach one place are one view, or both are shared. -/
theorem eq_or_shared_of_overlap (h : Inv brandOf st.forget) {v w : Placed (View A)} {x : A}
    (hv : v ∈ st.views) (hw : w ∈ st.views) (hxv : x ∈ v.value.places)
    (hxw : x ∈ w.value.places) : v = w ∨ v.value.kind = .shared ∧ w.value.kind = .shared := by
  by_cases hvw : v = w
  · exact .inl hvw
  · have hvm : v.value ∈ st.forget.views := List.mem_map_of_mem hv
    have hwm : w.value ∈ st.forget.views := List.mem_map_of_mem hw
    have hpair : st.views.Pairwise fun a b => Apart a.value b.value :=
      List.pairwise_map.mp h.apart
    have : Std.Symm fun a b : Placed (View A) => Apart a.value b.value :=
      ⟨fun _ _ hab => hab.symm⟩
    have hex := excludes_of_lawful h.lawful hvm hwm (hpair.forall hv hw hvw)
    exact .inr (overlap_is_shared h hvm hwm hex hxv hxw)

/-- A value that must have seen the accesses that a view makes is on its thread. -/
theorem needs_access (h : Inv brandOf st.forget) {v : Placed (View A)} {x : A} {mode : Mode}
    (hv : v ∈ st.views) (hx : x ∈ v.value.places)
    (hm : v.value.kind = .shared → mode = shared_mode isAtomic x) {y : Holding A}
    (hy : y ∈ st.holdings brandOf isAtomic) (hneeds : y.needs ⟨x, mode⟩) : y.thread = v.thread := by
  have hvm : v.value ∈ st.forget.views := List.mem_map_of_mem hv
  have hbrand : brandOf x = v.value.brand := h.branded _ hvm x hx
  rcases mem_holdings.mp hy with ⟨p, hp, rfl⟩ | ⟨w, hw, rfl⟩
  · -- no permit of the brand is live beside what the view may do
    obtain ⟨hof, hexclusive⟩ := hneeds
    have hpm : p.value ∈ st.forget.permits := List.mem_map_of_mem hp
    cases hk : v.value.kind with
    | exclusive => exact absurd (hof.symm.trans hbrand) (no_permit_beside h hvm hk hpm)
    | shared =>
      have hkind := hexclusive.resolve_right fun hne => hne (hm hk)
      have hloan : v.value.loan = p.value.loan :=
        h.lawful _ (State.mem_loans.mpr (.inl ⟨_, hpm, rfl⟩)) _
          (State.mem_loans.mpr (.inr ⟨_, hvm, rfl⟩)) (hof.symm.trans hbrand) hkind
      have hshared := h.moved _ hpm _ hvm hloan.symm
      rw [hkind] at hshared
      cases hshared
  · obtain ⟨hxw, hexclusive⟩ := hneeds
    rcases eq_or_shared_of_overlap h hv hw hx hxw with rfl | ⟨hvs, hws⟩
    · rfl
    · rcases hexclusive with hk | hne
      · exact absurd hk (by rw [hws]; exact Kind.noConfusion)
      · exact absurd (hm hvs) hne

theorem seen_access (hinv : Inv brandOf st.forget) (h : Seen brandOf isAtomic st)
    {v : Placed (View A)} {x : A} {mode : Mode} (hv : v ∈ st.views) (hx : x ∈ v.value.places)
    (hm : v.value.kind = .shared → mode = shared_mode isAtomic x) :
    Seen brandOf isAtomic { st with clocks := st.clocks.record v.thread ⟨x, mode⟩ } := by
  have hparty : v.view_holding isAtomic ∈ st.holdings brandOf isAtomic := view_mem_holdings hv
  have hbrand : brandOf x = v.value.brand := hinv.branded _ (List.mem_map_of_mem hv) x hx
  refine ⟨h.minted, fun y hy => ?_, fun brand owner ho hsh => ?_, fun i e he => ?_⟩
  · exact (h.values y hy).record (needs_access hinv hv hx hm hy)
  · refine (h.lenders brand owner ho hsh).record fun hnew => ?_
    -- the view is over a shared loan, so the access is one that shared references make
    have hloan := hsh _ hparty (hbrand.symm.trans hnew.1)
    have hkind : v.value.kind = .shared := by
      cases hk : v.value.kind with
      | shared => rfl
      | exclusive =>
        have hexclusive : (v.view_holding isAtomic).loan.kind = .exclusive := v.value.authorised hk
        rw [hloan] at hexclusive
        cases hexclusive
    exact absurd (hm hkind) hnew.2
  · rcases Clocks.trace_record he with he | ⟨rfl, rfl⟩
    · obtain ⟨t, ht, hi⟩ := h.kept i e he
      exact ⟨t, ht.of_values rfl rfl, Clocks.knows_record st.clocks v.thread ⟨x, mode⟩ t hi⟩
    · have hof : (v.view_holding isAtomic).loan.of = brandOf x := hbrand.symm
      exact ⟨v.thread, (Threads.Party.value hparty hof).of_values rfl rfl,
        Clocks.knows_recorded _ _ _⟩

/-- The two accesses are a data race unless they are ordered. -/
def Touch.Races (x y : Touch A) : Prop := x.place = y.place ∧ x.mode.Conflicts y.mode

/-- No two accesses of one place are a data race. -/
def Raceless (st : Threads A) : Prop := st.clocks.Raceless Touch.Races

theorem raceless_access (h : Seen brandOf isAtomic st) (hr : Raceless st) {v : Placed (View A)}
    {x : A} {mode : Mode} (hv : v ∈ st.views) (hx : x ∈ v.value.places)
    (hm : v.value.kind = .shared → mode = shared_mode isAtomic x) :
    Raceless { st with clocks := st.clocks.record v.thread ⟨x, mode⟩ } := by
  apply Clocks.raceless_record hr
  rintro i e he ⟨hplace, hc⟩
  -- the thread of the view has seen what conflicts with an access through it
  refine h.values _ (view_mem_holdings hv) i e he ⟨hplace ▸ hx, ?_⟩
  cases hk : v.value.kind with
  | exclusive => exact .inl rfl
  | shared =>
    right
    rw [hm hk] at hc
    exact exclusive_of_conflicts (by rw [hplace]; exact hc)

/-! ## Every step -/

theorem holdings_permit {p : Placed (Permit Nat)} {rest : List (Placed (Permit Nat))}
    (hp : st.permits.Perm (p :: rest)) :
    (st.holdings brandOf isAtomic).Perm (p.permit_holding brandOf isAtomic ::
      (rest.map (·.permit_holding brandOf isAtomic) ++ st.views.map (·.view_holding isAtomic))) :=
  (hp.map _).append_right _

theorem holdings_view {v : Placed (View A)} {rest : List (Placed (View A))}
    (hv : st.views.Perm (v :: rest)) :
    (st.holdings brandOf isAtomic).Perm (v.view_holding isAtomic ::
      (st.permits.map (·.permit_holding brandOf isAtomic) ++
        rest.map (·.view_holding isAtomic))) := by
  unfold Threads.holdings
  exact ((hv.map _).append_left _).trans List.perm_middle

/-- The permits of one loan that take the place of one of them. -/
theorem seen_permits (new : List (Placed (Permit Nat))) (hl : Lawful st.forget.loans)
    (h : Seen brandOf isAtomic st) {p : Placed (Permit Nat)} {rest : List (Placed (Permit Nat))}
    (hp : st.permits.Perm (p :: rest)) (hp' : st'.permits.Perm (new ++ rest))
    (hviews : st'.views = st.views) (howners : st'.owners = st.owners)
    (htrace : st'.clocks.trace = st.clocks.trace)
    (hgrow : ∀ t, st.clocks.knows t ⊆ st'.clocks.knows t)
    (hnew : ∀ q ∈ new, q.value = p.value ∧ st.clocks.knows p.thread ⊆ st'.clocks.knows q.thread)
    (hend : ∃ t, st'.Party brandOf isAtomic p.value.loan.of t ∧
      st.clocks.knows p.thread ⊆ st'.clocks.knows t) : Seen brandOf isAtomic st' := by
  have hst' : (st'.holdings brandOf isAtomic).Perm (new.map (·.permit_holding brandOf isAtomic) ++
      (rest.map (·.permit_holding brandOf isAtomic) ++
        st.views.map (·.view_holding isAtomic))) := by
    unfold Threads.holdings
    rw [hviews, ← List.append_assoc, ← List.map_append]
    exact (hp'.map _).append_right _
  apply seen_replace _ hl h (holdings_permit hp) hst' howners htrace hgrow
  · intro y hy
    obtain ⟨q, hq, rfl⟩ := List.mem_map.mp hy
    obtain ⟨hvalue, hsub⟩ := hnew q hq
    unfold Placed.permit_holding
    rw [hvalue]
    exact ⟨rfl, fun _ => id, hsub⟩
  · exact hend

/-- The views of part of the places of one view that take its place. -/
theorem seen_views (new : List (Placed (View A))) (hl : Lawful st.forget.loans)
    (h : Seen brandOf isAtomic st) {v : Placed (View A)} {rest : List (Placed (View A))}
    (hv : st.views.Perm (v :: rest))
    (hv' : st'.views.Perm (new ++ rest)) (hpermits : st'.permits = st.permits)
    (howners : st'.owners = st.owners) (htrace : st'.clocks.trace = st.clocks.trace)
    (hgrow : ∀ t, st.clocks.knows t ⊆ st'.clocks.knows t)
    (hnew : ∀ w ∈ new, w.value.loan = v.value.loan ∧ w.value.kind = v.value.kind ∧
      w.value.places ⊆ v.value.places ∧ st.clocks.knows v.thread ⊆ st'.clocks.knows w.thread)
    (hend : ∃ t, st'.Party brandOf isAtomic v.value.loan.of t ∧
      st.clocks.knows v.thread ⊆ st'.clocks.knows t) : Seen brandOf isAtomic st' := by
  have hst' : (st'.holdings brandOf isAtomic).Perm (new.map (·.view_holding isAtomic) ++
      (st.permits.map (·.permit_holding brandOf isAtomic) ++
        rest.map (·.view_holding isAtomic))) := by
    have hmap : (st'.views.map (·.view_holding isAtomic)).Perm
        (new.map (·.view_holding isAtomic) ++ rest.map (·.view_holding isAtomic)) := by
      rw [← List.map_append]
      exact hv'.map _
    unfold Threads.holdings
    rw [hpermits]
    refine (hmap.append_left _).trans ?_
    rw [← List.append_assoc, ← List.append_assoc]
    exact List.perm_append_comm.append_right _
  apply seen_replace _ hl h (holdings_view hv) hst' howners htrace hgrow
  · intro y hy
    obtain ⟨w, hw, rfl⟩ := List.mem_map.mp hy
    obtain ⟨hloan, hkind, hsub, hk⟩ := hnew w hw
    exact ⟨hloan, fun t ht => ⟨hsub ht.1, hkind ▸ ht.2⟩, hk⟩
  · exact hend

/-- The receiver of a join has a part in the brand of the loan. -/
theorem party_of_holds {loan : Loan Nat} {t : Nat} (h : st.Holds loan t) :
    st.Party brandOf isAtomic loan.of t := by
  cases h with
  | owner ho => exact .owner ho
  | @permit p hp hl => exact .value (mem_holdings.mpr (.inl ⟨p, hp, rfl⟩)) (congrArg Loan.of hl)
  | @view v hv hl => exact .value (view_mem_holdings hv) (congrArg Loan.of hl)

theorem offers_views [DecidableEq A] {shape : Shape A} {access : Access A}
    (h : shape.Offers access) : access.views ≠ [] := by
  cases h with
  | vec_get h | vec_get_mut h | deque_get h | deque_get_mut h =>
    obtain ⟨cell, -, rfl⟩ := Option.map_eq_some_iff.mp h
    exact List.cons_ne_nil _ _
  | _ => exact List.cons_ne_nil _ _

section Run

variable [DecidableEq A]

/-- The views of a call are on the thread of its permit, and reach places of its brand. -/
theorem seen_call (hl : Lawful st.forget.loans) (h : Seen brandOf isAtomic st)
    {p : Placed (Permit Nat)} {rest : List (Placed (Permit Nat))} {object : Object brandOf}
    {access : Access A} (hp : st.permits.Perm (p :: rest)) (hb : object.brand = p.value.loan.of)
    (ho : object.shape.Offers access) (ha : access.bound.accepts p.value.carrier = true) :
    Seen brandOf isAtomic { st with
      permits := rest
      views := placed p.thread (access.lend p.value ha) ++ st.views } := by
  refine seen_replace ((placed p.thread (access.lend p.value ha)).map (·.view_holding isAtomic))
    hl h (holdings_permit hp) ?_ rfl rfl (fun _ => Finset.Subset.refl _) ?_ ?_
  · unfold Threads.holdings
    rw [List.map_append, ← List.append_assoc, ← List.append_assoc]
    exact List.perm_append_comm.append_right _
  · intro y hy
    obtain ⟨v, hv, rfl⟩ := List.mem_map.mp hy
    obtain ⟨w, hw, rfl⟩ := List.mem_map.mp hv
    obtain ⟨reached, hreached, rfl⟩ := List.mem_map.mp hw
    refine ⟨rfl, fun t ht => ⟨?_, ?_⟩, Finset.Subset.refl _⟩
    · rw [object.branded _ (offers_places ho reached hreached ht.1), hb]
    · exact ht.2.imp_left fun he => write_permit_is_exclusive (access.gated he ▸ ha)
  · obtain ⟨places, hplaces⟩ := List.exists_mem_of_ne_nil _ (offers_views ho)
    have hlent : ∃ v ∈ access.lend p.value ha, v.loan = p.value.loan :=
      ⟨_, List.mem_map_of_mem hplaces, rfl⟩
    obtain ⟨v, hv, hloan⟩ := hlent
    refine ⟨p.thread, party_of_holds (.view (v := ⟨p.thread, v⟩) ?_ hloan), Finset.Subset.refl _⟩
    exact List.mem_append_left _ (List.mem_map_of_mem hv)

theorem seen_step (hinv : Inv brandOf st.forget) (h : Seen brandOf isAtomic st)
    (hs : Threads.Step brandOf isAtomic st st') : Seen brandOf isAtomic st' := by
  have hsame : ∀ t, st.clocks.knows t ⊆ st.clocks.knows t := fun _ => Finset.Subset.refl _
  have hgrow := Clocks.knows_join st.clocks
  have hjoined := Clocks.knows_joined st.clocks
  cases hs with
  | with_fresh_token family thread => exact seen_mint h _
  | borrow_owner ho hl ha => exact seen_borrow h ho rfl ha
  | @copy_permit p hp hc =>
    obtain ⟨before, after, heq⟩ := List.append_of_mem hp
    have hperm : st.permits.Perm (p :: (before ++ after)) := by
      rw [heq]
      exact List.perm_middle
    refine seen_permits [p, p] hinv.lawful h hperm (hperm.cons p) rfl rfl rfl hsame ?_
      ⟨p.thread, party_of_holds (.permit (List.mem_cons_self ..) rfl), hsame _⟩
    intro q hq
    have hqp : q = p := by simpa using hq
    subst hqp
    exact ⟨rfl, hsame _⟩
  | @send_permit p before after owner thread hp ho hs =>
    have hperm : st.permits.Perm (p :: (before ++ after)) := by
      rw [hp]
      exact List.perm_middle
    refine seen_permits [⟨thread, p.value⟩] hinv.lawful h hperm List.perm_middle rfl rfl rfl
      (hgrow _ _) ?_
      ⟨thread, party_of_holds (.permit (p := ⟨thread, p.value⟩) (by simp [Threads.join]) rfl),
        hjoined _ _⟩
    intro q hq
    rw [List.mem_singleton.mp hq]
    exact ⟨rfl, hjoined _ _⟩
  | @end_permit p rest thread hp hh =>
    exact seen_permits [] hinv.lawful h hp (.refl _) rfl rfl rfl (hgrow _ _)
      (fun q hq => by cases hq) ⟨thread, (party_of_holds hh).of_values rfl rfl, hjoined _ _⟩
  | call hp hb ho ha => exact seen_call hinv.lawful h hp hb ho ha
  | @map v rest places hv hs =>
    refine seen_views [⟨v.thread, v.value.map places⟩] hinv.lawful h hv (.refl _) rfl rfl
      rfl hsame ?_ ⟨v.thread, party_of_holds (.view
        (v := ⟨v.thread, v.value.map places⟩) (List.mem_cons_self ..) rfl), hsame _⟩
    intro w hw
    rw [List.mem_singleton.mp hw]
    exact ⟨rfl, rfl, hs, hsame _⟩
  | @map_split v rest left right hv hl hr hd =>
    refine seen_views [⟨v.thread, v.value.map left⟩, ⟨v.thread, v.value.map right⟩] hinv.lawful
      h hv (.refl _) rfl rfl rfl hsame ?_ ⟨v.thread, party_of_holds (.view
        (v := ⟨v.thread, v.value.map left⟩) (List.mem_cons_self ..) rfl), hsame _⟩
    intro w hw
    rcases List.mem_cons.mp hw with rfl | hw
    · exact ⟨rfl, rfl, hl, hsame _⟩
    · rw [List.mem_singleton.mp hw]
      exact ⟨rfl, rfl, hr, hsame _⟩
  | @copy_view v rest hv hk =>
    refine seen_views [v, v] hinv.lawful h hv (.refl _) rfl rfl rfl hsame ?_
      ⟨v.thread, party_of_holds (.view (List.mem_cons_self ..) rfl), hsame _⟩
    intro w hw
    have hwv : w = v := by simpa using hw
    subst hwv
    exact ⟨rfl, rfl, Finset.Subset.refl _, hsame _⟩
  | @send_view v before after thread hv =>
    have hperm : st.views.Perm (v :: (before ++ after)) := by
      rw [hv]
      exact List.perm_middle
    refine seen_views [⟨thread, v.value⟩] hinv.lawful h hperm List.perm_middle rfl rfl rfl
      (hgrow _ _) ?_
      ⟨thread, party_of_holds (.view (v := ⟨thread, v.value⟩) (by simp [Threads.join]) rfl),
        hjoined _ _⟩
    intro w hw
    rw [List.mem_singleton.mp hw]
    exact ⟨rfl, rfl, Finset.Subset.refl _, hjoined _ _⟩
  | @end_view v rest thread hv hh =>
    exact seen_views [] hinv.lawful h hv (.refl _) rfl rfl rfl (hgrow _ _)
      (fun w hw => by cases hw) ⟨thread, (party_of_holds hh).of_values rfl rfl, hjoined _ _⟩
  | @send brand thread owner ho hs hl => exact seen_send h thread ho hl
  | access hv hx hm => exact seen_access hinv h hv hx hm
  | sync t u =>
    refine ⟨h.minted, fun x hx => ?_, fun brand owner ho hsh => ?_, fun i e he => ?_⟩
    · exact (h.values x hx).mono rfl (hgrow t u _) fun _ => id
    · exact (h.lenders brand owner ho hsh).mono rfl (hgrow t u _) fun _ => id
    · obtain ⟨w, hw, hi⟩ := h.kept i e he
      exact ⟨w, hw.of_values rfl rfl, hgrow t u w hi⟩

end Run

end melinoe.token
