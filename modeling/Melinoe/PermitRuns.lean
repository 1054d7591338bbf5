-- Every order of borrows, shares, copies, gated calls, projections, drops and
-- moves of owners: while an exclusive view of a brand is live, so is no other
-- view or permit of it, but for the siblings that one call or split gave.
import Melinoe.Permits
import Melinoe.Runs

open loans runs

namespace melinoe.token

variable {A : Type}

/-! ## Live views -/

/-- A live view: `MelinoeRef`, `MelinoeMut`, or a plain reference that a call
returned. It is exclusive only over an exclusive loan of its brand's owner. -/
structure View (A : Type) where
  loan : Loan Nat
  kind : Kind
  places : Finset A
  authorised : kind = .exclusive → loan.kind = .exclusive

/-- The brand of the cells that the view is of. -/
def View.brand (v : View A) : Nat := v.loan.of

/-- The views of a call with a permit that its bound accepts: `P: 'a` ties each to
the loan of the permit. -/
def Access.lend (access : Access A) (p : Permit Nat)
    (h : access.bound.accepts p.carrier = true) : List (View A) :=
  access.views.map fun places =>
    { loan := p.loan
      kind := access.kind
      places
      authorised := fun he => write_permit_is_exclusive (access.gated he ▸ h) }

/-- `map`: a view of part of the places, with the loan of the view that it consumes. -/
def View.map (v : View A) (places : Finset A) : View A := { v with places }

/-- Two views of one exclusive loan are of one kind, and apart if they are exclusive. -/
def Apart (v w : View A) : Prop :=
  v.loan = w.loan → v.loan.kind = .exclusive →
    v.kind = w.kind ∧ (v.kind = .exclusive → Disjoint v.places w.places)

theorem Apart.symm {v w : View A} (h : Apart v w) : Apart w v := by
  intro hl hk
  obtain ⟨hkind, hd⟩ := h hl.symm (hl ▸ hk)
  exact ⟨hkind.symm, fun he => (hd (hkind.trans he)).symm⟩

/-- The views of one call are apart, whatever the permit was. -/
theorem lend_apart (access : Access A) (p : Permit Nat)
    (h : access.bound.accepts p.carrier = true) : (access.lend p h).Pairwise Apart := by
  unfold Access.lend
  rw [List.pairwise_map]
  by_cases hk : access.kind = .exclusive
  · exact (access.apart hk).imp fun hd _ _ => ⟨rfl, fun _ => hd⟩
  · exact List.pairwise_of_forall fun _ _ _ _ => ⟨rfl, fun he => absurd he hk⟩

/-- Two permits of one loan hold it shared. -/
def Permit.Apart (p q : Permit Nat) : Prop := p.loan = q.loan → p.loan.kind = .shared

theorem Permit.Apart.symm {p q : Permit Nat} (h : p.Apart q) : q.Apart p :=
  fun heq => heq ▸ h heq.symm

/-! ## The states and the steps -/

/-- The index of an owner is its brand. -/
structure State (A : Type) where
  owners : List Owner
  permits : List (Permit Nat)
  views : List (View A)
  next : Nat

namespace State

def init : State A := ⟨[], [], [], 0⟩

/-- The loans that some live value keeps alive. -/
def loans (st : State A) : List (Loan Nat) :=
  st.permits.map (·.loan) ++ st.views.map (·.loan)

theorem mem_loans {st : State A} {l : Loan Nat} :
    l ∈ st.loans ↔ (∃ p ∈ st.permits, p.loan = l) ∨ ∃ v ∈ st.views, v.loan = l := by
  simp [loans]

end State

section Steps

variable [DecidableEq A]

/-- An object of one brand. `brandOf` is the brand of each place of the memory. -/
structure Object (brandOf : A → Nat) where
  brand : Nat
  shape : Shape A
  branded : ∀ x ∈ shape.places, brandOf x = brand

/-- One safe call, or the end of one value. -/
inductive State.Step (brandOf : A → Nat) : State A → State A → Prop
  | with_fresh_token {st : State A} (family : TokenFamily) (thread : Nat) :
      Step brandOf st { st with owners := st.owners ++ [⟨family, thread⟩] }
  /-- `&token`, `&mut token` or `token.share()`. -/
  | borrow_owner {st : State A} {brand : Nat} {owner : Owner} {carrier : Carrier}
      (ho : st.owners[brand]? = some owner) (hl : owner.lends carrier = true)
      (ha : Admits st.loans brand carrier.kind) :
      Step brandOf st { st with
        permits := ⟨carrier, ⟨st.next, brand, carrier.kind⟩, rfl⟩ :: st.permits
        next := st.next + 1 }
  | copy_permit {st : State A} {p : Permit Nat} (hp : p ∈ st.permits)
      (hc : p.carrier.is_copy = true) : Step brandOf st { st with permits := p :: st.permits }
  | drop_permit {st : State A} {p : Permit Nat} {rest : List (Permit Nat)}
      (hp : st.permits.Perm (p :: rest)) : Step brandOf st { st with permits := rest }
  /-- A gated call, which takes its permit by value. -/
  | call {st : State A} {p : Permit Nat} {rest : List (Permit Nat)} {object : Object brandOf}
      {access : Access A} (hp : st.permits.Perm (p :: rest)) (hb : object.brand = p.loan.of)
      (ho : object.shape.Offers access) (ha : access.bound.accepts p.carrier = true) :
      Step brandOf st { st with permits := rest, views := access.lend p ha ++ st.views }
  | map {st : State A} {v : View A} {rest : List (View A)} {places : Finset A}
      (hv : st.views.Perm (v :: rest)) (hs : places ⊆ v.places) :
      Step brandOf st { st with views := v.map places :: rest }
  | map_split {st : State A} {v : View A} {rest : List (View A)} {left right : Finset A}
      (hv : st.views.Perm (v :: rest)) (hl : left ⊆ v.places) (hr : right ⊆ v.places)
      (hd : v.kind = .exclusive → Disjoint left right) :
      Step brandOf st { st with views := v.map left :: v.map right :: rest }
  /-- A shared reference is `Copy`. -/
  | copy_view {st : State A} {v : View A} {rest : List (View A)}
      (hv : st.views.Perm (v :: rest)) (hk : v.kind = .shared) :
      Step brandOf st { st with views := v :: v :: rest }
  | drop_view {st : State A} {v : View A} {rest : List (View A)}
      (hv : st.views.Perm (v :: rest)) : Step brandOf st { st with views := rest }
  /-- An owner is moved only while it is not borrowed. -/
  | send {st : State A} {brand thread : Nat} {owner : Owner}
      (ho : st.owners[brand]? = some owner) (hs : owner.family.is_send = true)
      (hl : ∀ l ∈ st.loans, l.of ≠ brand) :
      Step brandOf st { st with owners := st.owners.set brand { owner with thread } }

end Steps

/-! ## What every state has -/

structure Inv (brandOf : A → Nat) (st : State A) : Prop where
  lawful : Lawful st.loans
  /-- An exclusive permit is one value. -/
  unique : st.permits.Pairwise Permit.Apart
  /-- An exclusive permit that a call took is not a value any more. -/
  moved : ∀ p ∈ st.permits, ∀ v ∈ st.views, p.loan = v.loan → p.loan.kind = .shared
  apart : st.views.Pairwise Apart
  branded : ∀ v ∈ st.views, ∀ x ∈ v.places, brandOf x = v.brand

variable {brandOf : A → Nat} {st st' : State A}

theorem inv_init : Inv brandOf State.init where
  lawful := lawful_nil
  unique := .nil
  moved p hp := by cases hp
  apart := .nil
  branded v hv := by cases hv

/-- Views that take the place of one view, with its loan. -/
theorem inv_replace {v : View A} {rest : List (View A)} (new : List (View A))
    (h : Inv brandOf st) (hv : st.views.Perm (v :: rest)) (hloan : ∀ w ∈ new, w.loan = v.loan)
    (hkind : ∀ w ∈ new, w.kind = v.kind) (hsub : ∀ w ∈ new, w.places ⊆ v.places)
    (happart : new.Pairwise Apart) : Inv brandOf { st with views := new ++ rest } := by
  have hmem : ∀ w ∈ v :: rest, w ∈ st.views := fun w hw => hv.mem_iff.mpr hw
  have hpair := (hv.pairwise_iff Apart.symm).mp h.apart
  obtain ⟨hrest, hpair⟩ := List.pairwise_cons.mp hpair
  refine ⟨lawful_of_subset h.lawful fun l hl => ?_, h.unique, fun p hp w hw hl => ?_, ?_, ?_⟩
  · rw [State.mem_loans] at hl ⊢
    rcases hl with hl | ⟨w, hw, rfl⟩
    · exact .inl hl
    · rcases List.mem_append.mp hw with hw | hw
      · exact .inr ⟨v, hmem v (by simp), (hloan w hw).symm⟩
      · exact .inr ⟨w, hmem w (by simp [hw]), rfl⟩
  · rcases List.mem_append.mp hw with hw | hw
    · exact h.moved p hp v (hmem v (by simp)) (hl.trans (hloan w hw))
    · exact h.moved p hp w (hmem w (by simp [hw])) hl
  · refine List.pairwise_append.mpr ⟨happart, hpair, fun w hw u hu hl hk => ?_⟩
    rw [hloan w hw] at hl hk
    rw [hkind w hw]
    obtain ⟨hkinds, hd⟩ := hrest u hu hl hk
    exact ⟨hkinds, fun he => (hd he).mono_left (hsub w hw)⟩
  · intro w hw x hx
    rcases List.mem_append.mp hw with hw | hw
    · have hbrand := h.branded v (hmem v (by simp)) x (hsub w hw hx)
      unfold View.brand at *
      rw [hbrand, hloan w hw]
    · exact h.branded w (hmem w (by simp [hw])) x hx

/-- A permit that is borrowed from the owner next to what is live. -/
theorem inv_borrow {p : Permit Nat} {next : Nat} (h : Inv brandOf st)
    (ha : Admits st.loans p.loan.of p.loan.kind) :
    Inv brandOf { st with permits := p :: st.permits, next } := by
  have hnew : ∀ l ∈ st.loans, p.loan = l → p.loan.kind = .shared :=
    fun l hl heq => (ha l hl (by rw [heq])).1
  refine ⟨lawful_open h.lawful ha, .cons (fun q hq => ?_) h.unique, ?_, h.apart, h.branded⟩
  · exact hnew q.loan (State.mem_loans.mpr (.inl ⟨q, hq, rfl⟩))
  · intro q hq v hv heq
    rcases List.mem_cons.mp hq with rfl | hq
    · exact hnew v.loan (State.mem_loans.mpr (.inr ⟨v, hv, rfl⟩)) heq
    · exact h.moved q hq v hv heq

theorem inv_copy {p : Permit Nat} (h : Inv brandOf st) (hp : p ∈ st.permits)
    (hc : p.loan.kind = .shared) : Inv brandOf { st with permits := p :: st.permits } := by
  refine ⟨lawful_of_subset h.lawful fun l hl => ?_, .cons (fun _ _ _ => hc) h.unique,
    fun q hq v hv heq => ?_, h.apart, h.branded⟩
  · rw [State.mem_loans] at hl ⊢
    rcases hl with ⟨q, hq, rfl⟩ | hl
    · rcases List.mem_cons.mp hq with rfl | hq
      · exact .inl ⟨_, hp, rfl⟩
      · exact .inl ⟨q, hq, rfl⟩
    · exact .inr hl
  · rcases List.mem_cons.mp hq with rfl | hq
    · exact hc
    · exact h.moved q hq v hv heq

/-- A permit that ends, with views of its loan that take its place. -/
theorem inv_spend {p : Permit Nat} {rest : List (Permit Nat)} (new : List (View A))
    (h : Inv brandOf st) (hp : st.permits.Perm (p :: rest))
    (hloan : ∀ w ∈ new, w.loan = p.loan) (happart : new.Pairwise Apart)
    (hbrand : ∀ w ∈ new, ∀ x ∈ w.places, brandOf x = w.brand) :
    Inv brandOf { st with permits := rest, views := new ++ st.views } := by
  have hmem : ∀ q ∈ p :: rest, q ∈ st.permits := fun q hq => hp.mem_iff.mpr hq
  have hpair := (hp.pairwise_iff Permit.Apart.symm).mp h.unique
  obtain ⟨hfirst, hrest⟩ := List.pairwise_cons.mp hpair
  refine ⟨lawful_of_subset h.lawful fun l hl => ?_, hrest, fun q hq w hw heq => ?_, ?_, ?_⟩
  · rw [State.mem_loans] at hl ⊢
    rcases hl with ⟨q, hq, rfl⟩ | ⟨w, hw, rfl⟩
    · exact .inl ⟨q, hmem q (by simp [hq]), rfl⟩
    · rcases List.mem_append.mp hw with hw | hw
      · exact .inl ⟨p, hmem p (by simp), (hloan w hw).symm⟩
      · exact .inr ⟨w, hw, rfl⟩
  · rcases List.mem_append.mp hw with hw | hw
    · exact (hfirst q hq).symm (heq.trans (hloan w hw))
    · exact h.moved q (hmem q (by simp [hq])) w hw heq
  · refine List.pairwise_append.mpr ⟨happart, h.apart, fun w hw u hu hl hk => ?_⟩
    -- the permit was a value, so its exclusive loan had no view
    rw [hloan w hw] at hl hk
    have hshared := h.moved p (hmem p (by simp)) u hu hl
    rw [hshared] at hk
    cases hk
  · intro w hw
    rcases List.mem_append.mp hw with hw | hw
    · exact hbrand w hw
    · exact h.branded w hw

section Run

variable [DecidableEq A]

theorem inv_step (h : Inv brandOf st) (hs : State.Step brandOf st st') : Inv brandOf st' := by
  cases hs with
  | with_fresh_token family thread => exact ⟨h.lawful, h.unique, h.moved, h.apart, h.branded⟩
  | send ho hs hl => exact ⟨h.lawful, h.unique, h.moved, h.apart, h.branded⟩
  | borrow_owner ho hl ha => exact inv_borrow h ha
  | copy_permit hp hc => exact inv_copy h hp (copy_is_shared hc)
  | drop_permit hp =>
    exact inv_spend [] h hp (fun w hw => by cases hw) .nil fun w hw => by cases hw
  | @call p rest object access hp hb ho ha =>
    refine inv_spend _ h hp (fun w hw => ?_) (lend_apart access p ha) fun w hw x hx => ?_
    · obtain ⟨places, -, rfl⟩ := List.mem_map.mp hw
      rfl
    · obtain ⟨places, hplaces, rfl⟩ := List.mem_map.mp hw
      rw [object.branded x (offers_places ho places hplaces hx), hb]
      rfl
  | @map v rest places hv hs =>
    exact inv_replace [v.map places] h hv (by simp [View.map]) (by simp [View.map])
      (by simpa [View.map] using hs) (List.pairwise_singleton _ _)
  | @map_split v rest left right hv hl hr hd =>
    refine inv_replace [v.map left, v.map right] h hv (by simp [View.map]) (by simp [View.map])
      (by simpa [View.map] using ⟨hl, hr⟩) ?_
    exact List.pairwise_pair.mpr fun _ _ => ⟨rfl, hd⟩
  | @copy_view v rest hv hk =>
    refine inv_replace [v, v] h hv (by simp) (by simp) (by simp) ?_
    exact List.pairwise_pair.mpr fun _ _ => ⟨rfl, fun he => by rw [hk] at he; cases he⟩
  | drop_view hv =>
    exact inv_replace [] h hv (by simp) (by simp) (by simp) .nil

theorem inv_of_run (h : Reaches (State.Step brandOf) State.init st) : Inv brandOf st :=
  inv_of_reaches h inv_init fun _ _ => inv_step

/-- The owner of a thread-local brand stays where it was minted. -/
theorem a_thread_local_owner_never_moves {brand : Nat} {owner : Owner}
    (h : Reaches (State.Step brandOf) st st') (ho : st.owners[brand]? = some owner)
    (hf : owner.family = .ThreadLocalFamily) : st'.owners[brand]? = some owner := by
  apply inv_of_reaches (I := fun u => u.owners[brand]? = some owner) h ho
  intro a b ha hab
  cases hab with
  | with_fresh_token family thread =>
    rw [List.getElem?_append_left (List.getElem?_eq_some_iff.mp ha).1]
    exact ha
  | @send moved thread sent hs hsend hl =>
    rw [List.getElem?_set_ne ?_]
    · exact ha
    · rintro rfl
      rw [ha, Option.some.injEq] at hs
      rw [← hs, hf] at hsend
      cases hsend
  | _ => exact ha

end Run

/-! ## The exclusion -/

/-- Of two views of one brand, either both are shared, or both are exclusive, of the
same loan and of different places. -/
def Excludes (v w : View A) : Prop :=
  v.brand = w.brand → v.kind = .exclusive ∨ w.kind = .exclusive →
    v.kind = .exclusive ∧ w.kind = .exclusive ∧ v.loan = w.loan ∧ Disjoint v.places w.places

theorem excludes_of_lawful {v w : View A} (h : Lawful st.loans) (hv : v ∈ st.views)
    (hw : w ∈ st.views) (ha : Apart v w) : Excludes v w := by
  intro hb hk
  have hvl : v.loan ∈ st.loans := State.mem_loans.mpr (.inr ⟨v, hv, rfl⟩)
  have hwl : w.loan ∈ st.loans := State.mem_loans.mpr (.inr ⟨w, hw, rfl⟩)
  have hloan : v.loan = w.loan := by
    rcases hk with hk | hk
    · exact (h v.loan hvl w.loan hwl hb (v.authorised hk)).symm
    · exact h w.loan hwl v.loan hvl hb.symm (w.authorised hk)
  have hlk : v.loan.kind = .exclusive := by
    rcases hk with hk | hk
    · exact v.authorised hk
    · exact hloan ▸ w.authorised hk
  obtain ⟨hkind, hd⟩ := ha hloan hlk
  have hve : v.kind = .exclusive := hk.elim id fun hw => hkind.trans hw
  exact ⟨hve, hkind ▸ hve, hloan, hd hve⟩

/-- No permit of a brand is a live value next to an exclusive view of it. -/
theorem no_permit_beside {v : View A} (h : Inv brandOf st) (hv : v ∈ st.views)
    (hk : v.kind = .exclusive) {p : Permit Nat} (hp : p ∈ st.permits) : p.loan.of ≠ v.brand := by
  intro hof
  have hloan := h.lawful v.loan (State.mem_loans.mpr (.inr ⟨v, hv, rfl⟩)) p.loan
    (State.mem_loans.mpr (.inl ⟨p, hp, rfl⟩)) hof.symm (v.authorised hk)
  have hshared := h.moved p hp v hv hloan
  rw [hloan, v.authorised hk] at hshared
  cases hshared

/-- Places are of one brand, so views that share a place are of one brand too. -/
theorem overlap_is_shared {v w : View A} (h : Inv brandOf st) (hv : v ∈ st.views)
    (hw : w ∈ st.views) (he : Excludes v w) {x : A} (hxv : x ∈ v.places) (hxw : x ∈ w.places) :
    v.kind = .shared ∧ w.kind = .shared := by
  have hb : v.brand = w.brand := (h.branded v hv x hxv).symm.trans (h.branded w hw x hxw)
  have hnone : ¬ (v.kind = .exclusive ∨ w.kind = .exclusive) := by
    intro hk
    obtain ⟨-, -, -, hd⟩ := he hb hk
    exact Finset.disjoint_left.mp hd hxv hxw
  have hshared : ∀ k : Kind, k ≠ .exclusive → k = .shared := fun k hk => by cases k <;> trivial
  exact ⟨hshared _ fun hk => hnone (.inl hk), hshared _ fun hk => hnone (.inr hk)⟩

/-- In every state that borrows, shares, copies, gated calls, projections, splits,
drops and moves of owners reach, of any brands and objects: beside an exclusive
view, every live view of its brand is exclusive, of the same loan and of other
places, and no permit of the brand is live, so no `SharedReadToken` is. No place
is reached by an exclusive view and another. -/
theorem an_exclusive_view_excludes_the_rest_of_its_brand [DecidableEq A] (brandOf : A → Nat)
    {st : State A} (h : Reaches (State.Step brandOf) State.init st) :
    st.views.Pairwise Excludes ∧
    (∀ v ∈ st.views, v.kind = .exclusive → ∀ p ∈ st.permits, p.loan.of ≠ v.brand) ∧
    st.views.Pairwise fun v w => ∀ x ∈ v.places, x ∈ w.places →
      v.kind = .shared ∧ w.kind = .shared := by
  have hinv := inv_of_run h
  have hex : st.views.Pairwise Excludes :=
    hinv.apart.imp_of_mem fun hv hw ha => excludes_of_lawful hinv.lawful hv hw ha
  refine ⟨hex, fun v hv hk p hp => no_permit_beside hinv hv hk hp, ?_⟩
  exact hex.imp_of_mem fun hv hw he x hxv hxw => overlap_is_shared hinv hv hw he hxv hxw

/-- A queue of three cells that wraps: the two halves of `as_mut_slices`, with the
first split in two. -/
theorem the_halves_of_a_queue_are_apart : ∃ st : State Nat,
    Reaches (State.Step fun _ => 0) State.init st ∧
    st.views.map View.places = [{0}, {1}, {2}] ∧ st.views.map View.kind = [.exclusive, .exclusive,
      .exclusive] ∧ st.views.Pairwise Excludes := by
  let queue : collections.BrandedVecDeque Nat := ⟨[⟨{0}⟩, ⟨{1}⟩], [⟨{2}⟩], by decide⟩
  let object : Object fun _ : Nat => 0 := ⟨0, .deque queue, fun _ _ => rfl⟩
  let permit : Permit Nat := ⟨.mut_ref, ⟨0, 0, .exclusive⟩, rfl⟩
  let view (places : Finset Nat) : View Nat := ⟨permit.loan, .exclusive, places, fun _ => rfl⟩
  have hmint : State.Step (fun _ : Nat => 0) State.init ⟨[⟨.ExclusiveFamily, 0⟩], [], [], 0⟩ :=
    .with_fresh_token .ExclusiveFamily 0
  have hborrow : State.Step (fun _ : Nat => 0) ⟨[⟨.ExclusiveFamily, 0⟩], [], [], 0⟩
      ⟨[⟨.ExclusiveFamily, 0⟩], [permit], [], 1⟩ :=
    .borrow_owner rfl rfl (admits_nil _ _)
  have hcall : State.Step (fun _ : Nat => 0) ⟨[⟨.ExclusiveFamily, 0⟩], [permit], [], 1⟩
      ⟨[⟨.ExclusiveFamily, 0⟩], [], [view {0, 1}, view {2}], 1⟩ :=
    @State.Step.call _ _ _ _ permit [] object queue.as_mut_slices (.refl _) rfl
      (.as_mut_slices queue) rfl
  have hsplit : State.Step (fun _ : Nat => 0)
      ⟨[⟨.ExclusiveFamily, 0⟩], [], [view {0, 1}, view {2}], 1⟩
      ⟨[⟨.ExclusiveFamily, 0⟩], [], [view {0}, view {1}, view {2}], 1⟩ :=
    @State.Step.map_split _ _ _ _ (view {0, 1}) [view {2}] {0} {1} (.refl _) (by decide)
      (by decide) fun _ => by decide
  have hrun := Relation.ReflTransGen.refl.tail hmint |>.tail hborrow |>.tail hcall |>.tail hsplit
  exact ⟨_, hrun, rfl, rfl, (an_exclusive_view_excludes_the_rest_of_its_brand _ hrun).1⟩

end melinoe.token
