-- `Cow`s of branded cells: `cow.rs`, and the calls of the two collections that give
-- one (their `views.rs`). A `Cow` is a reference to cells or a copy of what they held,
-- and whatever is borrowed, written and moved while it lives, it shows the same.
import Melinoe.PermitRuns

open loans runs

namespace melinoe

variable {A V : Type} [DecidableEq A]

open token

/-! ## The functions of `cow.rs` -/

namespace cell

/-- What the memory of the cell holds. A clone of the contents holds the same. -/
def MelinoeCell.load (self : MelinoeCell A) (mem : A → V) (x : A) : Option V :=
  if x ∈ self.value then some (mem x) else none

/-- A `&[T]` over the contents of cells: the cells in their order, and the live view. -/
structure SliceRef (A : Type) [DecidableEq A] where
  cells : List (MelinoeCell A)
  view : View A
  shared : view.kind = .shared
  reaches : view.places = slice_as_unsafe_cell cells

def SliceRef.to_vec (self : SliceRef A) (mem : A → V) : List (A → Option V) :=
  self.cells.map fun cell => cell.load mem

/-- What `borrow_slice(permit)` returns. -/
def slice_ref (self : List (MelinoeCell A)) (permit : Permit Nat) : SliceRef A where
  cells := self
  view := ⟨permit.loan, .shared, slice_as_unsafe_cell self, fun h => by cases h⟩
  shared := rfl
  reaches := rfl

example (self : List (MelinoeCell A)) (permit : Permit Nat)
    (h : (borrow_slice self).bound.accepts permit.carrier = true) :
    (borrow_slice self).lend permit h = [(slice_ref self permit).view] := rfl

/-- `Cow<'a, [T]>`. -/
inductive Cow (A V : Type) [DecidableEq A]
  | Borrowed (slice : SliceRef A)
  | Owned (values : List (A → Option V))

namespace Cow

/-- What the holder reads, with `mem` as the memory of the cells at that moment. -/
def deref (self : Cow A V) (mem : A → V) : List (A → Option V) :=
  match self with
  | .Borrowed slice => slice.to_vec mem
  | .Owned values => values

/-- The view that the `Cow` keeps alive. -/
def views : Cow A V → List (View A)
  | .Borrowed slice => [slice.view]
  | .Owned _ => []

end Cow

/-- The types that implement `CowPolicy`. -/
inductive CowPolicy
  | Borrowed
  | Retained
deriving DecidableEq

def CowPolicy.cow (self : CowPolicy) (slice : SliceRef A) (mem : A → V) : Cow A V :=
  match self with
  | .Borrowed => .Borrowed slice
  | .Retained => .Owned (slice.to_vec mem)

inductive RetainDecision
  | Borrow
  | Retain
deriving DecidableEq

def RetainDecision.cow (self : RetainDecision) (slice : SliceRef A) (mem : A → V) : Cow A V :=
  match self with
  | .Borrow => CowPolicy.Borrowed.cow slice mem
  | .Retain => CowPolicy.Retained.cow slice mem

def cow_from_segments (first second : SliceRef A) (policy : CowPolicy) (mem : A → V) : Cow A V :=
  if second.cells.isEmpty then policy.cow first mem
  else .Owned (first.to_vec mem ++ second.to_vec mem)

section slices

variable (self : List (MelinoeCell A)) (permit : Permit Nat) (mem : A → V)

def borrow_cow : Cow A V := CowPolicy.Borrowed.cow (slice_ref self permit) mem

def retain_cow : Cow A V := CowPolicy.Retained.cow (slice_ref self permit) mem

def borrow_cow_with (policy : CowPolicy) : Cow A V := policy.cow (slice_ref self permit) mem

def borrow_cow_if (decision : RetainDecision) : Cow A V := decision.cow (slice_ref self permit) mem

end slices

end cell

open cell

/-! ## The calls of the collections -/

namespace collections

namespace BrandedVec

variable (self : BrandedVec A) (permit : Permit Nat) (mem : A → V)

def borrow_cow : Cow A V := cell.borrow_cow self.cells permit mem

def retain_cow : Cow A V := cell.retain_cow self.cells permit mem

def cow_with (policy : CowPolicy) : Cow A V := cell.borrow_cow_with self.cells permit mem policy

def cow_if (decision : RetainDecision) : Cow A V :=
  cell.borrow_cow_if self.cells permit mem decision

end BrandedVec

namespace BrandedVecDeque

variable (self : BrandedVecDeque A) (permit : Permit Nat) (mem : A → V)

/-- All three of the queue's calls take `as_slices(permit)` apart like this. -/
def cow_with (policy : CowPolicy) : Cow A V :=
  cow_from_segments (slice_ref self.front permit) (slice_ref self.back permit) policy mem

def borrow_cow : Cow A V :=
  cow_from_segments (slice_ref self.front permit) (slice_ref self.back permit) .Borrowed mem

def retain_cow : Cow A V :=
  cow_from_segments (slice_ref self.front permit) (slice_ref self.back permit) .Retained mem

def cow_if (decision : RetainDecision) : Cow A V :=
  match decision with
  | .Borrow => self.borrow_cow permit mem
  | .Retain => self.retain_cow permit mem

end BrandedVecDeque

end collections

namespace token

/-- The cells of an object, in their logical order. -/
def Shape.cells : Shape A → List (MelinoeCell A)
  | .cell self => [self]
  | .slice self => self
  | .vec self => self.cells
  | .deque self => self.front ++ self.back
  | .atomic _ => []

/-- The calls of an object that give a `Cow`. -/
inductive Shape.OffersCow (permit : Permit Nat) (mem : A → V) : Shape A → Cow A V → Prop
  | borrow_cow (self : List (MelinoeCell A)) :
      OffersCow permit mem (.slice self) (cell.borrow_cow self permit mem)
  | retain_cow (self : List (MelinoeCell A)) :
      OffersCow permit mem (.slice self) (cell.retain_cow self permit mem)
  | borrow_cow_with (self : List (MelinoeCell A)) (policy : CowPolicy) :
      OffersCow permit mem (.slice self) (cell.borrow_cow_with self permit mem policy)
  | borrow_cow_if (self : List (MelinoeCell A)) (decision : RetainDecision) :
      OffersCow permit mem (.slice self) (cell.borrow_cow_if self permit mem decision)
  | vec_borrow_cow (self : collections.BrandedVec A) :
      OffersCow permit mem (.vec self) (self.borrow_cow permit mem)
  | vec_retain_cow (self : collections.BrandedVec A) :
      OffersCow permit mem (.vec self) (self.retain_cow permit mem)
  | vec_cow_with (self : collections.BrandedVec A) (policy : CowPolicy) :
      OffersCow permit mem (.vec self) (self.cow_with permit mem policy)
  | vec_cow_if (self : collections.BrandedVec A) (decision : RetainDecision) :
      OffersCow permit mem (.vec self) (self.cow_if permit mem decision)
  | deque_borrow_cow (self : collections.BrandedVecDeque A) :
      OffersCow permit mem (.deque self) (self.borrow_cow permit mem)
  | deque_retain_cow (self : collections.BrandedVecDeque A) :
      OffersCow permit mem (.deque self) (self.retain_cow permit mem)
  | deque_cow_with (self : collections.BrandedVecDeque A) (policy : CowPolicy) :
      OffersCow permit mem (.deque self) (self.cow_with permit mem policy)
  | deque_cow_if (self : collections.BrandedVecDeque A) (decision : RetainDecision) :
      OffersCow permit mem (.deque self) (self.cow_if permit mem decision)

end token

/-! ## What a call gives -/

namespace cell

variable {mem : A → V} {shape : Shape A} {permit : Permit Nat} {cow : Cow A V}

/-- Every call is `cow_from_segments`, of one segment or two. -/
theorem offers_cow_cases (h : shape.OffersCow permit mem cow) : ∃ first second policy,
    shape.cells = first ++ second ∧
      cow = cow_from_segments (slice_ref first permit) (slice_ref second permit) policy mem := by
  cases h with
  | borrow_cow self => exact ⟨self, [], .Borrowed, (List.append_nil _).symm, rfl⟩
  | retain_cow self => exact ⟨self, [], .Retained, (List.append_nil _).symm, rfl⟩
  | borrow_cow_with self policy => exact ⟨self, [], policy, (List.append_nil _).symm, rfl⟩
  | borrow_cow_if self decision =>
    cases decision with
    | Borrow => exact ⟨self, [], .Borrowed, (List.append_nil _).symm, rfl⟩
    | Retain => exact ⟨self, [], .Retained, (List.append_nil _).symm, rfl⟩
  | vec_borrow_cow self => exact ⟨self.cells, [], .Borrowed, (List.append_nil _).symm, rfl⟩
  | vec_retain_cow self => exact ⟨self.cells, [], .Retained, (List.append_nil _).symm, rfl⟩
  | vec_cow_with self policy => exact ⟨self.cells, [], policy, (List.append_nil _).symm, rfl⟩
  | vec_cow_if self decision =>
    cases decision with
    | Borrow => exact ⟨self.cells, [], .Borrowed, (List.append_nil _).symm, rfl⟩
    | Retain => exact ⟨self.cells, [], .Retained, (List.append_nil _).symm, rfl⟩
  | deque_borrow_cow self => exact ⟨self.front, self.back, .Borrowed, rfl, rfl⟩
  | deque_retain_cow self => exact ⟨self.front, self.back, .Retained, rfl, rfl⟩
  | deque_cow_with self policy => exact ⟨self.front, self.back, policy, rfl, rfl⟩
  | deque_cow_if self decision =>
    cases decision with
    | Borrow => exact ⟨self.front, self.back, .Borrowed, rfl, rfl⟩
    | Retain => exact ⟨self.front, self.back, .Retained, rfl, rfl⟩

theorem policy_deref (policy : CowPolicy) (slice : SliceRef A) :
    (policy.cow slice mem).deref mem = slice.to_vec mem := by
  cases policy <;> rfl

theorem segments_deref (first second : SliceRef A) (policy : CowPolicy) :
    (cow_from_segments first second policy mem).deref mem =
      first.to_vec mem ++ second.to_vec mem := by
  unfold cow_from_segments
  split
  · rename_i hempty
    rw [policy_deref]
    unfold SliceRef.to_vec
    rw [List.isEmpty_iff.mp hempty, List.map_nil, List.append_nil]
  · rfl

theorem segments_views (first second : SliceRef A) (policy : CowPolicy) :
    ∀ v ∈ (cow_from_segments first second policy mem).views, v = first.view := by
  unfold cow_from_segments
  split
  · cases policy with
    | Borrowed => exact fun v hv => List.mem_singleton.mp hv
    | Retained => exact fun v hv => absurd hv List.not_mem_nil
  · exact fun v hv => absurd hv List.not_mem_nil

/-- Every call shows the contents of all cells, in their logical order. -/
theorem offers_cow_deref (h : shape.OffersCow permit mem cow) :
    cow.deref mem = shape.cells.map fun cell => cell.load mem := by
  obtain ⟨first, second, policy, hcells, rfl⟩ := offers_cow_cases h
  rw [segments_deref, hcells, List.map_append]
  rfl

theorem cells_places (shape : Shape A) : slice_as_unsafe_cell shape.cells ⊆ shape.places := by
  intro x hx
  cases shape with
  | cell self =>
    obtain ⟨cell, hcell, hxc⟩ := mem_slice_as_unsafe_cell.mp hx
    rwa [List.mem_singleton.mp hcell] at hxc
  | atomic self => exact absurd hx (Finset.notMem_empty x)
  | _ => exact hx

/-- A `Cow` that borrows holds the loan of its permit, and reaches cells of its object. -/
theorem offers_cow_views (h : shape.OffersCow permit mem cow) :
    ∀ v ∈ cow.views, v.loan = permit.loan ∧ v.places ⊆ shape.places := by
  obtain ⟨first, second, policy, hcells, rfl⟩ := offers_cow_cases h
  intro v hv
  rw [segments_views _ _ _ v hv]
  refine ⟨rfl, fun x hx => cells_places shape ?_⟩
  obtain ⟨cell, hcell, hxc⟩ := mem_slice_as_unsafe_cell.mp hx
  rw [hcells]
  exact mem_slice_as_unsafe_cell.mpr ⟨cell, List.mem_append_left _ hcell, hxc⟩

theorem cow_views_apart (cow : Cow A V) : cow.views.Pairwise Apart := by
  cases cow with
  | Borrowed slice => exact List.pairwise_singleton _ _
  | Owned values => exact .nil

theorem cow_views_shared {v : View A} (hv : v ∈ cow.views) : v.kind = .shared := by
  cases cow with
  | Borrowed slice =>
    rw [List.mem_singleton.mp hv]
    exact slice.shared
  | Owned values => cases hv

/-- A write outside what the `Cow` borrows does not show. -/
theorem deref_update {x : A} (hx : ∀ v ∈ cow.views, x ∉ v.places) (value : V) :
    cow.deref (Function.update mem x value) = cow.deref mem := by
  cases cow with
  | Owned values => rfl
  | Borrowed slice =>
    have hout := hx slice.view (List.mem_singleton_self _)
    rw [slice.reaches] at hout
    unfold Cow.deref SliceRef.to_vec
    apply List.map_congr_left
    intro cell hcell
    funext y
    unfold MelinoeCell.load
    split
    · rename_i hy
      have hne : y ≠ x := by
        rintro rfl
        exact hout (mem_slice_as_unsafe_cell.mpr ⟨cell, hcell, hy⟩)
      rw [Function.update_of_ne hne]
    · rfl

end cell

/-! ## Runs with `Cow`s -/

namespace cell

/-- A live `Cow`, and what its cells held when it was made. -/
structure Held (A V : Type) [DecidableEq A] where
  cow : Cow A V
  made : List (A → Option V)

/-- Owners, permits and plain views as before, the memory, and the live `Cow`s. -/
structure CowState (A V : Type) [DecidableEq A] where
  base : State A
  mem : A → V
  held : List (Held A V)

namespace CowState

def init (mem : A → V) : CowState A V := ⟨State.init, mem, []⟩

/-- The views that `Cow`s keep alive. -/
def borrowed (st : CowState A V) : List (View A) := st.held.flatMap fun h => h.cow.views

/-- All that is live, as far as the loans go. -/
def whole (st : CowState A V) : State A := { st.base with views := st.borrowed ++ st.base.views }

/-- A step of owners, permits and plain views next to the `Cow`s, a write, or what
happens to one `Cow`. -/
inductive Step (brandOf : A → Nat) : CowState A V → CowState A V → Prop
  /-- The views that the `Cow`s keep alive stay among those after the step. -/
  | token {st : CowState A V} {base : State A} {views : List (View A)}
      (h : State.Step brandOf st.whole { base with views })
      (hv : views.Perm (st.borrowed ++ base.views)) : Step brandOf st { st with base }
  /-- A write through an exclusive view. -/
  | write {st : CowState A V} {v : View A} {x : A} (value : V) (hv : v ∈ st.base.views)
      (hk : v.kind = .exclusive) (hx : x ∈ v.places) :
      Step brandOf st { st with mem := Function.update st.mem x value }
  /-- A write through `&mut` of the cells themselves, which asks for no permit: `get_mut`, a
  `WriterShard`, a mutable partition. No view of the cells is live meanwhile. -/
  | write_owned {st : CowState A V} {x : A} (value : V)
      (hx : ∀ v ∈ st.whole.views, x ∉ v.places) :
      Step brandOf st { st with mem := Function.update st.mem x value }
  /-- A call that gives a `Cow`, which takes its permit by value. -/
  | call {st : CowState A V} {p : Permit Nat} {rest : List (Permit Nat)}
      {object : Object brandOf} {cow : Cow A V} (hp : st.base.permits.Perm (p :: rest))
      (hb : object.brand = p.loan.of) (ho : object.shape.OffersCow p st.mem cow) :
      Step brandOf st { st with
        base := { st.base with permits := rest }
        held := ⟨cow, object.shape.cells.map fun cell => cell.load st.mem⟩ :: st.held }
  | clone {st : CowState A V} {h : Held A V} {rest : List (Held A V)}
      (hh : st.held.Perm (h :: rest)) : Step brandOf st { st with held := h :: h :: rest }
  /-- `Cow::into_owned`. -/
  | into_owned {st : CowState A V} {h : Held A V} {rest : List (Held A V)}
      (hh : st.held.Perm (h :: rest)) :
      Step brandOf st { st with held := ⟨.Owned (h.cow.deref st.mem), h.made⟩ :: rest }
  | drop {st : CowState A V} {h : Held A V} {rest : List (Held A V)}
      (hh : st.held.Perm (h :: rest)) : Step brandOf st { st with held := rest }

end CowState

/-! ## What a step keeps -/

/-- What is live obeys the rules of loans and views, and every `Cow` shows what its cells
held when it was made. -/
structure CowInv (brandOf : A → Nat) (st : CowState A V) : Prop where
  lawful : Inv brandOf st.whole
  shows : ∀ h ∈ st.held, h.cow.deref st.mem = h.made

variable {brandOf : A → Nat} {st st' : CowState A V}

omit [DecidableEq A] in
/-- Views may end, in any order. -/
theorem inv_subperm {st : State A} {views : List (View A)} (h : Inv brandOf st)
    (hv : views.Subperm st.views) : Inv brandOf { st with views } := by
  obtain ⟨kept, hperm, hsub⟩ := hv
  have hmem : ∀ v ∈ views, v ∈ st.views := fun v hv => hsub.subset (hperm.mem_iff.mpr hv)
  refine ⟨lawful_of_subset h.lawful fun l hl => ?_, h.unique, fun p hp v hv => ?_, ?_,
    fun v hv => h.branded v (hmem v hv)⟩
  · rw [State.mem_loans] at hl ⊢
    exact hl.imp_right fun ⟨v, hv, heq⟩ => ⟨v, hmem v hv, heq⟩
  · exact h.moved p hp v (hmem v hv)
  · exact (hperm.pairwise_iff Apart.symm).mp (h.apart.sublist hsub)

theorem whole_perm {h : Held A V} {rest : List (Held A V)} (hh : st.held.Perm (h :: rest)) :
    st.whole.views.Perm
      (h.cow.views ++ (rest.flatMap (fun h => h.cow.views) ++ st.base.views)) := by
  have hflat := (hh.flatMap_right fun h => h.cow.views).append_right st.base.views
  rw [List.flatMap_cons, List.append_assoc] at hflat
  exact hflat

theorem inv_clone {h : Held A V} {rest : List (Held A V)} (hinv : Inv brandOf st.whole)
    (hh : st.held.Perm (h :: rest)) :
    Inv brandOf { st with held := h :: h :: rest }.whole := by
  have hperm := whole_perm hh
  cases hc : h.cow with
  | Owned values =>
    rw [hc] at hperm
    have hsame := inv_subperm hinv hperm.symm.subperm
    unfold CowState.whole CowState.borrowed
    rw [List.flatMap_cons, List.flatMap_cons, hc]
    exact hsame
  | Borrowed slice =>
    rw [hc] at hperm
    have hcopy := inv_replace [slice.view, slice.view] hinv hperm (by simp) (by simp) (by simp)
      (List.pairwise_pair.mpr fun _ _ => ⟨rfl, fun he => by rw [slice.shared] at he; cases he⟩)
    unfold CowState.whole CowState.borrowed
    rw [List.flatMap_cons, List.flatMap_cons, hc]
    exact hcopy

/-- A `Cow` that ends, or whose place one without a borrow takes. -/
theorem inv_release {h : Held A V} {rest held : List (Held A V)} (hinv : Inv brandOf st.whole)
    (hh : st.held.Perm (h :: rest))
    (hviews : held.flatMap (fun h => h.cow.views) = rest.flatMap fun h => h.cow.views) :
    Inv brandOf { st with held }.whole := by
  have hrest := inv_subperm hinv
    ((List.sublist_append_right h.cow.views _).subperm.trans (whole_perm hh).symm.subperm)
  unfold CowState.whole CowState.borrowed
  rw [hviews]
  exact hrest

theorem borrowed_excludes (h : Inv brandOf st.whole) {v w : View A} (hv : v ∈ st.base.views)
    (hw : w ∈ st.borrowed) : Excludes w v := by
  apply excludes_of_lawful h.lawful (List.mem_append_left _ hw) (List.mem_append_right _ hv)
  exact (List.pairwise_append.mp h.apart).2.2 w hw v hv

/-- A write goes through a view that no live `Cow` shares a place with. -/
theorem borrowed_unwritten (h : Inv brandOf st.whole) {v : View A} {x : A}
    (hv : v ∈ st.base.views) (hk : v.kind = .exclusive) (hx : x ∈ v.places) :
    ∀ w ∈ st.borrowed, x ∉ w.places := by
  intro w hw hxw
  have hshared := (overlap_is_shared h (List.mem_append_left _ hw) (List.mem_append_right _ hv)
    (borrowed_excludes h hv hw) hxw hx).2
  rw [hk] at hshared
  cases hshared

theorem cow_inv_step (h : CowInv brandOf st) (hs : CowState.Step brandOf st st') :
    CowInv brandOf st' := by
  cases hs with
  | @token base views hs hv =>
    have hlawful : Inv brandOf { base with views } := inv_step h.lawful hs
    have hkept := inv_subperm hlawful hv.symm.subperm
    exact ⟨hkept, h.shows⟩
  | write value hv hk hx =>
    refine ⟨h.lawful, fun held hheld => ?_⟩
    rw [deref_update, h.shows held hheld]
    intro w hw
    exact borrowed_unwritten h.lawful hv hk hx w (List.mem_flatMap.mpr ⟨held, hheld, hw⟩)
  | write_owned value hx =>
    refine ⟨h.lawful, fun held hheld => ?_⟩
    rw [deref_update, h.shows held hheld]
    intro w hw
    exact hx w (List.mem_append_left _ (List.mem_flatMap.mpr ⟨held, hheld, hw⟩))
  | @call p rest object cow hp hb ho =>
    refine ⟨?_, fun held hheld => ?_⟩
    · have hviews := offers_cow_views ho
      have hspent := inv_spend cow.views h.lawful hp (fun w hw => (hviews w hw).1)
        (cow_views_apart cow) fun w hw x hx => by
          obtain ⟨hloan, hsub⟩ := hviews w hw
          rw [object.branded x (hsub hx), hb, View.brand, hloan]
      unfold CowState.whole CowState.borrowed
      rw [List.flatMap_cons, List.append_assoc]
      exact hspent
    · rcases List.mem_cons.mp hheld with rfl | hheld
      · exact offers_cow_deref ho
      · exact h.shows held hheld
  | clone hh =>
    refine ⟨inv_clone h.lawful hh, fun held hheld => h.shows held (hh.mem_iff.mpr ?_)⟩
    rcases List.mem_cons.mp hheld with rfl | hheld
    · exact List.mem_cons_self
    · exact hheld
  | @into_owned owned rest hh =>
    refine ⟨inv_release h.lawful hh (by rw [List.flatMap_cons]; rfl), fun held hheld => ?_⟩
    rcases List.mem_cons.mp hheld with rfl | hheld
    · exact h.shows owned (hh.mem_iff.mpr List.mem_cons_self)
    · exact h.shows held (hh.mem_iff.mpr (List.mem_cons_of_mem _ hheld))
  | drop hh =>
    refine ⟨inv_release h.lawful hh rfl, fun held hheld => ?_⟩
    exact h.shows held (hh.mem_iff.mpr (List.mem_cons_of_mem _ hheld))

/-- No live `Cow` borrows cells of a brand that has a live exclusive view. -/
theorem no_cow_beside (h : Inv brandOf st.whole) {v w : View A} (hv : v ∈ st.base.views)
    (hk : v.kind = .exclusive) (hw : w ∈ st.borrowed) : w.brand ≠ v.brand := by
  intro hb
  have hkind := (borrowed_excludes h hv hw hb (.inr hk)).1
  obtain ⟨held, -, hheld⟩ := List.mem_flatMap.mp hw
  rw [cow_views_shared hheld] at hkind
  cases hkind

/-- In every run of borrows, gated calls, moves and writes, with a permit or without one, of
any brands and objects, with `Cow`s made, cloned, owned and dropped in any order: each live
`Cow`, borrowed or owned, shows what the cells of its object held, in their order, when it
was made; and beside an exclusive view of a brand none borrows cells of the brand. -/
theorem a_cow_shows_what_it_was_made_of (brandOf : A → Nat) {mem : A → V}
    (h : Reaches (CowState.Step brandOf) (CowState.init mem) st) :
    (∀ held ∈ st.held, held.cow.deref st.mem = held.made) ∧
    ∀ v ∈ st.base.views, v.kind = .exclusive →
      ∀ held ∈ st.held, ∀ w ∈ held.cow.views, w.brand ≠ v.brand := by
  have hinv : CowInv brandOf st := by
    refine inv_of_reaches h ⟨inv_init, fun held hheld => ?_⟩ fun _ _ => cow_inv_step
    cases hheld
  refine ⟨hinv.shows, fun v hv hk held hheld w hw => ?_⟩
  exact no_cow_beside hinv.lawful hv hk (List.mem_flatMap.mpr ⟨held, hheld, hw⟩)

/-- `borrow_cow` of a queue that wraps is a copy: the queue is written while it lives, and
while another `Cow` borrows a cell of another brand. -/
theorem a_copy_of_a_queue_outlives_a_write : ∃ st : CowState Nat Nat,
    Reaches (CowState.Step fun x => if x = 2 then 1 else 0) (CowState.init id) st ∧ st.mem 1 = 9 ∧
    (st.held.map fun h => h.cow.views.length) = [0, 1] ∧
    (st.held.map fun h => (h.cow.deref st.mem).map fun value => (value 0, value 1, value 2)) =
      [[(some 0, none, none), (none, some 1, none)], [(none, none, some 2)]] := by
  let brandOf (x : Nat) : Nat := if x = 2 then 1 else 0
  let queue : collections.BrandedVecDeque Nat := ⟨[⟨{0}⟩], [⟨{1}⟩], by decide⟩
  let object : Object brandOf := ⟨0, .deque queue, by decide⟩
  let slice : List (MelinoeCell Nat) := [⟨{2}⟩]
  let other : Object brandOf := ⟨1, .slice slice, by decide⟩
  let shared (id brand : Nat) : Permit Nat := ⟨.shared_ref, ⟨id, brand, .shared⟩, rfl⟩
  let exclusive : Permit Nat := ⟨.mut_ref, ⟨2, 0, .exclusive⟩, rfl⟩
  let one : List Owner := [⟨.ExclusiveFamily, 0⟩]
  let owners : List Owner := one ++ [⟨.ExclusiveFamily, 0⟩]
  let kept : Held Nat Nat := ⟨cell.borrow_cow slice (shared 0 1) id, slice.map fun cell =>
    cell.load id⟩
  let copied : Held Nat Nat := ⟨queue.borrow_cow (shared 1 0) id,
    (Shape.deque queue).cells.map fun cell => cell.load id⟩
  let view (places : Finset Nat) : View Nat := ⟨exclusive.loan, .exclusive, places, fun _ => rfl⟩
  let Next := CowState.Step (V := Nat) brandOf
  have hmint : Next (CowState.init id) ⟨⟨one, [], [], 0⟩, id, []⟩ :=
    .token (.with_fresh_token .ExclusiveFamily 0) (.refl _)
  have hmint' : Next ⟨⟨one, [], [], 0⟩, id, []⟩ ⟨⟨owners, [], [], 0⟩, id, []⟩ :=
    .token (.with_fresh_token .ExclusiveFamily 0) (.refl _)
  -- a `Cow` of the slice, then one of the queue
  have hborrow : Next ⟨⟨owners, [], [], 0⟩, id, []⟩ ⟨⟨owners, [shared 0 1], [], 1⟩, id, []⟩ :=
    .token (.borrow_owner rfl rfl (admits_nil _ _)) (.refl _)
  have hcow : Next ⟨⟨owners, [shared 0 1], [], 1⟩, id, []⟩ ⟨⟨owners, [], [], 1⟩, id, [kept]⟩ :=
    @CowState.Step.call _ _ _ _ _ (shared 0 1) [] other _ (.refl _) rfl (.borrow_cow slice)
  have hborrow' : Next ⟨⟨owners, [], [], 1⟩, id, [kept]⟩
      ⟨⟨owners, [shared 1 0], [], 2⟩, id, [kept]⟩ :=
    .token (.borrow_owner rfl rfl (by decide)) (.refl _)
  have hcow' : Next ⟨⟨owners, [shared 1 0], [], 2⟩, id, [kept]⟩
      ⟨⟨owners, [], [], 2⟩, id, [copied, kept]⟩ :=
    @CowState.Step.call _ _ _ _ _ (shared 1 0) [] object _ (.refl _) rfl (.deque_borrow_cow queue)
  -- the queue is written
  have hagain : Next ⟨⟨owners, [], [], 2⟩, id, [copied, kept]⟩
      ⟨⟨owners, [exclusive], [], 3⟩, id, [copied, kept]⟩ :=
    .token (.borrow_owner rfl rfl (by decide)) (.refl _)
  have hviews : Next ⟨⟨owners, [exclusive], [], 3⟩, id, [copied, kept]⟩
      ⟨⟨owners, [], [view {0}, view {1}], 3⟩, id, [copied, kept]⟩ :=
    .token (@State.Step.call _ _ _ _ exclusive [] object _ (.refl _) rfl (.as_mut_slices queue) rfl)
      List.perm_append_comm
  have hwrite : Next ⟨⟨owners, [], [view {0}, view {1}], 3⟩, id, [copied, kept]⟩
      ⟨⟨owners, [], [view {0}, view {1}], 3⟩, Function.update id 1 9, [copied, kept]⟩ :=
    @CowState.Step.write _ _ _ _ _ (view {1}) 1 9 (by simp) rfl (by decide)
  have hrun := Relation.ReflTransGen.refl.tail hmint |>.tail hmint' |>.tail hborrow |>.tail hcow
    |>.tail hborrow' |>.tail hcow' |>.tail hagain |>.tail hviews |>.tail hwrite
  have hshows := (a_cow_shows_what_it_was_made_of _ hrun).1
  have hcopied := hshows copied (by simp)
  have hkept := hshows kept (by simp)
  refine ⟨_, hrun, rfl, rfl, ?_⟩
  rw [List.map_cons, List.map_singleton, hcopied, hkept]
  rfl

end cell

end melinoe
