-- Permits and what they unlock: `token/capability.rs`, the owner tokens, and the
-- signatures of the permit-gated calls of cells, slices, collections and atomics.
-- A view is known by the places that it reaches and the loan that keeps it alive.
import Mathlib.Data.Finset.Basic
import Melinoe.Loans

open loans

namespace melinoe

/-! ## Owners and permits -/

namespace token

/-- The families of `brand_owner_token!`. -/
inductive TokenFamily
  | ExclusiveFamily
  | SyncRegionFamily
  | ThreadLocalFamily
deriving DecidableEq

namespace TokenFamily

/-- The `share: yes` or `share: no` of the macro call. -/
def share : TokenFamily → Bool
  | .ExclusiveFamily => true
  | .SyncRegionFamily => true
  | .ThreadLocalFamily => false

/-- `Send`, which the `*const ()` of a thread-local marker takes away. -/
def is_send : TokenFamily → Bool
  | .ExclusiveFamily => true
  | .SyncRegionFamily => true
  | .ThreadLocalFamily => false

end TokenFamily

/-- The one owner token of a brand, and the thread that it is on. -/
structure Owner where
  family : TokenFamily
  thread : Nat

/-- The types that implement `ReadPermit`: `&T` and `&mut T` of an owner `T`, and
`SharedReadToken`. -/
inductive Carrier
  | shared_ref
  | mut_ref
  | SharedReadToken
deriving DecidableEq

namespace Carrier

/-- The borrow of the owner that the value is, or carries in its marker. -/
def kind : Carrier → Kind
  | .shared_ref => .shared
  | .mut_ref => .exclusive
  | .SharedReadToken => .shared

def is_copy : Carrier → Bool
  | .shared_ref => true
  | .mut_ref => false
  | .SharedReadToken => true

end Carrier

/-- Which carriers a safe call on the owner gives: a borrow of it, or `share`. -/
def Owner.lends (self : Owner) : Carrier → Bool
  | .shared_ref => true
  | .mut_ref => true
  | .SharedReadToken => self.family.share

/-- The trait bound that a call puts on its permit. -/
inductive Bound
  | ReadPermit
  | WritePermit
deriving DecidableEq

/-- The `impl` blocks of the two traits. -/
def Bound.accepts : Bound → Carrier → Bool
  | .ReadPermit, .shared_ref => true
  | .ReadPermit, .mut_ref => true
  | .ReadPermit, .SharedReadToken => true
  | .WritePermit, .shared_ref => false
  | .WritePermit, .mut_ref => true
  | .WritePermit, .SharedReadToken => false

/-- A permit value, with the loan of the owner that it keeps alive. -/
structure Permit (R : Type) where
  carrier : Carrier
  loan : Loan R
  carries : loan.kind = carrier.kind

variable {R : Type}

theorem write_permit_is_exclusive {p : Permit R} (h : Bound.WritePermit.accepts p.carrier = true) :
    p.loan.kind = .exclusive := by
  rw [p.carries]
  cases hc : p.carrier with
  | mut_ref => rfl
  | shared_ref => rw [hc] at h; cases h
  | SharedReadToken => rw [hc] at h; cases h

theorem copy_is_shared {p : Permit R} (h : p.carrier.is_copy = true) : p.loan.kind = .shared := by
  rw [p.carries]
  cases hc : p.carrier with
  | mut_ref => rw [hc] at h; cases h
  | shared_ref => rfl
  | SharedReadToken => rfl

/-- What a permit-gated call asks for and hands out: the bound on its permit, and
the places of each view. An exclusive view asks for a `WritePermit`, and two that
one call hands out reach different places. -/
structure Access (A : Type) where
  bound : Bound
  kind : Kind
  views : List (Finset A)
  gated : kind = .exclusive → bound = .WritePermit
  apart : kind = .exclusive → views.Pairwise Disjoint

end token

variable {A : Type} [DecidableEq A]

/-! ## The gated calls -/

open token

/-- The view of one place set that a `ReadPermit` gives. -/
def token.Access.read (places : Finset A) : Access A where
  bound := .ReadPermit
  kind := .shared
  views := [places]
  gated h := by cases h
  apart h := by cases h

/-- The view of one place set that a `WritePermit` gives. -/
def token.Access.write (places : Finset A) : Access A where
  bound := .WritePermit
  kind := .exclusive
  views := [places]
  gated _ := rfl
  apart _ := List.pairwise_singleton _ _

namespace cell

/-- `value` is the memory of the cell's contents. -/
structure MelinoeCell (A : Type) where
  value : Finset A
deriving DecidableEq

namespace MelinoeCell

def borrow (self : MelinoeCell A) : Access A := .read self.value

def borrow_mut (self : MelinoeCell A) : Access A := .write self.value

/-- `replace` holds the view of its `borrow_mut` until it returns. -/
def replace (self : MelinoeCell A) : Access A := self.borrow_mut

end MelinoeCell

/-- The memory of `slice_as_unsafe_cell`. -/
def slice_as_unsafe_cell (slice : List (MelinoeCell A)) : Finset A :=
  slice.foldr (fun cell places => cell.value ∪ places) ∅

theorem mem_slice_as_unsafe_cell {slice : List (MelinoeCell A)} {x : A} :
    x ∈ slice_as_unsafe_cell slice ↔ ∃ cell ∈ slice, x ∈ cell.value := by
  unfold slice_as_unsafe_cell
  induction slice with
  | nil => simp
  | cons cell slice ih => rw [List.foldr_cons, Finset.mem_union, ih]; simp

def borrow_slice (self : List (MelinoeCell A)) : Access A := .read (slice_as_unsafe_cell self)

def borrow_slice_mut (self : List (MelinoeCell A)) : Access A := .write (slice_as_unsafe_cell self)

end cell

open cell

namespace collections

structure BrandedVec (A : Type) where
  cells : List (MelinoeCell A)

namespace BrandedVec

def get (self : BrandedVec A) (index : Nat) : Option (Access A) :=
  self.cells[index]?.map MelinoeCell.borrow

def get_mut (self : BrandedVec A) (index : Nat) : Option (Access A) :=
  self.cells[index]?.map MelinoeCell.borrow_mut

def as_slice (self : BrandedVec A) : Access A := borrow_slice self.cells

def as_mut_slice (self : BrandedVec A) : Access A := borrow_slice_mut self.cells

end BrandedVec

/-- The two segments of `VecDeque::as_slices`, which share no memory. -/
structure BrandedVecDeque (A : Type) [DecidableEq A] where
  front : List (MelinoeCell A)
  back : List (MelinoeCell A)
  segments_apart : Disjoint (slice_as_unsafe_cell front) (slice_as_unsafe_cell back)

namespace BrandedVecDeque

def get (self : BrandedVecDeque A) (index : Nat) : Option (Access A) :=
  (self.front ++ self.back)[index]?.map MelinoeCell.borrow

def get_mut (self : BrandedVecDeque A) (index : Nat) : Option (Access A) :=
  (self.front ++ self.back)[index]?.map MelinoeCell.borrow_mut

def as_slices (self : BrandedVecDeque A) : Access A where
  bound := .ReadPermit
  kind := .shared
  views := [slice_as_unsafe_cell self.front, slice_as_unsafe_cell self.back]
  gated h := by cases h
  apart h := by cases h

def as_mut_slices (self : BrandedVecDeque A) : Access A where
  bound := .WritePermit
  kind := .exclusive
  views := [slice_as_unsafe_cell self.front, slice_as_unsafe_cell self.back]
  gated _ := rfl
  apart _ := by simpa using self.segments_apart

end BrandedVecDeque

end collections

namespace atomic

/-- `inner` is the memory of the atomic. -/
structure BrandedAtomic (A : Type) where
  inner : Finset A

def BrandedAtomic.as_atomic (self : BrandedAtomic A) : Access A := .read self.inner

/-- The `&mut A::Value` that the closure of `with_exclusive` has while it runs. -/
def BrandedAtomic.with_exclusive (self : BrandedAtomic A) : Access A := .write self.inner

end atomic

/-! ## The branded objects -/

open collections atomic

namespace token

inductive Shape (A : Type) [DecidableEq A]
  | cell (self : MelinoeCell A)
  | slice (self : List (MelinoeCell A))
  | vec (self : BrandedVec A)
  | deque (self : BrandedVecDeque A)
  | atomic (self : BrandedAtomic A)

def Shape.places : Shape A → Finset A
  | .cell self => self.value
  | .slice self => slice_as_unsafe_cell self
  | .vec self => slice_as_unsafe_cell self.cells
  | .deque self => slice_as_unsafe_cell (self.front ++ self.back)
  | .atomic self => self.inner

/-- The gated calls that an object has. -/
inductive Shape.Offers : Shape A → Access A → Prop
  | borrow (self : MelinoeCell A) : Offers (.cell self) self.borrow
  | borrow_mut (self : MelinoeCell A) : Offers (.cell self) self.borrow_mut
  | replace (self : MelinoeCell A) : Offers (.cell self) self.replace
  | borrow_slice (self : List (MelinoeCell A)) : Offers (.slice self) (cell.borrow_slice self)
  | borrow_slice_mut (self : List (MelinoeCell A)) :
      Offers (.slice self) (cell.borrow_slice_mut self)
  | vec_get {self : BrandedVec A} {index : Nat} {access : Access A}
      (h : self.get index = some access) : Offers (.vec self) access
  | vec_get_mut {self : BrandedVec A} {index : Nat} {access : Access A}
      (h : self.get_mut index = some access) : Offers (.vec self) access
  | as_slice (self : BrandedVec A) : Offers (.vec self) self.as_slice
  | as_mut_slice (self : BrandedVec A) : Offers (.vec self) self.as_mut_slice
  | deque_get {self : BrandedVecDeque A} {index : Nat} {access : Access A}
      (h : self.get index = some access) : Offers (.deque self) access
  | deque_get_mut {self : BrandedVecDeque A} {index : Nat} {access : Access A}
      (h : self.get_mut index = some access) : Offers (.deque self) access
  | as_slices (self : BrandedVecDeque A) : Offers (.deque self) self.as_slices
  | as_mut_slices (self : BrandedVecDeque A) : Offers (.deque self) self.as_mut_slices
  | as_atomic (self : BrandedAtomic A) : Offers (.atomic self) self.as_atomic
  | with_exclusive (self : BrandedAtomic A) : Offers (.atomic self) self.with_exclusive

/-- The view of one cell of a slice stays in the memory of the slice. -/
theorem cell_subset {slice : List (MelinoeCell A)} {index : Nat} {cell : MelinoeCell A}
    (h : slice[index]? = some cell) : cell.value ⊆ slice_as_unsafe_cell slice :=
  fun _ hx => mem_slice_as_unsafe_cell.mpr ⟨cell, List.mem_of_getElem? h, hx⟩

/-- No call hands out a view of places that its object does not have. -/
theorem offers_places {shape : Shape A} {access : Access A} (h : shape.Offers access) :
    ∀ places ∈ access.views, places ⊆ shape.places := by
  have hone : ∀ {places whole : Finset A}, places ⊆ whole → ∀ p ∈ [places], p ⊆ whole :=
    fun hsub p hp => List.mem_singleton.mp hp ▸ hsub
  have htwo : ∀ front back : List (MelinoeCell A),
      ∀ p ∈ [slice_as_unsafe_cell front, slice_as_unsafe_cell back],
        p ⊆ slice_as_unsafe_cell (front ++ back) := by
    intro front back p hp x hx
    simp only [List.mem_cons, List.not_mem_nil, or_false] at hp
    rw [mem_slice_as_unsafe_cell]
    rcases hp with rfl | rfl <;> obtain ⟨cell, hcell, hxc⟩ := mem_slice_as_unsafe_cell.mp hx
    · exact ⟨cell, List.mem_append_left _ hcell, hxc⟩
    · exact ⟨cell, List.mem_append_right _ hcell, hxc⟩
  cases h with
  | borrow => exact hone (Finset.Subset.refl _)
  | borrow_mut => exact hone (Finset.Subset.refl _)
  | replace => exact hone (Finset.Subset.refl _)
  | borrow_slice => exact hone (Finset.Subset.refl _)
  | borrow_slice_mut => exact hone (Finset.Subset.refl _)
  | vec_get h =>
    obtain ⟨cell, hcell, rfl⟩ := Option.map_eq_some_iff.mp h
    exact hone (cell_subset hcell)
  | vec_get_mut h =>
    obtain ⟨cell, hcell, rfl⟩ := Option.map_eq_some_iff.mp h
    exact hone (cell_subset hcell)
  | as_slice => exact hone (Finset.Subset.refl _)
  | as_mut_slice => exact hone (Finset.Subset.refl _)
  | deque_get h =>
    obtain ⟨cell, hcell, rfl⟩ := Option.map_eq_some_iff.mp h
    exact hone (cell_subset hcell)
  | deque_get_mut h =>
    obtain ⟨cell, hcell, rfl⟩ := Option.map_eq_some_iff.mp h
    exact hone (cell_subset hcell)
  | as_slices self => exact htwo self.front self.back
  | as_mut_slices self => exact htwo self.front self.back
  | as_atomic => exact hone (Finset.Subset.refl _)
  | with_exclusive => exact hone (Finset.Subset.refl _)

end token

end melinoe
