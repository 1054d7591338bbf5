-- Loans of resources under Rust's rule: any number of shared loans of a
-- resource, or one exclusive loan. A loan is live while some value carries it.
import Mathlib.Data.List.Basic

namespace loans

variable {R : Type}

inductive Kind
  | shared
  | exclusive
deriving DecidableEq, Repr

/-- `id` tells the loans of one resource apart. -/
structure Loan (R : Type) where
  id : Nat
  of : R
  kind : Kind
deriving DecidableEq

/-- A loan of kind `k` may be taken: for a shared one no exclusive loan of the
resource is live, for an exclusive one no loan at all. -/
def Admits (live : List (Loan R)) (r : R) (k : Kind) : Prop :=
  ∀ l ∈ live, l.of = r → k = .shared ∧ l.kind = .shared

instance [DecidableEq R] (live : List (Loan R)) (r : R) (k : Kind) : Decidable (Admits live r k) :=
  inferInstanceAs (Decidable (∀ l ∈ live, l.of = r → _ ∧ _))

/-- Every live loan of a resource that is lent exclusively is that one loan. -/
def Lawful (live : List (Loan R)) : Prop :=
  ∀ l ∈ live, ∀ m ∈ live, l.of = m.of → l.kind = .exclusive → m = l

theorem lawful_nil : Lawful ([] : List (Loan R)) := by
  intro l hl
  cases hl

/-- Loans may end, and more values may carry a loan that is live. -/
theorem lawful_of_subset {live live' : List (Loan R)} (h : Lawful live)
    (hs : ∀ l ∈ live', l ∈ live) : Lawful live' :=
  fun l hl m hm => h l (hs l hl) m (hs m hm)

/-- A loan that the rule admits keeps the ledger lawful. -/
theorem lawful_open {live : List (Loan R)} {l : Loan R} (h : Lawful live)
    (ha : Admits live l.of l.kind) : Lawful (l :: live) := by
  intro a hmem b hmem' hof hkind
  rcases List.mem_cons.mp hmem with rfl | hlive <;>
    rcases List.mem_cons.mp hmem' with rfl | hlive'
  · rfl
  · -- an exclusive loan was admitted next to `b`
    obtain ⟨hshared, -⟩ := ha b hlive' hof.symm
    rw [hkind] at hshared
    cases hshared
  · -- a loan was admitted next to the exclusive `a`
    obtain ⟨-, hshared⟩ := ha a hlive hof
    rw [hkind] at hshared
    cases hshared
  · exact h a hlive b hlive' hof hkind

/-- A shared and an exclusive loan of one resource are never both live. -/
theorem not_shared_of_exclusive {live : List (Loan R)} (h : Lawful live) {l m : Loan R}
    (hl : l ∈ live) (hm : m ∈ live) (hof : l.of = m.of) (hkind : l.kind = .exclusive) :
    m.kind ≠ .shared := by
  rw [h l hl m hm hof hkind, hkind]
  exact Kind.noConfusion

theorem admits_nil (r : R) (k : Kind) : Admits [] r k := by
  intro l hl
  cases hl

end loans
