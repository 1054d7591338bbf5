-- Tasks that each see their own window of one memory as a list of its own. In
-- every interleaving each does to its window what it does to such a list alone.
import Melinoe.Tasks

namespace tasks

open Memory

variable {μ κ α ε ρ π : Type} [Memory μ κ α]

/-- The window shows the list: `addr a` is the cell at place `a`. -/
def Shows (addr : Nat → Option κ) (m : μ) (l : List α) : Prop :=
  ∀ a, get l a = (addr a).bind (get m)

theorem shows_iff {addr : Nat → Option κ} {m : μ} {l : List α} :
    Shows addr m l ↔ ∀ a, l[a]? = (addr a).bind (get m) := Iff.rfl

theorem Shows.unique {addr : Nat → Option κ} {m : μ} {l l' : List α} (h : Shows addr m l)
    (h' : Shows addr m l') : l = l' :=
  List.ext_getElem? fun a => (h a).trans (h' a).symm

/-- The cells of a window. -/
def InWindow (addr : Nat → Option κ) (c : κ) : Prop := ∃ a, addr a = some c

theorem Shows.congr {addr : Nat → Option κ} {m m' : μ} {l : List α} (h : Shows addr m l)
    (hm : Agree (InWindow addr) m m') : Shows addr m' l := by
  intro a
  rw [h a]
  cases ha : addr a with
  | none => rfl
  | some c => exact hm c ⟨a, ha⟩

/-- The `n` windows name no cell twice, and each shows its list at first. -/
structure Windows (n : Nat) (addr : Nat → Nat → Option κ) (m₀ : μ) (view : Nat → List α) :
    Prop where
  inj : ∀ i < n, ∀ a b c, addr i a = some c → addr i b = some c → a = b
  disjoint : ∀ i < n, ∀ j < n, i ≠ j → ∀ c, InWindow (addr i) c → ¬ InWindow (addr j) c
  shows : ∀ i < n, Shows (addr i) m₀ (view i)

variable {n : Nat} {addr : Nat → Nat → Option κ} {m₀ : μ} {view : Nat → List α}
  {run : Nat → Task κ α ε ρ π} {body : Nat → Task Nat α ε ρ π}

theorem Windows.isolated_move (w : Windows n addr m₀ view)
    (hrun : ∀ i < n, run i = (body i).relocate (addr i)) {p p' : Pool μ κ α ε ρ π}
    (h : Isolated run (fun i => InWindow (addr i)) n m₀ p) (hm : Pool.Move run n p p') :
    Isolated run (fun i => InWindow (addr i)) n m₀ p' := by
  refine tasks.isolated_move w.disjoint (fun i hi => ?_) h hm
  rw [hrun i hi]
  exact Task.within_relocate (fun a c hac => ⟨a, hac⟩) _

/-- A task that has ended did what it does to its list alone. -/
theorem Windows.ended (w : Windows n addr m₀ view)
    (hrun : ∀ i < n, run i = (body i).relocate (addr i)) {p : Pool μ κ α ε ρ π}
    (h : Isolated run (fun i => InWindow (addr i)) n m₀ p) {i : Nat} (hi : i < n)
    {o : Except π ρ} (hs : p.status i = .ended o) :
    o = ((body i).exec (view i)).1 ∧ Shows (addr i) p.mem ((body i).exec (view i)).2 := by
  have htrack := h.on_track i hi
  rw [hs] at htrack
  obtain ⟨ho, hagree⟩ := htrack
  obtain ⟨hres, hmem⟩ := Task.exec_relocate (w.inj i hi) (body i) (w.shows i hi)
  rw [hrun i hi] at ho hagree
  have hshows : Shows (addr i) (((body i).relocate (addr i)).exec m₀).2
      ((body i).exec (view i)).2 := hmem
  exact ⟨ho.trans hres, hshows.congr hagree.symm⟩

/-- A task sees its list untouched when it is called. -/
theorem Windows.called (w : Windows n addr m₀ view) {p : Pool μ κ α ε ρ π}
    (h : Isolated run (fun i => InWindow (addr i)) n m₀ p) {i : Nat} (hi : i < n) {m : μ}
    (hc : (i, m) ∈ p.calls) : Shows (addr i) m (view i) :=
  (w.shows i hi).congr (h.calls_fresh (i, m) hc).symm

/-! ## A function of the list as a task -/

namespace Task

/-- Reads the first `n` places. -/
def loads : Nat → (List α → Task Nat α ε ρ π) → Task Nat α ε ρ π
  | 0, k => k []
  | n + 1, k => loads n fun l => .load n fun v => k (l ++ v.toList)

/-- Writes the list at the places from `start` on. -/
def stores : List α → Nat → Task Nat α ε ρ π → Task Nat α ε ρ π
  | [], _, k => k
  | v :: rest, start, k => .store start v (stores rest (start + 1) k)

/-- Reads the list, and ends with what `g` makes of it. -/
def reading (g : List α → ρ) (n : Nat) : Task Nat α ε ρ π := loads n fun l => .ret (g l)

/-- Reads the list, and writes and ends with what `g` makes of it. -/
def updating (g : List α → ρ × List α) (n : Nat) : Task Nat α ε ρ π :=
  loads n fun l => stores (g l).2 0 (.ret (g l).1)

theorem exec_loads (k : List α → Task Nat α ε ρ π) {n : Nat} {l : List α} (h : n ≤ l.length) :
    (loads n k).exec l = (k (l.take n)).exec l := by
  induction n generalizing k with
  | zero => rfl
  | succ n ih =>
    simp only [loads]
    rw [ih _ (by omega)]
    simp only [exec, get_list]
    rw [List.take_add_one]

theorem exec_stores (k : Task Nat α ε ρ π) {l m : List α} {start : Nat}
    (h : start + l.length ≤ m.length) : (stores l start k).exec m =
      k.exec (m.take start ++ l ++ m.drop (start + l.length)) := by
  induction l generalizing start m with
  | nil => simp [stores]
  | cons v rest ih =>
    rw [List.length_cons] at h
    simp only [stores, exec, set_list]
    rw [ih (by rw [List.length_set]; omega)]
    congr 1
    have htake : (m.set start v).take (start + 1) = m.take start ++ [v] := by
      rw [List.take_add_one, List.take_set_of_le (Nat.le_refl start),
        List.getElem?_set_self (by omega)]
      rfl
    have hdrop : (m.set start v).drop (start + 1 + rest.length) =
        m.drop (start + (rest.length + 1)) := by
      rw [List.drop_set_of_lt (by omega)]
      congr 1
      omega
    rw [htake, hdrop, List.length_cons]
    simp

theorem exec_reading (g : List α → ρ) (l : List α) :
    (reading g l.length : Task Nat α ε ρ π).exec l = (.ok (g l), l) := by
  unfold reading
  rw [exec_loads _ (Nat.le_refl _), List.take_length]
  rfl

theorem exec_updating {g : List α → ρ × List α} {l : List α} (h : (g l).2.length = l.length) :
    (updating g l.length : Task Nat α ε ρ π).exec l = (.ok (g l).1, (g l).2) := by
  unfold updating
  rw [exec_loads _ (Nat.le_refl _), List.take_length, exec_stores _ (by omega), h]
  simp [exec]

end Task

end tasks
