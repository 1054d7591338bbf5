-- Passes over a list. A pass updates each item in its place and adds up what the
-- items give, and an item may fail, which ends it. A pass that is made in pieces,
-- each by its own task and in any order, gives what the one pass gives.
import Melinoe.Tiles
import Melinoe.Windows
import Mathlib.Algebra.BigOperators.Group.List.Basic

open tiles tasks

namespace passes

variable {α M π : Type}

/-- What a pass does to the item at a place: a new item and what it adds to the
total, or a failure. -/
abbrev ItemStep (α M π : Type) := Nat → α → Except π (α × M)

/-- A step that reads its item and leaves it. -/
def weigh (weight : Nat → α → Except π M) : ItemStep α M π :=
  fun place x => (weight place x).map fun w => (x, w)

variable [AddMonoid M]

/-- The pass over a list whose first item is at place `start`. -/
def pass (step : ItemStep α M π) : Nat → List α → Except π M × List α
  | _, [] => (.ok 0, [])
  | start, x :: rest =>
    match step start x with
    | .error payload => (.error payload, x :: rest)
    | .ok (y, w) =>
      ((pass step (start + 1) rest).1.map (w + ·), y :: (pass step (start + 1) rest).2)

variable {step : ItemStep α M π} {start : Nat} {l l' : List α}

/-! ## A pass over two lists -/

theorem pass_append_of_ok {total : M} (h : (pass step start l).1 = .ok total) :
    pass step start (l ++ l') =
      ((pass step (start + l.length) l').1.map (total + ·),
        (pass step start l).2 ++ (pass step (start + l.length) l').2) := by
  induction l generalizing start total with
  | nil =>
    cases h
    simp only [List.nil_append, List.length_nil, Nat.add_zero, pass]
    cases hr : (pass step start l').1 with
    | error payload => exact Prod.ext hr rfl
    | ok w => simp only [Except.map, zero_add, ← hr]
  | cons x rest ih =>
    simp only [List.cons_append, pass] at h ⊢
    cases hx : step start x with
    | error payload => simp [hx] at h
    | ok r =>
      obtain ⟨y, w⟩ := r
      simp only [hx] at h ⊢
      cases hrest : (pass step (start + 1) rest).1 with
      | error payload => simp [hrest, Except.map] at h
      | ok sum =>
        simp only [hrest, Except.map, Except.ok.injEq] at h
        subst h
        have hplace : start + 1 + rest.length = start + (x :: rest).length := by
          rw [List.length_cons]
          omega
        rw [ih hrest, hplace]
        cases (pass step (start + (x :: rest).length) l').1 with
        | error payload => rfl
        | ok last => simp [Except.map, add_assoc]

@[simp] theorem pass_length (step : ItemStep α M π) (start : Nat) (l : List α) :
    (pass step start l).2.length = l.length := by
  induction l generalizing start with
  | nil => rfl
  | cons x rest ih =>
    unfold pass
    split
    · rfl
    · simp [ih]

theorem pass_weigh (weight : Nat → α → Except π M) (start : Nat) (l : List α) :
    (pass (weigh weight) start l).2 = l := by
  induction l generalizing start with
  | nil => rfl
  | cons x rest ih =>
    unfold pass
    split
    · rfl
    · rename_i hx
      simp only [weigh] at hx
      cases hw : weight start x with
      | error payload => simp [hw, Except.map] at hx
      | ok w =>
        simp only [hw, Except.map, Except.ok.injEq, Prod.mk.injEq] at hx
        obtain ⟨rfl, -⟩ := hx
        rw [ih]

/-! ## A pass that fails -/

/-- Some item of the list fails with `payload`. -/
def Raises (step : ItemStep α M π) (start : Nat) (l : List α) (payload : π) : Prop :=
  ∃ i x, l[i]? = some x ∧ step (start + i) x = .error payload

/-- The items of `l'` are those of `l`, each as it was or as the step makes it. -/
structure Swept (step : ItemStep α M π) (start : Nat) (l l' : List α) : Prop where
  length : l'.length = l.length
  item : ∀ i x, l[i]? = some x →
    l'[i]? = some x ∨ ∃ y w, step (start + i) x = .ok (y, w) ∧ l'[i]? = some y

omit [AddMonoid M] in
/-- A pass that only weighs its items leaves them, however far it goes. -/
theorem Swept.eq_of_weigh {weight : Nat → α → Except π M}
    (h : Swept (weigh weight) start l l') : l' = l := by
  apply List.ext_getElem?
  intro i
  cases hget : l[i]? with
  | none =>
    rw [List.getElem?_eq_none_iff] at hget ⊢
    rw [h.length]
    exact hget
  | some x =>
    rcases h.item i x hget with hsame | ⟨y, w, hstep, hnew⟩
    · exact hsame
    · simp only [weigh] at hstep
      cases hw : weight (start + i) x with
      | error payload => simp [hw, Except.map] at hstep
      | ok v =>
        simp only [hw, Except.map, Except.ok.injEq, Prod.mk.injEq] at hstep
        rw [hnew, hstep.1]

theorem raises_of_pass {payload : π} (h : (pass step start l).1 = .error payload) :
    Raises step start l payload := by
  induction l generalizing start with
  | nil => cases h
  | cons x rest ih =>
    simp only [pass] at h
    cases hx : step start x with
    | error other =>
      simp only [hx] at h
      cases h
      exact ⟨0, x, rfl, hx⟩
    | ok r =>
      simp only [hx] at h
      cases hrest : (pass step (start + 1) rest).1 with
      | error other =>
        rw [hrest] at h
        cases h
        obtain ⟨i, y, hy, hstep⟩ := ih hrest
        refine ⟨i + 1, y, hy, ?_⟩
        rw [← hstep]
        congr 1
        omega
      | ok sum => simp [hrest, Except.map] at h

/-- A pass over a list with an item that fails fails. -/
theorem pass_fails {payload : π} (h : Raises step start l payload) :
    ∃ first, (pass step start l).1 = .error first := by
  obtain ⟨i, x, hget, hstep⟩ := h
  induction l generalizing start i with
  | nil => cases hget
  | cons y rest ih =>
    simp only [pass]
    cases hy : step start y with
    | error first => exact ⟨first, rfl⟩
    | ok r =>
      cases i with
      | zero =>
        cases hget
        rw [Nat.add_zero, hy] at hstep
        cases hstep
      | succ i =>
        rw [show start + (i + 1) = start + 1 + i by omega] at hstep
        obtain ⟨first, hfirst⟩ := ih i hget hstep
        exact ⟨first, by simp only [hfirst, Except.map]⟩

theorem pass_swept (step : ItemStep α M π) (start : Nat) (l : List α) :
    Swept step start l (pass step start l).2 := by
  refine ⟨pass_length step start l, fun i x hget => ?_⟩
  induction l generalizing start i with
  | nil => cases hget
  | cons y rest ih =>
    unfold pass
    split
    · exact .inl hget
    · rename_i z w hy
      cases i with
      | zero =>
        cases hget
        exact .inr ⟨z, w, hy, rfl⟩
      | succ i =>
        have hplace : start + 1 + i = start + (i + 1) := by omega
        have hrest := ih (start + 1) i hget
        rw [hplace] at hrest
        exact hrest

/-! ## A pass in pieces -/

section pieces

variable {spans : List Span}

/-- Pieces that all succeed add up to the pass. -/
theorem pass_of_pieces {a b : Nat} (h : Chain a spans b) (hb : b ≤ l.length) {totals : List M}
    (hok : spans.map (fun s => (pass step s.start (s.cut l)).1) = totals.map .ok) :
    pass step a ((Span.mk a (b - a)).cut l) =
      (.ok totals.sum, (spans.map fun s => (pass step s.start (s.cut l)).2).flatten) := by
  induction spans generalizing a totals with
  | nil =>
    cases h
    obtain rfl : totals = [] := by simpa using hok.symm
    simp [Span.cut, pass]
  | cons s rest ih =>
    obtain ⟨rfl, -, hrest⟩ := h
    have hle : s.start + s.len ≤ b := chain_le hrest
    cases totals with
    | nil => simp at hok
    | cons total totals =>
      simp only [List.map_cons, List.cons.injEq] at hok
      obtain ⟨hfirst, hok⟩ := hok
      have hlen : (s.cut l).length = s.len := s.cut_length l (Nat.le_trans hle hb)
      have hsub : b - s.start - s.len = b - s.stop := by
        unfold Span.stop
        omega
      rw [Span.cut_append ⟨s.start, b - s.start⟩ s.len l (by simp only; omega)]
      rw [pass_append_of_ok (l := (Span.mk s.start s.len).cut l) hfirst]
      have hwhole := ih hrest hok
      simp only [hsub]
      rw [show (Span.mk s.start s.len).cut l = s.cut l from rfl, hlen]
      rw [show s.start + s.len = s.stop from rfl, hwhole]
      simp [Except.map]

/-- What is true of each item of the pieces is true of each item of the list. -/
theorem swept_of_pieces (h : Chain 0 spans l.length) (hlen : l'.length = l.length)
    (hcut : ∀ s ∈ spans, s.cut l' = (pass step s.start (s.cut l)).2) : Swept step 0 l l' := by
  refine ⟨hlen, fun i x hget => ?_⟩
  obtain ⟨hi, -⟩ := List.getElem?_eq_some_iff.mp hget
  obtain ⟨s, hs, hstart, hstop⟩ : ∃ s ∈ spans, s.Has i := by
    apply holds_pos.mp
    rw [chain_holds h, if_pos ⟨Nat.zero_le i, hi⟩]
    exact Nat.one_pos
  obtain ⟨j, rfl⟩ := Nat.exists_eq_add_of_le hstart
  have hj : j < s.len := by
    unfold Span.stop at hstop
    omega
  have hold : (s.cut l)[j]? = some x := by rw [Span.cut_getElem?, if_pos hj, hget]
  have hnew : l'[s.start + j]? = (pass step s.start (s.cut l)).2[j]? := by
    rw [← hcut s hs, Span.cut_getElem?, if_pos hj]
  rw [hnew, Nat.zero_add]
  exact (pass_swept step s.start (s.cut l)).item j x hold

omit [AddMonoid M] in
theorem Raises.of_piece {s : Span} {payload : π} (h : Raises step s.start (s.cut l) payload) :
    Raises step 0 l payload := by
  obtain ⟨i, x, hget, hstep⟩ := h
  rw [Span.cut_getElem?] at hget
  split at hget
  · exact ⟨s.start + i, x, hget, by rw [Nat.zero_add, hstep]⟩
  · cases hget

/-- The pieces of a pass are made, in any order: what came of them, and what the
list is then. -/
structure Pieces (step : ItemStep α M π) (spans : List Span) (l l' : List α)
    (out : Except π (List M)) : Prop where
  tiling : Chain 0 spans l.length
  length : l'.length = l.length
  cut : ∀ s ∈ spans, s.cut l' = (pass step s.start (s.cut l)).2
  out : match out with
    | .ok totals => spans.map (fun s => (pass step s.start (s.cut l)).1) = totals.map .ok
    | .error payload => ∃ s ∈ spans, (pass step s.start (s.cut l)).1 = .error payload

/-- Pieces that all return give the pass. -/
theorem Pieces.returned {totals : List M} (h : Pieces step spans l l' (.ok totals)) :
    pass step 0 l = (.ok totals.sum, l') := by
  have hpass := pass_of_pieces h.tiling (Nat.le_refl _) h.out
  rw [Nat.sub_zero, Span.cut_all] at hpass
  rw [hpass]
  congr 1
  exact (chain_rebuild (h.length ▸ h.tiling) _ h.cut).symm

/-- Where a piece fails the pass fails too, though perhaps at another item. -/
theorem Pieces.failed {payload : π} (h : Pieces step spans l l' (.error payload)) :
    (∃ first k, pass step 0 l = (.error first, k)) ∧ Raises step 0 l payload ∧
      Swept step 0 l l' := by
  obtain ⟨s, -, herror⟩ := h.out
  have hraises : Raises step 0 l payload := (raises_of_pass herror).of_piece
  obtain ⟨first, hfirst⟩ := pass_fails hraises
  exact ⟨⟨first, _, Prod.ext hfirst rfl⟩, hraises, swept_of_pieces h.tiling h.length h.cut⟩

end pieces

/-! ## The pass as a loop -/

variable {ε : Type}

/-- The loop over the places from `place` on, `left` of them, of a list whose
place 0 is `start`. A place with no cell ends it. -/
def sweep (step : ItemStep α M π) (start : Nat) : Nat → Nat → M → Task Nat α ε M π
  | 0, _, total => .ret total
  | left + 1, place, total => .load place fun
    | none => .ret total
    | some x =>
      match step (start + place) x with
      | .error payload => .panic payload
      | .ok (y, w) => .store place y (sweep step start left (place + 1) (total + w))

theorem exec_sweep_from {left place : Nat} (total : M) (h : place + left = l.length) :
    (sweep step start left place total : Task Nat α ε M π).exec l =
      ((pass step (start + place) (l.drop place)).1.map (total + ·),
        l.take place ++ (pass step (start + place) (l.drop place)).2) := by
  induction left generalizing place total l with
  | zero =>
    rw [List.drop_of_length_le (by omega), List.take_of_length_le (by omega)]
    simp [sweep, Task.exec, pass, Except.map]
  | succ left ih =>
    have hlt : place < l.length := by omega
    have hdrop := List.drop_eq_getElem_cons hlt
    simp only [sweep, Task.exec, get_list, List.getElem?_eq_getElem hlt]
    rw [hdrop, pass]
    cases hx : step (start + place) l[place] with
    | error payload =>
      simp only [Task.exec, Except.map]
      rw [← hdrop, List.take_append_drop]
    | ok r =>
      obtain ⟨y, w⟩ := r
      simp only [Task.exec, set_list]
      rw [ih (l := l.set place y) (total + w) (by rw [List.length_set]; omega)]
      have hrest : (l.set place y).drop (place + 1) = l.drop (place + 1) :=
        List.drop_set_of_lt (by omega)
      have hdone : (l.set place y).take (place + 1) = l.take place ++ [y] := by
        rw [List.take_add_one, List.take_set_of_le (Nat.le_refl place),
          List.getElem?_set_self hlt]
        rfl
      rw [hrest, hdone, ← Nat.add_assoc]
      cases (pass step (start + place + 1) (l.drop (place + 1))).1 with
      | error payload => simp [Except.map]
      | ok sum => simp [Except.map, add_assoc]

/-- The loop over a whole list makes the pass. -/
theorem exec_sweep (step : ItemStep α M π) (start : Nat) (l : List α) :
    (sweep step start l.length 0 0 : Task Nat α ε M π).exec l = pass step start l := by
  rw [exec_sweep_from 0 (Nat.zero_add _), List.drop_zero, List.take_zero, Nat.add_zero]
  cases hr : (pass step start l).1 with
  | error payload => exact Prod.ext hr.symm rfl
  | ok sum =>
    refine Prod.ext ?_ rfl
    simp [Except.map, hr]

end passes
