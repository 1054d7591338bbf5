-- Spans of a list that follow one another without a gap: the chunks of a
-- fixed size, and what happens to them when the list is cut in two.
import Mathlib.Data.List.Basic
import Mathlib.Tactic.Linarith

namespace tiles

variable {α β : Type}

/-! ## Spans and chains of spans -/

/-- A run of `len` places that starts at `start`. -/
structure Span where
  start : Nat
  len : Nat
deriving DecidableEq, Repr

namespace Span

/-- The place after the last one. -/
def stop (s : Span) : Nat := s.start + s.len

def Has (s : Span) (x : Nat) : Prop := s.start ≤ x ∧ x < s.stop

instance (s : Span) (x : Nat) : Decidable (s.Has x) := inferInstanceAs (Decidable (_ ∧ _))

/-- The items of the list at the places of the span. -/
def cut (s : Span) (l : List α) : List α := (l.drop s.start).take s.len

theorem cut_length (s : Span) (l : List α) (h : s.stop ≤ l.length) : (s.cut l).length = s.len := by
  unfold stop at h
  simp only [cut, List.length_take, List.length_drop]
  omega

theorem cut_getElem? (s : Span) (l : List α) (i : Nat) :
    (s.cut l)[i]? = if i < s.len then l[s.start + i]? else none := by
  simp only [cut, List.getElem?_take, List.getElem?_drop]

/-- The place of the list that the span's own place `i` is. -/
def addr (s : Span) (i : Nat) : Option Nat := if i < s.len then some (s.start + i) else none

theorem addr_eq_some {s : Span} {i x : Nat} :
    s.addr i = some x ↔ i < s.len ∧ x = s.start + i := by
  unfold addr
  split <;> simp [*, eq_comm]

theorem addr_has {s : Span} {i x : Nat} (h : s.addr i = some x) : s.Has x := by
  obtain ⟨hi, rfl⟩ := addr_eq_some.mp h
  exact ⟨by omega, by unfold stop; omega⟩

theorem cut_getElem?_addr (s : Span) (l : List α) (i : Nat) :
    (s.cut l)[i]? = (s.addr i).bind fun x => l[x]? := by
  rw [cut_getElem?]
  unfold addr
  split <;> rfl

theorem cut_all (l : List α) : (Span.mk 0 l.length).cut l = l := by simp [cut]

/-- Two lists that agree on the places of the span have the same cut. -/
theorem cut_congr {s : Span} {l l' : List α} (h : ∀ x, s.Has x → l[x]? = l'[x]?) :
    s.cut l = s.cut l' := by
  apply List.ext_getElem?
  intro i
  rw [cut_getElem?, cut_getElem?]
  split
  · rename_i hi
    exact h _ ⟨by omega, by unfold stop; omega⟩
  · rfl

theorem cut_append (s : Span) (k : Nat) (l : List α) (h : k ≤ s.len) :
    s.cut l = (Span.mk s.start k).cut l ++ (Span.mk (s.start + k) (s.len - k)).cut l := by
  simp only [cut]
  have hlen : s.len = k + (s.len - k) := by omega
  conv_lhs => rw [hlen, List.take_add, List.drop_drop]

end Span

/-- The spans lead from `a` to `b`: each is nonempty and starts where the one
before it stops. -/
def Chain : Nat → List Span → Nat → Prop
  | a, [], b => a = b
  | a, s :: rest, b => s.start = a ∧ 0 < s.len ∧ Chain s.stop rest b

theorem chain_append {a b c : Nat} {ss ts : List Span} (h : Chain a ss b) (h' : Chain b ts c) :
    Chain a (ss ++ ts) c := by
  induction ss generalizing a with
  | nil => cases h; exact h'
  | cons s ss ih => exact ⟨h.1, h.2.1, ih h.2.2⟩

theorem chain_le {a b : Nat} {ss : List Span} (h : Chain a ss b) : a ≤ b := by
  induction ss generalizing a with
  | nil => exact Nat.le_of_eq h
  | cons s ss ih =>
    have := ih h.2.2
    have := h.1
    unfold Span.stop at *
    omega

theorem chain_mem {a b : Nat} {ss : List Span} (h : Chain a ss b) {s : Span} (hs : s ∈ ss) :
    a ≤ s.start ∧ 0 < s.len ∧ s.stop ≤ b := by
  induction ss generalizing a with
  | nil => cases hs
  | cons t ss ih =>
    rcases List.mem_cons.mp hs with rfl | hs
    · exact ⟨h.1.ge, h.2.1, chain_le h.2.2⟩
    · obtain ⟨h1, h2, h3⟩ := ih h.2.2 hs
      have := h.1
      exact ⟨by unfold Span.stop at h1; omega, h2, h3⟩

/-- Of two spans of a chain, the earlier one stops before the later one starts. -/
theorem chain_pairwise {a b : Nat} {ss : List Span} (h : Chain a ss b) :
    ss.Pairwise fun s t => s.stop ≤ t.start := by
  induction ss generalizing a with
  | nil => exact .nil
  | cons s ss ih => exact .cons (fun t ht => (chain_mem h.2.2 ht).1) (ih h.2.2)

theorem chain_disjoint {a b : Nat} {ss : List Span} (h : Chain a ss b) {i j : Nat} {s t : Span}
    (hi : ss[i]? = some s) (hj : ss[j]? = some t) (hij : i ≠ j) (x : Nat) (hs : s.Has x) :
    ¬ t.Has x := by
  obtain ⟨hil, rfl⟩ := List.getElem?_eq_some_iff.mp hi
  obtain ⟨hjl, rfl⟩ := List.getElem?_eq_some_iff.mp hj
  have hp := List.pairwise_iff_getElem.mp (chain_pairwise h)
  unfold Span.Has at *
  rcases Nat.lt_or_gt_of_ne hij with hlt | hlt
  · have := hp i j hil hjl hlt
    omega
  · have := hp j i hjl hil hlt
    omega

/-- The cuts of a chain, put together, are the part of the list between its ends. -/
theorem chain_flatten {a b : Nat} {ss : List Span} (h : Chain a ss b) (l : List α) :
    (ss.map (·.cut l)).flatten = (Span.mk a (b - a)).cut l := by
  induction ss generalizing a with
  | nil => cases h; simp [Span.cut]
  | cons s ss ih =>
    obtain ⟨rfl, _, h3⟩ := h
    have hle := chain_le h3
    unfold Span.stop at *
    have hlen : b - s.start - s.len = b - (s.start + s.len) := by omega
    rw [List.map_cons, List.flatten_cons, ih h3,
      Span.cut_append ⟨s.start, b - s.start⟩ s.len l (by simp only; omega), hlen]

/-- A list is known from what stands at the spans of a chain over all of it. -/
theorem chain_rebuild {ss : List Span} {l : List α} (h : Chain 0 ss l.length) (f : Span → List α)
    (hf : ∀ s ∈ ss, s.cut l = f s) : l = (ss.map f).flatten := by
  have := chain_flatten h l
  rw [Nat.sub_zero, Span.cut_all] at this
  rw [← this, List.map_congr_left hf]

/-- How many of the spans have the place `x`. -/
def holds (ss : List Span) (x : Nat) : Nat := ss.countP fun s => decide (s.Has x)

theorem holds_append (ss ts : List Span) (x : Nat) : holds (ss ++ ts) x = holds ss x + holds ts x :=
  List.countP_append

theorem holds_cons (s : Span) (ss : List Span) (x : Nat) :
    holds (s :: ss) x = holds [s] x + holds ss x := holds_append [s] ss x

theorem holds_perm {ss ts : List Span} (h : ss.Perm ts) (x : Nat) : holds ss x = holds ts x :=
  h.countP_eq _

theorem holds_singleton (s : Span) (x : Nat) :
    holds [s] x = if s.start ≤ x ∧ x < s.stop then 1 else 0 := by
  unfold holds
  rw [List.countP_singleton]
  by_cases h : s.Has x
  · rw [if_pos (decide_eq_true h)]
    exact (if_pos h).symm
  · rw [if_neg (by simpa using h)]
    exact (if_neg h).symm

theorem holds_empty {s : Span} (h : s.len = 0) (x : Nat) : holds [s] x = 0 := by
  rw [holds_singleton, if_neg]
  unfold Span.stop
  omega

/-- A span in two parts has each place as often as the parts do. -/
theorem holds_adjacent {a k len : Nat} (h : k ≤ len) (x : Nat) :
    holds [⟨a, k⟩, ⟨a + k, len - k⟩] x = holds [⟨a, len⟩] x := by
  rw [holds_cons, holds_singleton, holds_singleton, holds_singleton]
  unfold Span.stop
  simp only
  split <;> split <;> split <;> omega

theorem holds_pos {ss : List Span} {x : Nat} : 0 < holds ss x ↔ ∃ s ∈ ss, s.Has x := by
  simp [holds, List.countP_pos_iff]

/-- The spans of a chain have every place between its ends once. -/
theorem chain_holds {a b : Nat} {ss : List Span} (h : Chain a ss b) (x : Nat) :
    holds ss x = if a ≤ x ∧ x < b then 1 else 0 := by
  induction ss generalizing a with
  | nil =>
    cases h
    rw [if_neg (by omega)]
    rfl
  | cons s ss ih =>
    obtain ⟨rfl, hpos, hrest⟩ := h
    have hle := chain_le hrest
    rw [holds_cons, holds_singleton, ih hrest]
    unfold Span.stop at *
    split <;> split <;> split <;> omega

/-- Spans that have no place twice have no place in common. -/
theorem pairwise_of_holds {ss : List Span} (h : ∀ x, holds ss x ≤ 1) :
    ss.Pairwise fun s t => ∀ x, s.Has x → ¬ t.Has x := by
  induction ss with
  | nil => exact .nil
  | cons s ss ih =>
    refine .cons (fun t ht x hs hx => ?_) (ih fun x => ?_)
    · have hone := h x
      have hrest : 0 < holds ss x := holds_pos.mpr ⟨t, ht, hx⟩
      have hfirst : 0 < holds [s] x := holds_pos.mpr ⟨s, by simp, hs⟩
      rw [holds_cons] at hone
      omega
    · have := h x
      rw [holds_cons] at this
      omega

/-- The span, `k` places further on. -/
def Span.shift (k : Nat) (s : Span) : Span := ⟨k + s.start, s.len⟩

theorem chain_shift {a b : Nat} {ss : List Span} (h : Chain a ss b) (k : Nat) :
    Chain (k + a) (ss.map (Span.shift k)) (k + b) := by
  induction ss generalizing a with
  | nil => exact congrArg (k + ·) h
  | cons s ss ih =>
    obtain ⟨rfl, hpos, hrest⟩ := h
    have hstop : (s.shift k).stop = k + s.stop := by
      simp only [Span.shift, Span.stop]
      omega
    exact ⟨rfl, hpos, hstop ▸ ih hrest⟩

/-- A part of a cut is a cut of the list itself. -/
theorem cut_cut {s w : Span} (h : s.stop ≤ w.len) (l : List α) :
    s.cut (w.cut l) = (s.shift w.start).cut l := by
  unfold Span.stop at h
  simp only [Span.cut, Span.shift]
  rw [List.drop_take, List.drop_drop, List.take_take, Nat.min_eq_left (by omega)]

/-! ## Chunks of a fixed size -/

/-- How many chunks of `c` places hold `n` places. -/
def count (n c : Nat) : Nat := (n + c - 1) / c

theorem lt_count {n c i : Nat} (hc : 0 < c) : i < count n c ↔ i * c < n := by
  unfold count
  rw [Nat.lt_iff_add_one_le, Nat.le_div_iff_mul_le hc, Nat.add_one_mul]
  omega

theorem count_le_iff {n c k : Nat} (hc : 0 < c) : count n c ≤ k ↔ n ≤ k * c := by
  rw [← Nat.not_lt, lt_count hc, Nat.not_lt]

theorem le_count_mul {n c : Nat} (hc : 0 < c) : n ≤ count n c * c :=
  (count_le_iff hc).mp (Nat.le_refl _)

/-- Chunks of `c` are at most `k` exactly when chunks of `k` are at most `c`. -/
theorem count_le_comm {n c k : Nat} (hc : 0 < c) (hk : 0 < k) : count n c ≤ k ↔ count n k ≤ c := by
  rw [count_le_iff hc, count_le_iff hk, Nat.mul_comm]

theorem count_mono {n m : Nat} (c : Nat) (h : n ≤ m) : count n c ≤ count m c := by
  apply Nat.div_le_div_right
  omega

theorem count_anti {n c d : Nat} (hc : 0 < c) (h : c ≤ d) : count n d ≤ count n c := by
  rw [count_le_iff (by omega)]
  exact Nat.le_trans (le_count_mul hc) (Nat.mul_le_mul_left _ h)

/-- After `k` chunks there are that many fewer to come. -/
theorem count_sub {n c : Nat} (hc : 0 < c) (k : Nat) : count (n - k * c) c = count n c - k := by
  apply eq_of_forall_lt_iff
  intro j
  rw [lt_count hc, Nat.lt_sub_iff_add_lt, Nat.lt_sub_iff_add_lt, lt_count hc, Nat.add_mul]

theorem count_one (n : Nat) : count n 1 = n := by simp [count]

theorem count_eq_div {n c : Nat} (hc : 0 < c) :
    count n c = if n % c = 0 then n / c else n / c + 1 := by
  have hsum := Nat.div_add_mod n c
  rw [Nat.mul_comm] at hsum
  apply Nat.le_antisymm
  · rw [count_le_iff hc]
    split
    · omega
    · have := Nat.mod_lt n hc
      rw [Nat.add_one_mul]
      omega
  · split
    · rw [Nat.div_le_iff_le_mul_add_pred hc]
      have := le_count_mul (n := n) hc
      rw [Nat.mul_comm]
      omega
    · exact (lt_count hc).mpr (by omega)

/-- For at most `p` chunks of one size the count is `p`, or one for each place, exactly
when the places are no more than `p`, or `p` divides them, or enough are left over. -/
theorem count_count_eq_min_iff {n p : Nat} (hp : 0 < p) :
    count n (max (count n p) 1) = min p n ↔ n ≤ p ∨ p ∣ n ∨ p ≤ n / p + n % p := by
  by_cases hle : n ≤ p
  · have hone : count n p ≤ 1 := (count_le_iff hp).mpr (by omega)
    rw [Nat.max_eq_right hone, count_one]
    exact iff_of_true (by omega) (.inl hle)
  · have hc : 0 < count n p := (lt_count hp).mpr (by omega)
    have hatmost : count n (count n p) ≤ p := (count_le_comm hc hp).mpr (Nat.le_refl _)
    -- the count is `p` when the last of `p` chunks still starts inside
    have hlast : count n (count n p) = p ↔ (p - 1) * count n p < n := by
      rw [← lt_count hc]
      omega
    obtain ⟨m, rfl⟩ : ∃ m, p = m + 1 := ⟨p - 1, by omega⟩
    rw [Nat.max_eq_left hc, Nat.min_eq_left (by omega), hlast, Nat.add_sub_cancel,
      count_eq_div hp, or_iff_right hle, Nat.dvd_iff_mod_eq_zero]
    have hsum := Nat.div_add_mod n (m + 1)
    rw [Nat.add_one_mul] at hsum
    split
    · rename_i hr
      have hq : 0 < n / (m + 1) := Nat.div_pos (by omega) hp
      exact iff_of_true (by omega) (.inl hr)
    · rename_i hr
      rw [or_iff_right hr, Nat.mul_add_one]
      omega

/-- The span of chunk `i` when `n` places are cut into chunks of `c`; the last
may be shorter. -/
def spanAt (n c i : Nat) : Span := ⟨i * c, min (i * c + c) n - i * c⟩

def spansOf (n c : Nat) : List Span := (List.range (count n c)).map (spanAt n c)

theorem spansOf_getElem? (n c i : Nat) : (spansOf n c)[i]? =
    if i < count n c then some (spanAt n c i) else none := by
  unfold spansOf
  rw [List.getElem?_map]
  split
  · rename_i h
    rw [List.getElem?_range h, Option.map_some]
  · rename_i h
    rw [List.getElem?_eq_none (by simpa using h), Option.map_none]

theorem chain_spansOf (n : Nat) {c : Nat} (hc : 0 < c) : Chain 0 (spansOf n c) n := by
  -- by induction on how many chunks are taken: they lead to `k * c`, or to `n`
  have hk : ∀ k ≤ count n c, Chain 0 ((List.range k).map (spanAt n c)) (min (k * c) n) := by
    intro k
    induction k with
    | zero => intro _; simp [Chain]
    | succ k ih =>
      intro hkc
      have hlt : k * c < n := (lt_count hc).mp (by omega)
      rw [List.range_succ, List.map_append]
      refine chain_append (ih (by omega)) ⟨?_, ?_, ?_⟩
      · simp only [spanAt]
        omega
      · simp only [spanAt]
        omega
      · show Span.stop _ = _
        simp only [Span.stop, spanAt, Nat.add_one_mul]
        omega
  have := hk _ (Nat.le_refl _)
  rwa [Nat.min_eq_right (le_count_mul hc)] at this

theorem spanAt_cut (c i : Nat) (l : List α) :
    (spanAt l.length c i).cut l = (l.drop (i * c)).take c := by
  simp only [spanAt, Span.cut]
  rw [List.take_eq_take_iff, List.length_drop]
  omega

theorem spanAt_disjoint {n c i j : Nat} (hc : 0 < c) (hi : i < count n c) (hj : j < count n c)
    (hij : i ≠ j) (x : Nat) (hx : (spanAt n c i).Has x) : ¬ (spanAt n c j).Has x :=
  chain_disjoint (chain_spansOf n hc) (by rw [spansOf_getElem?, if_pos hi])
    (by rw [spansOf_getElem?, if_pos hj]) hij x hx

/-- The consecutive chunks of `c` items, each with the index of its first item. -/
def chunks (c : Nat) (l : List α) : List (Nat × List α) :=
  (List.range (count l.length c)).map fun i => (i * c, (l.drop (i * c)).take c)

theorem chunks_eq (c : Nat) (l : List α) :
    chunks c l = (spansOf l.length c).map fun s => (s.start, s.cut l) := by
  unfold chunks spansOf
  rw [List.map_map]
  apply List.map_congr_left
  intro i _
  exact Prod.ext rfl (spanAt_cut c i l).symm

theorem chunks_getElem? (c : Nat) (l : List α) (i : Nat) : (chunks c l)[i]? =
    if i < count l.length c then some (i * c, (l.drop (i * c)).take c) else none := by
  unfold chunks
  rw [List.getElem?_map]
  split
  · rename_i h
    rw [List.getElem?_range h, Option.map_some]
  · rename_i h
    rw [List.getElem?_eq_none (by simpa using h), Option.map_none]

/-- The chunks, put together, are the list. -/
theorem chunks_flatten {c : Nat} (hc : 0 < c) (l : List α) :
    ((chunks c l).map (·.2)).flatten = l := by
  rw [chunks_eq, List.map_map]
  exact (chain_rebuild (chain_spansOf l.length hc) _ fun _ _ => rfl).symm

theorem chunks_flatMap {c : Nat} (hc : 0 < c) (f : α → β) (l : List α) :
    ((chunks c l).flatMap fun p => p.2.map f) = l.map f := by
  have h := congrArg (List.map f) (chunks_flatten hc l)
  rwa [List.map_flatten, List.map_map] at h

/-- No chunk is empty, and none is longer than the chunk size. -/
theorem chunks_mem {c : Nat} (hc : 0 < c) {l : List α} {p : Nat × List α} (hp : p ∈ chunks c l) :
    p.2 ≠ [] ∧ p.2.length ≤ c ∧ p.1 + p.2.length ≤ l.length := by
  unfold chunks at hp
  obtain ⟨i, hi, rfl⟩ := List.mem_map.mp hp
  have hlt : i * c < l.length := (lt_count hc).mp (List.mem_range.mp hi)
  rw [Ne, ← List.length_eq_zero_iff]
  simp only [List.length_take, List.length_drop]
  omega

theorem chunks_one_mem {l : List α} {p : Nat × List α} (hp : p ∈ chunks 1 l) :
    ∃ x ∈ l, p.2 = [x] := by
  obtain ⟨hne, hlen, -⟩ := chunks_mem Nat.one_pos hp
  obtain ⟨x, hx⟩ : ∃ x, p.2 = [x] := by
    rw [← List.length_eq_one_iff]
    have := List.length_pos_of_ne_nil hne
    omega
  refine ⟨x, ?_, hx⟩
  rw [← chunks_flatten Nat.one_pos l, List.mem_flatten]
  exact ⟨p.2, List.mem_map_of_mem hp, by simp [hx]⟩

/-- Chunks of one are the items. -/
theorem chunks_one (h : List α → β) (l : List α) :
    (chunks 1 l).map (fun p => h p.2) = l.map fun x => h [x] := by
  apply List.ext_getElem?
  intro i
  have hcount : count l.length 1 = l.length := by simp [count]
  rw [List.getElem?_map, List.getElem?_map, chunks_getElem?, hcount, Nat.mul_one]
  split
  · rename_i hi
    rw [List.getElem?_eq_getElem hi, List.drop_eq_getElem_cons hi]
    rfl
  · rename_i hi
    rw [List.getElem?_eq_none (by omega)]
    rfl

/-! ## Cutting a chain at one place -/

/-- The span, or its two parts when `k` lies strictly inside it. -/
def cutSpan (k : Nat) (s : Span) : List Span :=
  if s.start < k ∧ k < s.stop then [⟨s.start, k - s.start⟩, ⟨k, s.stop - k⟩] else [s]

def cutSpans (k : Nat) (ss : List Span) : List Span := ss.flatMap (cutSpan k)

theorem cutSpans_cons (k : Nat) (s : Span) (ss : List Span) :
    cutSpans k (s :: ss) = cutSpan k s ++ cutSpans k ss := rfl

theorem chain_cutSpans {a b : Nat} {ss : List Span} (h : Chain a ss b) (k : Nat) :
    Chain a (cutSpans k ss) b := by
  induction ss generalizing a with
  | nil => exact h
  | cons s ss ih =>
    obtain ⟨rfl, hpos, hrest⟩ := h
    rw [cutSpans_cons]
    refine chain_append ?_ (ih hrest)
    unfold cutSpan
    split
    · rename_i hk
      unfold Span.stop at hk
      refine ⟨rfl, by simp only; omega, by simp only [Span.stop]; omega, ?_, ?_⟩
      · simp only [Span.stop]
        omega
      · show Span.stop _ = _
        simp only [Span.stop]
        omega
    · exact ⟨rfl, hpos, rfl⟩

/-- No span of a chain that is cut at `k` lies on both sides of `k`. -/
theorem cutSpans_mem {k : Nat} {ss : List Span} {s : Span} (h : s ∈ cutSpans k ss) :
    s.stop ≤ k ∨ k ≤ s.start := by
  obtain ⟨t, -, ht⟩ := List.mem_flatMap.mp h
  unfold cutSpan at ht
  split at ht
  · simp only [List.mem_cons, List.not_mem_nil, or_false] at ht
    rcases ht with rfl | rfl
    · refine .inl ?_
      simp only [Span.stop]
      omega
    · exact .inr (Nat.le_refl _)
  · rename_i hk
    rw [List.mem_singleton] at ht
    subst ht
    omega

/-- Cutting makes no span longer. -/
theorem cutSpans_len_le {k c : Nat} {ss : List Span} (h : ∀ s ∈ ss, s.len ≤ c) {s : Span}
    (hs : s ∈ cutSpans k ss) : s.len ≤ c := by
  obtain ⟨t, ht, hst⟩ := List.mem_flatMap.mp hs
  have hlen := h t ht
  unfold cutSpan at hst
  split at hst
  · rename_i hk
    unfold Span.stop at hk hst
    simp only [List.mem_cons, List.not_mem_nil, or_false] at hst
    rcases hst with rfl | rfl
    · simp only
      omega
    · simp only
      omega
  · rw [List.mem_singleton] at hst
    rwa [hst]

/-- Cutting a chain makes one span more when `k` lies strictly inside one of its spans. -/
theorem cutSpans_length {k a b : Nat} {ss : List Span} (h : Chain a ss b) :
    (cutSpans k ss).length =
      ss.length + if ∃ s ∈ ss, s.start < k ∧ k < s.stop then 1 else 0 := by
  induction ss generalizing a with
  | nil => simp [cutSpans]
  | cons s ss ih =>
    obtain ⟨rfl, -, hrest⟩ := h
    rw [cutSpans_cons, List.length_append, ih hrest, List.length_cons]
    unfold cutSpan
    by_cases hs : s.start < k ∧ k < s.stop
    · -- the spans after this one start past `k`
      have hnone : ¬ ∃ t ∈ ss, t.start < k ∧ k < t.stop := by
        rintro ⟨t, ht, hlt, -⟩
        have := (chain_mem hrest ht).1
        omega
      rw [if_pos hs, if_neg hnone, if_pos ⟨s, List.mem_cons_self, hs⟩]
      simp only [List.length_cons, List.length_nil]
      omega
    · rw [if_neg hs]
      simp only [List.exists_mem_cons_iff, hs, false_or, List.length_cons, List.length_nil]
      omega

/-- The chunks of a list are cut at `k` when it lies inside the list and is no multiple
of the chunk size. -/
theorem spansOf_cut {n c k : Nat} (hc : 0 < c) :
    (∃ s ∈ spansOf n c, s.start < k ∧ k < s.stop) ↔ k < n ∧ ¬ c ∣ k := by
  constructor
  · rintro ⟨s, hs, hlt, hstop⟩
    obtain ⟨i, -, rfl⟩ := List.mem_map.mp hs
    simp only [spanAt, Span.stop] at hlt hstop
    refine ⟨by omega, ?_⟩
    rintro ⟨q, rfl⟩
    rw [Nat.mul_comm c q] at hlt hstop
    have hiq : i < q := Nat.lt_of_mul_lt_mul_right hlt
    have hqi : q < i + 1 := by
      apply Nat.lt_of_mul_lt_mul_right (a := c)
      rw [Nat.add_one_mul]
      omega
    omega
  · rintro ⟨hkn, hd⟩
    -- the chunk that holds `k`
    have hle := Nat.div_mul_le_self k c
    have hlt : k / c * c < k := Nat.lt_of_le_of_ne hle fun he => hd ⟨k / c, by
      rw [Nat.mul_comm]
      exact he.symm⟩
    have hnext : k < k / c * c + c := by
      rw [← Nat.add_one_mul, Nat.mul_comm]
      exact Nat.lt_mul_div_succ k hc
    refine ⟨spanAt n c (k / c), List.mem_map.mpr ⟨k / c, ?_, rfl⟩, hlt, ?_⟩
    · exact List.mem_range.mpr ((lt_count hc).mpr (by omega))
    · simp only [spanAt, Span.stop]
      omega

theorem chain_length_le {a b : Nat} {ss : List Span} (h : Chain a ss b) : ss.length ≤ b - a := by
  induction ss generalizing a with
  | nil => simp
  | cons s ss ih =>
    obtain ⟨rfl, hpos, hrest⟩ := h
    have := ih hrest
    have := chain_le hrest
    rw [List.length_cons]
    unfold Span.stop at *
    omega

/-- Whether place `k` lies strictly inside a list that starts at its index. -/
def straddles (k : Nat) (p : Nat × List α) : Bool :=
  decide (p.1 < k ∧ k < p.1 + p.2.length)

/-- Lists with their starts, the one that `k` lies strictly inside of in two. -/
def cutAt (k : Nat) (ps : List (Nat × List α)) : List (Nat × List α) :=
  ps.flatMap fun p =>
    if straddles k p then [(p.1, p.2.take (k - p.1)), (k, p.2.drop (k - p.1))] else [p]

theorem cutSpan_cut (k : Nat) (l : List α) {s : Span} (h : s.stop ≤ l.length) :
    cutAt k [(s.start, s.cut l)] = (cutSpan k s).map fun s => (s.start, s.cut l) := by
  have hlen := s.cut_length l h
  unfold Span.stop at h
  unfold cutAt cutSpan straddles Span.stop
  simp only [List.flatMap_cons, List.flatMap_nil, List.append_nil, hlen, decide_eq_true_eq]
  split
  · have hmin : min (k - s.start) s.len = k - s.start := by omega
    have hfrom : s.start + (k - s.start) = k := by omega
    have hrest : s.len - (k - s.start) = s.start + s.len - k := by omega
    simp only [Span.cut, List.map_cons, List.map_nil, List.take_take, List.drop_take,
      List.drop_drop, hmin, hfrom, hrest]
  · rfl

theorem cutAt_cut (k : Nat) (l : List α) {ss : List Span} (h : ∀ s ∈ ss, s.stop ≤ l.length) :
    cutAt k (ss.map fun s => (s.start, s.cut l)) =
      (cutSpans k ss).map fun s => (s.start, s.cut l) := by
  induction ss with
  | nil => rfl
  | cons s ss ih =>
    have hone := cutSpan_cut k l (h s (by simp))
    have hrest := ih fun t ht => h t (by simp [ht])
    unfold cutAt at *
    rw [List.map_cons, List.flatMap_cons, hrest, cutSpans_cons, List.map_append, ← hone]
    simp

theorem cutAt_chunks (k : Nat) {c : Nat} (hc : 0 < c) (l : List α) : cutAt k (chunks c l) =
    (cutSpans k (spansOf l.length c)).map fun s => (s.start, s.cut l) := by
  rw [chunks_eq]
  exact cutAt_cut k l fun s hs => (chain_mem (chain_spansOf l.length hc) hs).2.2

theorem cutAt_eq_self {k : Nat} {ps : List (Nat × List α)} (h : ∀ p ∈ ps, ¬ straddles k p) :
    cutAt k ps = ps := by
  unfold cutAt
  induction ps with
  | nil => rfl
  | cons p ps ih =>
    rw [List.flatMap_cons, ih fun q hq => h q (by simp [hq]), if_neg (h p (by simp))]
    rfl

/-- A place lies strictly inside at most one span of a chain. -/
theorem straddles_count (k : Nat) (l : List α) {a b : Nat} {ss : List Span} (h : Chain a ss b)
    (hb : b ≤ l.length) : (ss.map fun s => (s.start, s.cut l)).countP (straddles k) ≤ 1 := by
  induction ss generalizing a with
  | nil => simp
  | cons s ss ih =>
    obtain ⟨rfl, -, hrest⟩ := h
    rw [List.map_cons, List.countP_cons]
    split
    · rename_i hs
      have hnone : (ss.map fun s => (s.start, s.cut l)).countP (straddles k) = 0 := by
        rw [List.countP_eq_zero]
        intro p hp
        obtain ⟨t, ht, rfl⟩ := List.mem_map.mp hp
        have hst := (chain_mem hrest ht).1
        have hlen := s.cut_length l (Nat.le_trans (chain_le hrest) hb)
        simp only [straddles, decide_eq_true_eq, hlen] at hs ⊢
        unfold Span.stop at hst
        omega
      omega
    · exact ih hrest

/-- At a multiple of the chunk size, and past the end, no chunk is cut. -/
theorem chunks_not_straddled {k c : Nat} (hc : 0 < c) (l : List α)
    (hk : c ∣ k ∨ l.length ≤ k) {p : Nat × List α} (hp : p ∈ chunks c l) : ¬ straddles k p := by
  have hmem := chunks_mem hc hp
  obtain ⟨i, -, rfl⟩ := List.mem_map.mp hp
  simp only [straddles, decide_eq_true_eq, not_and, Nat.not_lt] at *
  intro hlt
  rcases hk with ⟨q, rfl⟩ | hk
  · have hiq : i < q := by
      rw [Nat.mul_comm] at hlt
      exact Nat.lt_of_mul_lt_mul_left hlt
    have : c * (i + 1) ≤ c * q := Nat.mul_le_mul_left c hiq
    rw [Nat.mul_add_one, Nat.mul_comm c i] at this
    omega
  · omega

end tiles
