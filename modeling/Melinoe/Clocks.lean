-- Accesses of threads in the order they are made, and what each thread has seen
-- of them: its own, and those of every thread that has synchronised with it.
-- An access happens before another whose thread had seen it.
import Mathlib.Data.Finset.Insert
import Mathlib.Data.Finset.Lattice.Basic
import Mathlib.Logic.Function.Basic
import Melinoe.Runs

open runs

namespace clocks

variable {α : Type}

/-- An access of `thread`, with the positions of those that its thread had seen. -/
structure Entry (α : Type) where
  thread : Nat
  access : α
  before : Finset Nat

structure Clocks (α : Type) where
  trace : List (Entry α)
  knows : Nat → Finset Nat

namespace Clocks

def init : Clocks α := ⟨[], fun _ => ∅⟩

/-- `u` synchronises with `t`: what `t` has seen, `u` has seen. -/
def join (c : Clocks α) (t u : Nat) : Clocks α :=
  { c with knows := Function.update c.knows u (c.knows u ∪ c.knows t) }

/-- `t` makes an access. -/
def record (c : Clocks α) (t : Nat) (access : α) : Clocks α where
  trace := c.trace ++ [⟨t, access, c.knows t⟩]
  knows := Function.update c.knows t (insert c.trace.length (c.knows t))

inductive Step : Clocks α → Clocks α → Prop
  | join {c : Clocks α} (t u : Nat) : Step c (c.join t u)
  | record {c : Clocks α} (t : Nat) (access : α) : Step c (c.record t access)

/-- The access at `i` happens before the access at `j`. -/
def HappensBefore (c : Clocks α) (i j : Nat) : Prop := ∃ e, c.trace[j]? = some e ∧ i ∈ e.before

/-- `t` has seen every access that `Q` is about. -/
def Knows (c : Clocks α) (t : Nat) (Q : α → Prop) : Prop :=
  ∀ i e, c.trace[i]? = some e → Q e.access → i ∈ c.knows t

/-! ## What a join and a record do -/

@[simp] theorem join_trace (c : Clocks α) (t u : Nat) : (c.join t u).trace = c.trace := rfl

theorem join_knows (c : Clocks α) (t u : Nat) :
    (c.join t u).knows = Function.update c.knows u (c.knows u ∪ c.knows t) := rfl

theorem record_knows (c : Clocks α) (t : Nat) (access : α) :
    (c.record t access).knows = Function.update c.knows t (insert c.trace.length (c.knows t)) := rfl

@[simp] theorem record_trace (c : Clocks α) (t : Nat) (access : α) :
    (c.record t access).trace = c.trace ++ [⟨t, access, c.knows t⟩] := rfl

theorem knows_join (c : Clocks α) (t u v : Nat) : c.knows v ⊆ (c.join t u).knows v := by
  rw [join_knows]
  by_cases h : v = u
  · subst h
    rw [Function.update_self]
    exact Finset.subset_union_left
  · rw [Function.update_of_ne h]

theorem knows_joined (c : Clocks α) (t u : Nat) : c.knows t ⊆ (c.join t u).knows u := by
  rw [join_knows]
  rw [Function.update_self]
  exact Finset.subset_union_right

/-- What the join adds to the knowledge of a thread, another thread had. -/
theorem mem_knows_join {c : Clocks α} {t u v i : Nat} (h : i ∈ (c.join t u).knows v) :
    i ∈ c.knows v ∨ i ∈ c.knows t ∧ v = u := by
  rw [join_knows] at h
  by_cases hv : v = u
  · subst hv
    rw [Function.update_self, Finset.mem_union] at h
    exact h.imp_right fun h => ⟨h, rfl⟩
  · rw [Function.update_of_ne hv] at h
    exact .inl h

theorem knows_record (c : Clocks α) (t : Nat) (access : α) (v : Nat) :
    c.knows v ⊆ (c.record t access).knows v := by
  rw [record_knows]
  by_cases h : v = t
  · subst h
    rw [Function.update_self]
    exact Finset.subset_insert _ _
  · rw [Function.update_of_ne h]

theorem knows_recorded (c : Clocks α) (t : Nat) (access : α) :
    c.trace.length ∈ (c.record t access).knows t := by
  rw [record_knows]
  rw [Function.update_self]
  exact Finset.mem_insert_self _ _

theorem mem_knows_record {c : Clocks α} {t v i : Nat} {access : α}
    (h : i ∈ (c.record t access).knows v) : i ∈ c.knows v ∨ i = c.trace.length ∧ v = t := by
  rw [record_knows] at h
  by_cases hv : v = t
  · subst hv
    rw [Function.update_self, Finset.mem_insert] at h
    exact h.elim (fun h => .inr ⟨h, rfl⟩) .inl
  · rw [Function.update_of_ne hv] at h
    exact .inl h

/-- A position of the trace that has grown: an old one, or the new last one. -/
theorem trace_record {c : Clocks α} {t i : Nat} {access : α} {e : Entry α}
    (h : (c.record t access).trace[i]? = some e) :
    c.trace[i]? = some e ∨ i = c.trace.length ∧ e = ⟨t, access, c.knows t⟩ := by
  rw [record_trace] at h
  by_cases hi : i < c.trace.length
  · rw [List.getElem?_append_left hi] at h
    exact .inl h
  · rw [List.getElem?_append_right (Nat.le_of_not_lt hi), List.getElem?_singleton] at h
    split at h
    · next h0 => exact .inr ⟨by omega, (Option.some.inj h).symm⟩
    · cases h

theorem trace_record_of {c : Clocks α} {t i : Nat} {access : α} {e : Entry α}
    (h : c.trace[i]? = some e) : (c.record t access).trace[i]? = some e := by
  rw [record_trace]
  rw [List.getElem?_append_left (List.getElem?_eq_some_iff.mp h).1]
  exact h

/-! ## Knowledge of a kind of accesses -/

theorem Knows.mono {c d : Clocks α} {t u : Nat} {Q Q' : α → Prop} (h : c.Knows t Q)
    (htrace : d.trace = c.trace) (hk : c.knows t ⊆ d.knows u) (hq : ∀ x, Q' x → Q x) :
    d.Knows u Q' := by
  intro i e he hx
  rw [htrace] at he
  exact hk (h i e he (hq _ hx))

/-- A new access that `Q` is not about asks for nothing. -/
theorem Knows.record {c : Clocks α} {t u : Nat} {access : α} {Q : α → Prop} (h : c.Knows u Q)
    (hq : Q access → u = t) : (c.record t access).Knows u Q := by
  intro i e he hx
  rcases trace_record he with he | ⟨rfl, rfl⟩
  · exact knows_record c t access u (h i e he hx)
  · rw [hq hx]
    exact knows_recorded c t access

/-! ## Happens-before is an order along the trace -/

/-- Knowledge is of the past, and closed under what happened before it. -/
structure Sound (c : Clocks α) : Prop where
  closed : ∀ t, ∀ j ∈ c.knows t, ∃ e : Entry α, c.trace[j]? = some e ∧ e.before ⊆ c.knows t
  past : ∀ k (e : Entry α), c.trace[k]? = some e → ∀ j ∈ e.before,
    j < k ∧ ∃ f : Entry α, c.trace[j]? = some f ∧ f.before ⊆ e.before
  program : ∀ i (e : Entry α), c.trace[i]? = some e → i ∈ c.knows e.thread
  ordered : ∀ i j (e f : Entry α), c.trace[i]? = some e → c.trace[j]? = some f → i < j →
    e.thread = f.thread → i ∈ f.before

theorem sound_init : Sound (init : Clocks α) where
  closed t j hj := by cases hj
  past k e he := by cases he
  program i e he := by cases he
  ordered i j e f he := by cases he

theorem sound_join {c : Clocks α} (h : Sound c) (t u : Nat) : Sound (c.join t u) where
  closed v j hj := by
    rcases mem_knows_join hj with hold | ⟨hseen, rfl⟩
    · obtain ⟨e, he, hsub⟩ := h.closed v j hold
      exact ⟨e, he, hsub.trans (knows_join c t u v)⟩
    · obtain ⟨e, he, hsub⟩ := h.closed t j hseen
      exact ⟨e, he, hsub.trans (knows_joined c t v)⟩
  past := h.past
  program i e he := knows_join c t u e.thread (h.program i e he)
  ordered := h.ordered

theorem sound_record {c : Clocks α} (h : Sound c) (t : Nat) (access : α) :
    Sound (c.record t access) where
  closed v j hj := by
    rcases mem_knows_record hj with hj | ⟨rfl, rfl⟩
    · obtain ⟨e, he, hsub⟩ := h.closed v j hj
      exact ⟨e, trace_record_of he, hsub.trans (knows_record c t access v)⟩
    · refine ⟨⟨v, access, c.knows v⟩, ?_, knows_record c v access v⟩
      simp
  past k e he j hj := by
    rcases trace_record he with he | ⟨rfl, rfl⟩
    · obtain ⟨hlt, f, hf, hsub⟩ := h.past k e he j hj
      exact ⟨hlt, f, trace_record_of hf, hsub⟩
    · obtain ⟨f, hf, hsub⟩ := h.closed t j hj
      exact ⟨(List.getElem?_eq_some_iff.mp hf).1, f, trace_record_of hf, hsub⟩
  program i e he := by
    rcases trace_record he with he | ⟨rfl, rfl⟩
    · exact knows_record c t access e.thread (h.program i e he)
    · exact knows_recorded c t access
  ordered i j e f he hf hij ht := by
    rcases trace_record he with he | ⟨rfl, rfl⟩
    · rcases trace_record hf with hf | ⟨rfl, rfl⟩
      · exact h.ordered i j e f he hf hij ht
      · -- the new access of a thread, which has seen what it did before
        have hprogram := h.program i e he
        rw [ht] at hprogram
        exact hprogram
    · have hlt := (List.getElem?_eq_some_iff.mp hf).1
      simp only [record_trace, List.length_append, List.length_singleton] at hlt
      omega

theorem sound_step {c d : Clocks α} (h : Sound c) (hs : Step c d) : Sound d := by
  cases hs with
  | join t u => exact sound_join h t u
  | record t access => exact sound_record h t access

theorem happensBefore_lt {c : Clocks α} (h : Sound c) {i j : Nat} (hij : c.HappensBefore i j) :
    i < j := by
  obtain ⟨f, hf, hi⟩ := hij
  exact (h.past j f hf i hi).1

/-! ## Races -/

/-- Of two accesses that `R` says conflict, the earlier one happens before the later. -/
def Raceless (R : α → α → Prop) (c : Clocks α) : Prop :=
  ∀ i j (e f : Entry α), c.trace[i]? = some e → c.trace[j]? = some f → i < j →
    R e.access f.access → i ∈ f.before

theorem raceless_init (R : α → α → Prop) : Raceless R (init : Clocks α) := by
  intro i j e f he
  cases he

theorem raceless_congr {R : α → α → Prop} {c d : Clocks α} (h : Raceless R c)
    (htrace : d.trace = c.trace) : Raceless R d := by
  intro i j e f he hf
  rw [htrace] at he hf
  exact h i j e f he hf

/-- The thread of the new access has seen all that conflicts with it. -/
theorem raceless_record {R : α → α → Prop} {c : Clocks α} {t : Nat} {access : α}
    (h : Raceless R c) (hk : c.Knows t fun x => R x access) : Raceless R (c.record t access) := by
  intro i j e f he hf hij hR
  rcases trace_record hf with hf | ⟨rfl, rfl⟩
  · rcases trace_record he with he | ⟨rfl, rfl⟩
    · exact h i j e f he hf hij hR
    · have hlt := (List.getElem?_eq_some_iff.mp hf).1
      omega
  · rcases trace_record he with he | ⟨rfl, rfl⟩
    · exact hk i e he hR
    · omega

theorem Raceless.ordered {R : α → α → Prop} {c : Clocks α} (h : Raceless R c)
    (hsymm : ∀ x y, R x y → R y x) {i j : Nat} {e f : Entry α} (he : c.trace[i]? = some e)
    (hf : c.trace[j]? = some f) (hij : i ≠ j) (hR : R e.access f.access) :
    c.HappensBefore i j ∨ c.HappensBefore j i := by
  rcases Nat.lt_or_gt_of_ne hij with hlt | hgt
  · exact .inl ⟨f, hf, h i j e f he hf hlt hR⟩
  · exact .inr ⟨e, he, h j i f e hf he hgt (hsymm _ _ hR)⟩

/-! ## Many joins, and many accesses of one thread -/

/-- `u` synchronises with every thread of the list. -/
def joins (c : Clocks α) (threads : List Nat) (u : Nat) : Clocks α :=
  threads.foldl (fun c t => c.join t u) c

@[simp] theorem joins_trace (c : Clocks α) (threads : List Nat) (u : Nat) :
    (c.joins threads u).trace = c.trace := by
  unfold joins
  induction threads generalizing c with
  | nil => rfl
  | cons t threads ih => rw [List.foldl_cons, ih, join_trace]

theorem knows_joins (c : Clocks α) (threads : List Nat) (u v : Nat) :
    c.knows v ⊆ (c.joins threads u).knows v := by
  unfold joins
  induction threads generalizing c with
  | nil => exact Finset.Subset.refl _
  | cons t threads ih => exact (knows_join c t u v).trans (ih (c.join t u))

theorem knows_all_joined (c : Clocks α) {threads : List Nat} (u : Nat) {t : Nat}
    (ht : t ∈ threads) : c.knows t ⊆ (c.joins threads u).knows u := by
  unfold joins
  induction threads generalizing c with
  | nil => cases ht
  | cons s threads ih =>
    rcases List.mem_cons.mp ht with rfl | ht
    · exact (knows_joined c t u).trans (knows_joins (c.join t u) threads u u)
    · exact (knows_join c s u t).trans (ih (c.join s u) ht)

theorem sound_joins {c : Clocks α} (h : Sound c) (threads : List Nat) (u : Nat) :
    Sound (c.joins threads u) := by
  unfold joins
  induction threads generalizing c with
  | nil => exact h
  | cons t threads ih => exact ih (sound_join h t u)

/-- `t` makes the accesses of the list, first to last. -/
def records (c : Clocks α) (t : Nat) (accesses : List α) : Clocks α :=
  accesses.foldl (fun c access => c.record t access) c

/-- A thread that has seen everything races with nobody, and has then seen its own. -/
theorem records_of_knows {R : α → α → Prop} {c : Clocks α} {t : Nat} (hs : Sound c)
    (hr : Raceless R c) (hk : c.Knows t fun _ => True) (accesses : List α) :
    Sound (c.records t accesses) ∧ Raceless R (c.records t accesses) ∧
      (c.records t accesses).Knows t fun _ => True := by
  unfold records
  induction accesses generalizing c with
  | nil => exact ⟨hs, hr, hk⟩
  | cons access accesses ih =>
    apply ih (sound_record hs t access)
    · exact raceless_record hr fun i e he _ => hk i e he trivial
    · exact hk.record fun _ => rfl

/-- What the accesses add to the trace is by `t`. -/
theorem trace_records {c : Clocks α} {t i : Nat} {accesses : List α} {e : Entry α}
    (h : (c.records t accesses).trace[i]? = some e) : c.trace[i]? = some e ∨ e.thread = t := by
  unfold records at h
  induction accesses generalizing c with
  | nil => exact .inl h
  | cons access accesses ih =>
    rcases ih h with h | h
    · rcases trace_record h with h | ⟨-, rfl⟩
      · exact .inl h
      · exact .inr rfl
    · exact .inr h

end Clocks

end clocks
