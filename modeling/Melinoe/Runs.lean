-- Runs of a step relation. What one step keeps holds in every state that a
-- run reaches, and a measure that each step lowers makes every run end.
import Mathlib.Data.List.Basic
import Mathlib.Data.List.Induction
import Mathlib.Logic.Relation
import Mathlib.Order.WellFounded
import Mathlib.SetTheory.Ordinal.Rank

namespace runs

variable {σ : Type} {Step : σ → σ → Prop} {I Post : σ → Prop}

/-- The states that a run from `s` reaches. -/
abbrev Reaches (Step : σ → σ → Prop) : σ → σ → Prop := Relation.ReflTransGen Step

/-- No step leaves the state. -/
def Stopped (Step : σ → σ → Prop) (s : σ) : Prop := ∀ t, ¬ Step s t

/-- What the first state has and each step keeps, every state of the run has. -/
theorem inv_of_reaches {s t : σ} (h : Reaches Step s t) (h0 : I s)
    (hs : ∀ a b, I a → Step a b → I b) : I t := by
  induction h with
  | refl => exact h0
  | tail _ hab ih => exact hs _ _ ih hab

/-- Every run from the state is finite, and `Post` holds wherever a run stops. -/
inductive Ends (Step : σ → σ → Prop) (Post : σ → Prop) : σ → Prop
  | intro {s : σ} (next : ∀ t, Step s t → Ends Step Post t)
      (stop : Stopped Step s → Post s) : Ends Step Post s

/-- A measure that each step lowers makes every run end. -/
theorem ends_of_measure {β : Type*} [Preorder β] [WellFoundedLT β] (μ : σ → β)
    (keep : ∀ a b, I a → Step a b → I b) (lower : ∀ a b, I a → Step a b → μ b < μ a)
    (stop : ∀ a, I a → Stopped Step a → Post a) {s : σ} (h : I s) : Ends Step Post s := by
  induction hm : μ s using WellFoundedLT.induction generalizing s with
  | ind m ih =>
    subst hm
    exact .intro (fun t ht => ih (μ t) (lower s t h ht) (keep s t h ht) rfl) (stop s h)

theorem Ends.mono {Post' : σ → Prop} {s : σ} (h : Ends Step Post s)
    (hp : ∀ t, Reaches Step s t → Post t → Post' t) : Ends Step Post' s := by
  induction h with
  | @intro s _ stop ih =>
    refine .intro (fun t ht => ih t ht fun u hu => hp u (.head ht hu)) fun hst => ?_
    exact hp s .refl (stop hst)

/-- Some run from a state where every run ends goes to its end. -/
theorem Ends.exists_run {s : σ} (h : Ends Step Post s) : ∃ t, Reaches Step s t ∧ Post t := by
  induction h with
  | @intro s _ stop ih =>
    by_cases hnext : ∃ t, Step s t
    · obtain ⟨t, ht⟩ := hnext
      obtain ⟨u, hrun, hu⟩ := ih t ht
      exact ⟨u, .head ht hrun, hu⟩
    · exact ⟨s, .refl, stop fun t ht => hnext ⟨t, ht⟩⟩

/-- A run made of the steps of another system, which come to an end, and then of
steps from where every run ends, ends. -/
theorem Ends.inside {τ : Type} {Inner : τ → τ → Prop} {Done : τ → Prop} (wrap : τ → σ) {t : τ}
    (h : Ends Inner Done t) (lift : ∀ a b, Inner a b → Step (wrap a) (wrap b))
    (steps : ∀ a s, Reaches Inner t a → Step (wrap a) s →
      (∃ b, Inner a b ∧ s = wrap b) ∨ Ends Step Post s)
    (leaves : ∀ a, Reaches Inner t a → Done a → ∃ s, Step (wrap a) s) :
    Ends Step Post (wrap t) := by
  induction h with
  | @intro t _ stop ih =>
    refine .intro (fun s hs => ?_) fun hst => ?_
    · rcases steps t s .refl hs with ⟨b, hb, rfl⟩ | hends
      · exact ih b hb (fun a s hr => steps a s (.head hb hr)) fun a hr => leaves a (.head hb hr)
      · exact hends
    · have hstopped : Stopped Inner t := fun b hb => hst _ (lift t b hb)
      obtain ⟨s, hs⟩ := leaves t .refl (stop hstopped)
      exact absurd hs (hst s)

/-- In a family whose members all come to an end, a step of one of the first `n` brings
these `n` closer to theirs. -/
theorem acc_update {α : Nat → Type} {r : ∀ i, α i → α i → Prop} {p : ∀ i, α i}
    (h : ∀ i, Acc (r i) (p i)) {n j : Nat} (hj : j < n) {a : α j} (ha : r j a (p j)) :
    ∃ h' : ∀ i, Acc (r i) (Function.update p j a i),
      (fun i : Fin n => (h' i).rank) < fun i : Fin n => (h i).rank := by
  have h' : ∀ i, Acc (r i) (Function.update p j a i) := by
    intro i
    by_cases hi : i = j
    · subst hi
      rw [Function.update_self]
      exact (h i).inv ha
    · rw [Function.update_of_ne hi]
      exact h i
  have hlt : (h' j).rank < (h j).rank := by
    simp only [Function.update_self]
    exact (h j).rank_lt_of_rel ha
  refine ⟨h', Pi.lt_def.mpr ⟨fun i => ?_, ⟨j, hj⟩, hlt⟩⟩
  by_cases hi : (i : Nat) = j
  · obtain ⟨i, hin⟩ := i
    subst hi
    exact hlt.le
  · simp only [Function.update_of_ne hi]
    exact le_refl _

/-! ## Runs along a schedule -/

/-- What the first state has and each step of the schedule keeps, the state after
every prefix of the schedule has. -/
theorem inv_of_prefix {σ τ : Type*} {I : σ → Prop} {step : σ → τ → σ} {s : σ}
    {schedule pre : List τ} (hp : pre <+: schedule) (h0 : I s)
    (hs : ∀ pre t, pre ++ [t] <+: schedule → I (pre.foldl step s) → I (step (pre.foldl step s) t)) :
    I (pre.foldl step s) := by
  induction pre using List.reverseRecOn with
  | nil => exact h0
  | append_singleton pre t ih =>
    rw [List.foldl_concat]
    apply hs pre t hp
    exact ih ((List.prefix_append pre [t]).trans hp)

/-- A split of a history that has grown by one: at the new entry, or before it. -/
theorem split_concat {α : Type} {l before after : List α} {x y : α}
    (h : l ++ [x] = before ++ y :: after) :
    (before = l ∧ y = x ∧ after = []) ∨ ∃ rest, after = rest ++ [x] ∧ l = before ++ y :: rest := by
  induction after using List.reverseRecOn with
  | nil =>
    obtain ⟨hl, hx⟩ := List.concat_inj.mp (by simpa using h : l.concat x = before.concat y)
    exact .inl ⟨hl.symm, hx.symm, rfl⟩
  | append_singleton rest z _ =>
    have hend : l.concat x = (before ++ y :: rest).concat z := by simpa using h
    obtain ⟨hl, rfl⟩ := List.concat_inj.mp hend
    exact .inr ⟨rest, rfl, hl⟩

end runs
