-- What a program over re-entrancy gates means. An interpreter with neither flags
-- nor frames, which knows only inside which closures it is, gives what the
-- machine gives: the one flag of a cell tells all that there is to know.
import Melinoe.Reentrant

open runs

namespace melinoe.reentrant

variable {ι γ : Type} {T : ι → Type} {V P : Type} [DecidableEq ι] [DecidableEq γ]

/-! ## The meaning of a program -/

/-- How the code ends and what values it leaves. `inside c` says that it runs inside
a closure of `enter` on `c`, however deep. -/
def Code.eval : Code ι γ T V P → (CellId ι γ → Bool) → ((i : ι) → T i) →
    Except P V × ((i : ι) → T i)
  | ret value, _, values => (.ok value, values)
  | panic payload, _, values => (.error payload, values)
  | enter c f next, inside, values =>
    if inside c then (next (.error .mk)).eval inside values
    else match f.eval (Function.update inside c true) values with
      | (.ok value, values') => (next (.ok value)).eval inside values'
      | (.error payload, values') => (.error payload, values')
  | enter_unguarded i f next, inside, values =>
    if inside (.guarded i) then (next (.error .mk)).eval inside values
    else match f.eval inside values with
      | (.ok value, values') => (next (.ok value)).eval inside values'
      | (.error payload, values') => (.error payload, values')
  | is_active c next, inside, values => (next (inside c)).eval inside values
  | update i write next, inside, values =>
    (next (values i)).eval inside (Function.update values i (write (values i)))
  | catch_unwind body next, inside, values =>
    (next (body.eval inside values).1).eval inside (body.eval inside values).2

/-- The machine with nothing left to run at the top but the outcome. -/
def Control.of : Except P V → Control ι γ T V P
  | .ok value => .returned value
  | .error payload => .unwinding payload

/-- The flags say inside which closures the code runs, and the cells have the values. -/
structure Cells.Shows (cells : Cells ι γ T) (inside : CellId ι γ → Bool)
    (values : (i : ι) → T i) : Prop where
  flags : ∀ c, cells.is_active c = inside c
  values : ∀ i, (cells.guarded i).value = values i

/-! ## What the cells show after a step -/

namespace Cells

variable {cells : Cells ι γ T} {inside : CellId ι γ → Bool} {values : (i : ι) → T i}

theorem Shows.set_active (h : cells.Shows inside values) (c : CellId ι γ) (flag : Bool) :
    (cells.set_active c flag).Shows (Function.update inside c flag) values := by
  refine ⟨fun d => ?_, fun i => ?_⟩
  · rw [is_active_set_active, h.flags d, Function.update_apply]
  · rw [← h.values i]
    cases c with
    | gate j => rfl
    | guarded k =>
      simp only [Cells.set_active]
      by_cases hik : i = k
      · subst hik
        simp
      · simp [hik]

omit [DecidableEq γ] in
theorem Shows.set_value (h : cells.Shows inside values) (i : ι) (value : T i) :
    (cells.set_value i value).Shows inside (Function.update values i value) := by
  refine ⟨fun c => ?_, fun k => ?_⟩
  · rw [is_active_set_value, h.flags c]
  · simp only [Cells.set_value]
    by_cases hki : k = i
    · subst hki
      simp
    · simp [hki, h.values k]

/-- A `Reset` that is dropped restores the flags from before its `acquire`. -/
theorem Shows.reset (c : CellId ι γ) (h : cells.Shows (Function.update inside c true) values)
    (hfree : inside c = false) :
    (cells.set_active c (Reset.drop (cells.is_active c))).Shows inside values := by
  have hinside : Function.update (Function.update inside c true) c false = inside := by
    rw [Function.update_idem, ← hfree, Function.update_eq_self]
  have hshows := h.set_active c false
  rw [hinside] at hshows
  exact hshows

end Cells

/-! ## The machine gives the meaning -/

variable {st st' : State ι γ T V P} {Post : State ι γ T V P → Prop}

/-- Every run from the state ends, at `Post` or at a step that is not allowed. -/
abbrev EndsAt (Post : State ι γ T V P → Prop) : State ι γ T V P → Prop :=
  Ends State.Step fun st => Post st ∨ ¬ st.Allowed

theorem ends_next (hs : st.step = some st') (h : EndsAt Post st') : EndsAt Post st := by
  refine .intro (fun t ht => ?_) fun hstop => .inr fun ha => hstop st' ⟨ha, hs⟩
  have heq := hs.symm.trans ht.2
  cases heq
  exact h

/-- An `enter` on a free cell arms its flag and runs the closure over a frame of its own. -/
theorem step_enter {c : CellId ι γ} {f : Code ι γ T V P}
    {next : Except Reentered V → Code ι γ T V P} (hc : st.control = .run (.enter c f next))
    (hfree : st.cells.is_active c = false) : ∃ token minted, st.step =
      some ⟨.run f, .enter c token next :: st.stack, st.cells.set_active c true, minted⟩ := by
  unfold State.step
  simp only [hc, hfree, Reset.acquire, if_neg Bool.false_ne_true]
  cases c with
  | guarded i => exact ⟨none, st.minted, rfl⟩
  | gate j => exact ⟨some st.minted, st.minted + 1, rfl⟩

theorem step_enter_refused {c : CellId ι γ} {f : Code ι γ T V P}
    {next : Except Reentered V → Code ι γ T V P} (hc : st.control = .run (.enter c f next))
    (ha : st.cells.is_active c = true) :
    st.step = some { st with control := .run (next (.error .mk)) } := by
  cases c with
  | guarded i => exact step_refused (.guarded hc) ha
  | gate j => exact step_refused (.gate hc) ha

theorem step_of (outcome : Except P V) (cells : Cells ι γ T) (minted : Nat) :
    (State.mk (.of outcome) [] cells minted).step = none := by
  cases outcome <;> rfl

/-- Over any frames the machine comes to the outcome that the code means, over the
same frames and with the values that the code means. By induction on the code. -/
theorem code_runs (code : Code ι γ T V P) (inside : CellId ι γ → Bool) (values : (i : ι) → T i)
    (stack : List (Frame ι γ T V P)) (cells : Cells ι γ T) (minted : Nat)
    (h : cells.Shows inside values)
    (hdone : ∀ cells' minted', cells'.Shows inside (code.eval inside values).2 →
      EndsAt Post ⟨.of (code.eval inside values).1, stack, cells', minted'⟩) :
    EndsAt Post ⟨.run code, stack, cells, minted⟩ := by
  induction code generalizing inside values stack cells minted with
  | ret value => exact ends_next rfl (hdone cells minted h)
  | panic payload => exact ends_next rfl (hdone cells minted h)
  | enter c f next ihf ihnext =>
    have hflag := h.flags c
    cases hi : inside c with
    | true =>
      rw [hi] at hflag
      simp only [Code.eval, hi, if_true] at hdone
      exact ends_next (step_enter_refused rfl hflag) (ihnext _ _ _ _ _ _ h hdone)
    | false =>
      rw [hi] at hflag
      simp only [Code.eval, hi, if_neg Bool.false_ne_true] at hdone
      obtain ⟨token, minted', hstep⟩ : ∃ token minted',
          (State.mk (.run (.enter c f next)) stack cells minted).step = some
            ⟨.run f, .enter c token next :: stack, cells.set_active c true, minted'⟩ :=
        step_enter rfl hflag
      refine ends_next hstep (ihf _ _ _ _ _ (h.set_active c true) fun cells' minted'' h' => ?_)
      cases hf : f.eval (Function.update inside c true) values with
      | mk outcome values' =>
        rw [hf] at h'
        cases outcome with
        | ok value =>
          rw [hf] at hdone
          exact ends_next rfl (ihnext _ _ _ _ _ _ (h'.reset c hi) hdone)
        | error payload =>
          rw [hf] at hdone
          exact ends_next rfl (hdone _ _ (h'.reset c hi))
  | enter_unguarded i f next ihf ihnext =>
    have hflag : (cells.guarded i).active = inside (.guarded i) := h.flags (.guarded i)
    cases hi : inside (.guarded i) with
    | true =>
      rw [hi] at hflag
      simp only [Code.eval, hi, if_true] at hdone
      exact ends_next (step_refused (.unguarded rfl) hflag) (ihnext _ _ _ _ _ _ h hdone)
    | false =>
      rw [hi] at hflag
      simp only [Code.eval, hi, if_neg Bool.false_ne_true] at hdone
      have hstep : (State.mk (.run (.enter_unguarded i f next)) stack cells minted).step =
          some ⟨.run f, .enter_unguarded i next :: stack, cells, minted⟩ := by
        unfold State.step
        simp only [hflag, if_neg Bool.false_ne_true]
      refine ends_next hstep (ihf _ _ _ _ _ h fun cells' minted' h' => ?_)
      cases hf : f.eval inside values with
      | mk outcome values' =>
        rw [hf] at h' hdone
        cases outcome with
        | ok value => exact ends_next rfl (ihnext _ _ _ _ _ _ h' hdone)
        | error payload => exact ends_next rfl (hdone _ _ h')
  | is_active c next ih =>
    refine ends_next rfl (ih _ _ _ _ _ _ h ?_)
    rw [h.flags c]
    exact hdone
  | update i write next ih =>
    refine ends_next rfl (ih _ _ _ _ _ _ (h.set_value i _) ?_)
    rw [h.values i]
    exact hdone
  | catch_unwind body next ihbody ihnext =>
    refine ends_next rfl (ihbody _ _ _ _ _ h fun cells' minted' h' => ?_)
    cases hb : body.eval inside values with
    | mk outcome values' =>
      simp only [Code.eval, hb] at h' hdone
      cases outcome with
      | ok value => exact ends_next rfl (ihnext _ _ _ _ _ _ h' hdone)
      | error payload => exact ends_next rfl (ihnext _ _ _ _ _ _ h' hdone)

/-- The run is over: every frame is gone, the outcome and the values are those that
the code means, and every gate is open. -/
structure State.Means (code : Code ι γ T V P) (values : (i : ι) → T i)
    (st : State ι γ T V P) : Prop where
  stack : st.stack = []
  control : st.control = .of (code.eval (fun _ => false) values).1
  values : ∀ i, (st.cells.guarded i).value = (code.eval (fun _ => false) values).2 i
  open_gates : ∀ c, st.cells.is_active c = false

/-- Every program runs to its end, unless it breaks the contract of
`enter_unguarded` on its way, and ends as its tree of calls means: a call is
refused exactly inside a closure of `enter` on its cell, whatever was caught or
refused before. -/
theorem a_program_ends_as_its_call_tree_means (code : Code ι γ T V P) (values : (i : ι) → T i) :
    Ends State.Step (fun st => st.Means code values ∨ ¬ st.Allowed)
      (State.init code values) := by
  have hshows : (Cells.new values : Cells ι γ T).Shows (fun _ => false) values :=
    ⟨fun c => by cases c <;> rfl, fun _ => rfl⟩
  refine code_runs code _ values [] _ 0 hshows fun cells minted h => ?_
  refine .intro (fun t ht => ?_) fun _ => .inl ⟨rfl, rfl, h.values, h.flags⟩
  have hnone := ht.2
  rw [step_of] at hnone
  cases hnone

/-- The inner closure is refused and adds nothing; the panic at that is caught. -/
example : (Code.eval (.catch_unwind (.enter (.guarded ()) (.update () (· + 1) fun _ =>
      .enter (.guarded ()) (.update () (· + 10) .ret) fun answer =>
        if answer.isOk then .ret 0 else .panic "refused") fun _ => .ret 1) fun _ => .ret 2 :
    Code Unit Unit (fun _ => Nat) Nat String) (fun _ => false) fun _ => 7).2 () = 8 := by
  decide

end melinoe.reentrant
