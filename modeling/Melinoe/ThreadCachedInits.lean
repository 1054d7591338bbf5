-- Programs of `thread_cached!` in which no init closure calls `get_or_init`. Their law
-- asks nothing of a run, and no init closure completes twice without a `clear` in
-- between: what the frames of a thread say of the code that it still has to run.
import Melinoe.ThreadCached

open runs

namespace melinoe.thread_cached

variable {θ T P : Type}

/-! ## Programs without nested inits -/

/-- No init closure of the code calls `get_or_init`, nor does the code itself where it
is inside one. -/
def Code.Flat : {R : Type} → Bool → Code T P R → Prop
  | _, _, .ret _ => True
  | _, _, .panic _ => True
  | _, inside, .get next => ∀ answer, (next answer).Flat inside
  | _, inside, .set _ next => next.Flat inside
  | _, inside, .clear next => next.Flat inside
  | _, inside, .get_or_init init next =>
    inside = false ∧ init.Flat true ∧ ∀ value, (next value).Flat false
  | _, inside, .catch_unwind body next => body.Flat inside ∧ ∀ result, (next result).Flat inside

/-- Some call in progress is an init closure. -/
def Stack.inside : {R : Type} → Stack T P R → Bool
  | _, .nil => false
  | _, .get_or_init _ _ => true
  | _, .catch_unwind _ below => below.inside

/-- At most one call in progress is an init closure, and what every call goes on with
is flat where it will run. -/
def Stack.Flat : {R : Type} → Stack T P R → Prop
  | _, .nil => True
  | _, .get_or_init next below =>
    below.inside = false ∧ (∀ value, (next value).Flat false) ∧ below.Flat
  | _, .catch_unwind next below => (∀ result, (next result).Flat below.inside) ∧ below.Flat

def Control.Flat {R : Type} (inside : Bool) : Control T P R → Prop
  | .run code => code.Flat inside
  | _ => True

/-- The thread runs an init closure. -/
def Thread.inside (thread : Thread T P) : Bool := thread.stack.inside

structure Thread.Flat (thread : Thread T P) : Prop where
  control : thread.control.Flat thread.inside
  stack : thread.stack.Flat

/-! ## What one step does to the frames -/

section thread

variable {thread : Thread T P} {VALUE : Option T} {moved : Moved T P}

/-- A step keeps the frames flat. It is inside an init closure after one step more
only if that started the closure, and there no `get_or_init` returns. -/
theorem flat_step (h : thread.Flat) (hs : thread.step VALUE = some moved) :
    moved.thread.Flat ∧ (moved.thread.inside = true →
      moved.event.returns = none ∧ (moved.event = .miss ∨ thread.inside = true)) := by
  obtain ⟨hcontrol, hstack⟩ := h
  unfold Thread.step at hs
  split at hs
  · cases hs
    exact ⟨⟨trivial, hstack⟩, fun hin => ⟨rfl, .inr hin⟩⟩
  · cases hs
    exact ⟨⟨trivial, hstack⟩, fun hin => ⟨rfl, .inr hin⟩⟩
  · cases hs
    exact ⟨⟨hcontrol _, hstack⟩, fun hin => ⟨rfl, .inr hin⟩⟩
  · cases hs
    exact ⟨⟨hcontrol, hstack⟩, fun hin => ⟨rfl, .inr hin⟩⟩
  · cases hs
    exact ⟨⟨hcontrol, hstack⟩, fun hin => ⟨rfl, .inr hin⟩⟩
  · -- `get_or_init` is not called inside an init closure
    obtain ⟨hout, hinit, hnext⟩ := hcontrol
    split at hs <;> cases hs
    · refine ⟨⟨?_, hstack⟩, fun hin => ?_⟩
      · simp only [Thread.inside, Control.Flat] at hout ⊢
        rw [hout]
        exact hnext _
      · have : true = false := hin.symm.trans hout
        cases this
    · exact ⟨⟨hinit, hout, hnext, hstack⟩, fun _ => ⟨rfl, .inl rfl⟩⟩
  · cases hs
    obtain ⟨hbody, hnext⟩ := hcontrol
    exact ⟨⟨hbody, hnext, hstack⟩, fun hin => ⟨rfl, .inr hin⟩⟩
  · cases hs
  · -- the init closure returns, and its caller was in none
    cases hs
    obtain ⟨hout, hnext, hbelow⟩ := hstack
    refine ⟨⟨?_, hbelow⟩, fun hin => ?_⟩
    · simp only [Thread.inside, Control.Flat]
      rw [hout]
      exact hnext _
    · have : true = false := hin.symm.trans hout
      cases this
  · cases hs
    exact ⟨⟨hstack.1 _, hstack.2⟩, fun hin => ⟨rfl, .inr hin⟩⟩
  · cases hs
  · cases hs
    obtain ⟨hout, -, hbelow⟩ := hstack
    refine ⟨⟨trivial, hbelow⟩, fun hin => ?_⟩
    have : true = false := hin.symm.trans hout
    cases this
  · cases hs
    exact ⟨⟨hstack.1 _, hstack.2⟩, fun hin => ⟨rfl, .inr hin⟩⟩

theorem inside_of_fills {w : T} (h : thread.Fills w) : thread.inside = true := by
  unfold Thread.Fills at h
  split at h
  · rfl
  · exact h.elim

end thread

/-! ## What a thread has completed -/

/-- Whether an init closure has completed, after the event. -/
def Event.complete (completed : Bool) : Event T → Bool
  | .filled _ => true
  | .clear => false
  | _ => completed

/-- An init closure completed on the thread, which called no `clear` since. -/
def completed (trace : List (θ × Event T)) [DecidableEq θ] (t : θ) : Bool :=
  (log trace t).foldl Event.complete false

/-- No init closure completes where one has completed. -/
def CompletesOnce (trace : List (θ × Event T)) [DecidableEq θ] : Prop :=
  ∀ before t w after, trace = before ++ (t, .filled w) :: after → completed before t = false

section state

variable [DecidableEq θ] {trace : List (θ × Event T)} {st : State θ T P} {t u : θ}

theorem completed_concat (trace : List (θ × Event T)) (t u : θ) (event : Event T) :
    completed (trace ++ [(t, event)]) u =
      if t = u then event.complete (completed trace u) else completed trace u := by
  unfold completed
  rw [log_concat]
  split
  · rw [List.foldl_concat]
  · rfl

theorem completesOnce_concat {event : Event T} (h : CompletesOnce trace)
    (hevent : ∀ w, event = .filled w → completed trace t = false) :
    CompletesOnce (trace ++ [(t, event)]) := by
  intro before u w after htrace
  rcases split_concat htrace with ⟨rfl, heq, -⟩ | ⟨rest, -, hsplit⟩
  · cases heq
    exact hevent w rfl
  · exact h before u w rest hsplit

/-! ## What every state of a flat program has -/

structure FlatInv (st : State θ T P) : Prop where
  flat : ∀ t, (st.threads t).Flat
  stable : st.Stable
  obeyed : Obeyed st.trace
  /-- An init closure runs while nothing is handed out. -/
  nothing : ∀ t, (st.threads t).inside = true → ∀ v, ¬ HandedOut st.trace t v
  cached : ∀ t, completed st.trace t = true →
    (st.VALUE t).isSome = true ∧ (st.threads t).inside = false
  once : CompletesOnce st.trace

theorem flatInv_start {codes : θ → Code T P Unit} (h : ∀ t, (codes t).Flat false) :
    FlatInv (State.start codes) where
  flat t := ⟨h t, trivial⟩
  stable := stable_start
  obeyed := obeyed_start
  nothing t hin := by cases hin
  cached t hdone := by cases hdone
  once before t w after htrace := absurd htrace (by simp [State.start])

/-- The inits of a flat program have nothing to disagree with. -/
theorem FlatInv.agrees (h : FlatInv st) (t : θ) : st.InitAgrees t := by
  intro w hw v _ hv
  exact absurd hv (h.nothing t (inside_of_fills hw) v)

/-- No init closure is running where one has completed. -/
theorem FlatInv.not_completed (h : FlatInv st) (hin : (st.threads t).inside = true) :
    completed st.trace t = false := by
  rw [← Bool.not_eq_true]
  intro hdone
  have hout := (h.cached t hdone).2
  rw [hin] at hout
  cases hout

/-- What the step of a thread leaves of its completed init. -/
theorem FlatInv.cached_step {moved : Moved T P} (h : FlatInv st)
    (hmoved : (st.threads t).step (st.VALUE t) = some moved)
    (hdone : moved.event.complete (completed st.trace t) = true) :
    moved.VALUE.isSome = true ∧ moved.thread.inside = false := by
  obtain ⟨hreads, hwrite, -⟩ := step_event hmoved
  have hin := (flat_step (h.flat t) hmoved).2
  rw [hwrite]
  cases hevent : moved.event with
  | filled w =>
    refine ⟨rfl, Bool.eq_false_of_not_eq_true fun hin' => ?_⟩
    have hreturns := (hin hin').1
    rw [hevent] at hreturns
    cases hreturns
  | clear =>
    rw [hevent] at hdone
    cases hdone
  | miss =>
    -- the cache was empty, so no init had completed
    rw [hevent] at hdone hreads
    have hsome := (h.cached t hdone).1
    rw [show st.VALUE t = none from hreads] at hsome
    cases hsome
  | _ =>
    rw [hevent] at hdone hin
    obtain ⟨hsome, hout⟩ := h.cached t hdone
    refine ⟨by first | exact hsome | rfl, Bool.eq_false_of_not_eq_true fun hin' => ?_⟩
    rcases (hin hin').2 with hmiss | hwas
    · cases hmiss
    · rw [hout] at hwas
      cases hwas

theorem FlatInv.nothing_step {moved : Moved T P} (h : FlatInv st)
    (hmoved : (st.threads t).step (st.VALUE t) = some moved)
    (hin : moved.thread.inside = true) (v : T) :
    ¬ HandedOut (st.trace ++ [(t, moved.event)]) t v := by
  obtain ⟨hreturns, hwas⟩ := (flat_step (h.flat t) hmoved).2 hin
  rw [handedOut_concat]
  rintro (⟨-, hv⟩ | ⟨hv, -⟩)
  · rw [hreturns] at hv
    cases hv
  · rcases hwas with hmiss | hwas
    · -- what is handed out is in the cache, and this one was empty
      have hreads := (step_event hmoved).1
      rw [hmiss] at hreads
      have hcached : st.VALUE t = some v := h.stable t v hv
      rw [show st.VALUE t = none from hreads] at hcached
      cases hcached
    · exact h.nothing t hwas v hv

theorem flatInv_step (h : FlatInv st) (t : θ) : FlatInv (st.step t) := by
  cases hmoved : (st.threads t).step (st.VALUE t) with
  | none =>
    rw [step_ended hmoved]
    exact h
  | some moved =>
    have hstable := stable_step h.stable (h.agrees t)
    have hobeyed := obeyed_step (t := t) h.stable h.obeyed
    rw [step_moved hmoved] at hstable hobeyed ⊢
    refine ⟨fun u => ?_, hstable, hobeyed, fun u hin v => ?_, fun u hdone => ?_, ?_⟩
    · by_cases hut : u = t
      · subst hut
        simp only [Function.update_self]
        exact (flat_step (h.flat u) hmoved).1
      · simp only [Function.update_of_ne hut]
        exact h.flat u
    · by_cases hut : u = t
      · subst hut
        simp only [Function.update_self] at hin
        exact h.nothing_step hmoved hin v
      · simp only [Function.update_of_ne hut] at hin
        rw [handedOut_concat]
        rintro (⟨heq, -⟩ | ⟨hv, -⟩)
        · exact hut heq.symm
        · exact h.nothing u hin v hv
    · simp only [completed_concat] at hdone
      by_cases hut : u = t
      · subst hut
        rw [if_pos rfl] at hdone
        simp only [Function.update_self]
        exact h.cached_step hmoved hdone
      · rw [if_neg (Ne.symm hut)] at hdone
        simp only [Function.update_of_ne hut]
        exact h.cached u hdone
    · apply completesOnce_concat h.once
      intro w hw
      exact h.not_completed (inside_of_fills ((step_event hmoved).2.2 w hw))

/-! ## The law of a flat program -/

/-- Where no init closure calls `get_or_init`, whatever the threads do and in every
order, with panics, catches, `set` and `clear` anywhere: a value that a `get_or_init`
returned stays and every access finds it until the thread overwrites it, and of two
init closures that complete on a thread there is a `clear` in between. -/
theorem a_program_without_nested_inits_computes_once (codes : θ → Code T P Unit)
    (h : ∀ t, (codes t).Flat false) (schedule : List θ) :
    ((State.start codes).run schedule).Stable ∧ Obeyed ((State.start codes).run schedule).trace ∧
      CompletesOnce ((State.start codes).run schedule).trace := by
  have hinv : FlatInv ((State.start codes).run schedule) :=
    inv_of_prefix (I := FlatInv) (List.prefix_refl schedule) (flatInv_start h)
      fun pre t _ hpre => flatInv_step hpre t
  exact ⟨hinv.stable, hinv.obeyed, hinv.once⟩

end state

/-- The accessors in the order of the example of the macro, where the first init
panics and is caught. -/
def cached_shard : Code Nat Unit Unit :=
  .catch_unwind (.get_or_init (.set 3 (.clear (.panic ()))) fun _ => .ret ()) fun _ =>
    .get_or_init (.ret 7) fun _ => .set 11 (.get fun _ => .clear (.get fun _ =>
      .get_or_init (.ret 13) fun _ => .ret ()))

theorem cached_shard_computes_once : CompletesOnce
    ((State.start fun _ : Nat => cached_shard).run (List.replicate 20 0 ++ [1, 1])).trace :=
  (a_program_without_nested_inits_computes_once (fun _ => cached_shard)
    (fun _ => by simp [cached_shard, Code.Flat]) _).2.2

end melinoe.thread_cached
