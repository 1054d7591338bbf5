-- The accessors of `thread_cached!`: `thread_cached.rs`. Every thread has a `VALUE`
-- of its own. Its code is a tree of calls, where an init closure is code again, and
-- the machine keeps the calls in progress frame by frame, so that what a nested
-- call stores and what the outer one stores after it are steps of one run.
import Mathlib.Data.List.Basic
import Mathlib.Logic.Function.Basic
import Melinoe.Runs

open runs

namespace melinoe.thread_cached

variable {θ T P : Type}

/-! ## The functions of the source -/

def get (VALUE : Option T) : Option T := VALUE

def set (value : T) (_VALUE : Option T) : Option T := some value

def clear (_VALUE : Option T) : Option T := none

/-! ## What a step shows of the cache -/

/-- What one step of a thread is, as far as its cache goes. `miss` starts an init
closure, `filled` stores what it returned and `abandoned` unwinds it. -/
inductive Event (T : Type)
  | got (answer : Option T)
  | hit (value : T)
  | miss
  | filled (value : T)
  | set (value : T)
  | clear
  | abandoned
  | silent
deriving DecidableEq

namespace Event

/-- The value that a `get_or_init` returns. -/
def returns : Event T → Option T
  | .hit value | .filled value => some value
  | _ => none

/-- The thread calls `set` or `clear`. -/
def overwrites : Event T → Bool
  | .set _ | .clear => true
  | _ => false

/-- What the event says of the cache that the access found. -/
def Reads (VALUE : Option T) : Event T → Prop
  | .got answer => answer = VALUE
  | .hit value => VALUE = some value
  | .miss => VALUE = none
  | _ => True

def write (VALUE : Option T) : Event T → Option T
  | .filled value | .set value => thread_cached.set value VALUE
  | .clear => thread_cached.clear VALUE
  | _ => VALUE

/-- The access finds `v`: a `get` answers `Some(v)`, and a `get_or_init` returns `v`
without its init. -/
def Finds (v : T) : Event T → Prop
  | .got answer => answer = some v
  | .hit value => value = v
  | .miss => False
  | _ => True

end Event

/-! ## Programs and the machine that runs them -/

/-- Code that returns an `R`: the calls of the accessors, each with what follows for
every answer. The init closure of `get_or_init` is code that returns a `T`. -/
inductive Code (T P : Type) : Type → Type 1
  | ret {R : Type} (value : R) : Code T P R
  | panic {R : Type} (payload : P) : Code T P R
  | get {R : Type} (next : Option T → Code T P R) : Code T P R
  | set {R : Type} (value : T) (next : Code T P R) : Code T P R
  | clear {R : Type} (next : Code T P R) : Code T P R
  | get_or_init {R : Type} (init : Code T P T) (next : T → Code T P R) : Code T P R
  | catch_unwind {R B : Type} (body : Code T P B) (next : Except P B → Code T P R) : Code T P R

/-- The calls in progress under code that returns an `R`, the innermost first. -/
inductive Stack (T P : Type) : Type → Type 1
  | nil {R : Type} : Stack T P R
  | get_or_init {R : Type} (next : T → Code T P R) (below : Stack T P R) : Stack T P T
  | catch_unwind {R B : Type} (next : Except P B → Code T P R) (below : Stack T P R) : Stack T P B

inductive Control (T P R : Type) : Type 1
  | run (code : Code T P R)
  | returned (value : R)
  | unwinding (payload : P)

/-- A thread: what it does and whom it answers agree on the type. -/
structure Thread (T P : Type) : Type 1 where
  {R : Type}
  control : Control T P R
  stack : Stack T P R

structure Moved (T P : Type) : Type 1 where
  event : Event T
  VALUE : Option T
  thread : Thread T P

/-- One step of a thread on its `VALUE`. -/
def Thread.step (thread : Thread T P) (VALUE : Option T) : Option (Moved T P) :=
  match thread with
  | ⟨.run (.ret value), stack⟩ => some ⟨.silent, VALUE, .returned value, stack⟩
  | ⟨.run (.panic payload), stack⟩ => some ⟨.silent, VALUE, .unwinding payload, stack⟩
  | ⟨.run (.get next), stack⟩ =>
    some ⟨.got (get VALUE), VALUE, .run (next (get VALUE)), stack⟩
  | ⟨.run (.set value next), stack⟩ => some ⟨.set value, set value VALUE, .run next, stack⟩
  | ⟨.run (.clear next), stack⟩ => some ⟨.clear, clear VALUE, .run next, stack⟩
  | ⟨.run (.get_or_init init next), stack⟩ =>
    match get VALUE with
    | some value => some ⟨.hit value, VALUE, .run (next value), stack⟩
    | none => some ⟨.miss, VALUE, .run init, .get_or_init next stack⟩
  | ⟨.run (.catch_unwind body next), stack⟩ =>
    some ⟨.silent, VALUE, .run body, .catch_unwind next stack⟩
  | ⟨.returned _, .nil⟩ => none
  | ⟨.returned value, .get_or_init next below⟩ =>
    -- the store does not look at `VALUE` again
    some ⟨.filled value, set value VALUE, .run (next value), below⟩
  | ⟨.returned value, .catch_unwind next below⟩ =>
    some ⟨.silent, VALUE, .run (next (.ok value)), below⟩
  | ⟨.unwinding _, .nil⟩ => none
  | ⟨.unwinding payload, .get_or_init _ below⟩ =>
    some ⟨.abandoned, VALUE, .unwinding payload, below⟩
  | ⟨.unwinding payload, .catch_unwind next below⟩ =>
    some ⟨.silent, VALUE, .run (next (.error payload)), below⟩

/-- All the threads, and what each of them did so far. -/
structure State (θ T P : Type) : Type 1 where
  threads : θ → Thread T P
  VALUE : θ → Option T
  trace : List (θ × Event T)

namespace State

def start (codes : θ → Code T P Unit) : State θ T P :=
  ⟨fun t => ⟨.run (codes t), .nil⟩, fun _ => none, []⟩

variable [DecidableEq θ]

/-- The thread `t` takes a step. One that has ended stays as it is. -/
def step (st : State θ T P) (t : θ) : State θ T P :=
  match (st.threads t).step (st.VALUE t) with
  | none => st
  | some moved =>
    ⟨Function.update st.threads t moved.thread, Function.update st.VALUE t moved.VALUE,
      st.trace ++ [(t, moved.event)]⟩

/-- The run in which the threads take their steps in the order of the schedule. -/
def run (st : State θ T P) (schedule : List θ) : State θ T P := schedule.foldl step st

end State

/-! ## The law -/

/-- A `get_or_init` returned `v` on the thread, which called no `set` or `clear` since. -/
def HandedOut (trace : List (θ × Event T)) (t : θ) (v : T) : Prop :=
  ∃ before event after, trace = before ++ (t, event) :: after ∧ event.returns = some v ∧
    ∀ x ∈ after, x.1 = t → x.2.overwrites = false

/-- Whatever was handed out, the thread's next `get` answers it. -/
def State.Stable (st : State θ T P) : Prop :=
  ∀ t v, HandedOut st.trace t v → get (st.VALUE t) = some v

/-- Every access finds what was handed out before it. -/
def Obeyed (trace : List (θ × Event T)) : Prop :=
  ∀ before t event after, trace = before ++ (t, event) :: after →
    ∀ v, HandedOut before t v → event.Finds v

/-- The thread is about to store what an init closure of it returned. -/
def Thread.Fills : Thread T P → T → Prop
  | ⟨.returned value, .get_or_init _ _⟩, w => value = w
  | _, _ => False

/-- An init closure of the thread panicked, and the panic is about to leave the
`get_or_init` that called it. -/
def Thread.Abandons : Thread T P → Prop
  | ⟨.unwinding _, .get_or_init _ _⟩ => True
  | _ => False

/-- A value that an init closure returns now replaces none that was handed out. -/
def State.InitAgrees (st : State θ T P) (t : θ) : Prop :=
  ∀ w, (st.threads t).Fills w → ∀ v, st.VALUE t = some v → HandedOut st.trace t v → v = w

/-! ## What a step adds to the trace -/

section trace

variable {trace : List (θ × Event T)} {t u : θ} {event : Event T} {v : T}

theorem handedOut_concat :
    HandedOut (trace ++ [(t, event)]) u v ↔ (t = u ∧ event.returns = some v) ∨
      HandedOut trace u v ∧ (t = u → event.overwrites = false) := by
  constructor
  · rintro ⟨before, e, after, htrace, hreturns, hafter⟩
    rcases split_concat htrace with ⟨-, heq, -⟩ | ⟨rest, rfl, hsplit⟩
    · cases heq
      exact .inl ⟨rfl, hreturns⟩
    · refine .inr ⟨⟨before, e, rest, hsplit, hreturns, fun x hx => ?_⟩, fun htu => ?_⟩
      · exact hafter x (List.mem_append_left _ hx)
      · exact hafter _ (List.mem_append_right _ (List.mem_singleton_self _)) htu
  · rintro (⟨rfl, hreturns⟩ | ⟨⟨before, e, after, rfl, hreturns, hafter⟩, hkeeps⟩)
    · exact ⟨trace, event, [], rfl, hreturns, nofun⟩
    · refine ⟨before, e, after ++ [(t, event)], by simp, hreturns, fun x hx htu => ?_⟩
      rcases List.mem_append.mp hx with hx | hx
      · exact hafter x hx htu
      · obtain rfl := List.mem_singleton.mp hx
        exact hkeeps htu

theorem obeyed_concat (h : Obeyed trace)
    (hevent : ∀ v, HandedOut trace t v → event.Finds v) : Obeyed (trace ++ [(t, event)]) := by
  intro before u e after htrace v hv
  rcases split_concat htrace with ⟨rfl, heq, -⟩ | ⟨rest, -, hsplit⟩
  · cases heq
    exact hevent v hv
  · exact h before u e rest hsplit v hv

end trace

/-! ## What one step does -/

section thread

variable {thread : Thread T P} {VALUE : Option T} {moved : Moved T P}

/-- The event of a step tells what the step read in the cache and wrote to it. -/
theorem step_event (h : thread.step VALUE = some moved) :
    moved.event.Reads VALUE ∧ moved.VALUE = moved.event.write VALUE ∧
      ∀ w, moved.event = .filled w → thread.Fills w := by
  unfold Thread.step at h
  split at h
  · cases h; exact ⟨trivial, rfl, nofun⟩
  · cases h; exact ⟨trivial, rfl, nofun⟩
  · cases h; exact ⟨rfl, rfl, nofun⟩
  · cases h; exact ⟨trivial, rfl, nofun⟩
  · cases h; exact ⟨trivial, rfl, nofun⟩
  · -- `get_or_init` looks at the cache before anything else
    split at h <;> rename_i hget <;> cases h
    · exact ⟨hget, rfl, nofun⟩
    · exact ⟨hget, rfl, nofun⟩
  · cases h; exact ⟨trivial, rfl, nofun⟩
  · cases h
  · -- and stores what its init returned
    cases h
    refine ⟨trivial, rfl, fun w hw => ?_⟩
    cases hw
    rfl
  · cases h; exact ⟨trivial, rfl, nofun⟩
  · cases h
  · cases h; exact ⟨trivial, rfl, nofun⟩
  · cases h; exact ⟨trivial, rfl, nofun⟩

theorem step_of_fills (VALUE : Option T) {w : T} (h : thread.Fills w) :
    ∃ moved, thread.step VALUE = some moved ∧ moved.event = .filled w := by
  unfold Thread.Fills at h
  split at h
  · subst h
    exact ⟨_, rfl, rfl⟩
  · cases h

theorem step_of_abandons (VALUE : Option T) (h : thread.Abandons) :
    ∃ moved, thread.step VALUE = some moved ∧ moved.event = .abandoned := by
  unfold Thread.Abandons at h
  split at h
  · exact ⟨_, rfl, rfl⟩
  · cases h

end thread

section state

variable [DecidableEq θ] {st st' : State θ T P} {t u : θ}

theorem step_moved {moved : Moved T P} (h : (st.threads t).step (st.VALUE t) = some moved) :
    st.step t = ⟨Function.update st.threads t moved.thread,
      Function.update st.VALUE t moved.VALUE, st.trace ++ [(t, moved.event)]⟩ := by
  simp only [State.step, h]

theorem step_ended (h : (st.threads t).step (st.VALUE t) = none) : st.step t = st := by
  simp only [State.step, h]

/-- A step changes nothing, or it is one event of the thread: the event tells what the
thread found in its cache and left there, and no other cache changes. -/
theorem step_cases (st : State θ T P) (t : θ) : st.step t = st ∨
    ∃ event : Event T, (st.step t).trace = st.trace ++ [(t, event)] ∧
      event.Reads (st.VALUE t) ∧
      (st.step t).VALUE = Function.update st.VALUE t (event.write (st.VALUE t)) ∧
      ∀ w, event = .filled w → (st.threads t).Fills w := by
  cases h : (st.threads t).step (st.VALUE t) with
  | none => exact .inl (step_ended h)
  | some moved =>
    obtain ⟨hreads, hwrite, hfills⟩ := step_event h
    refine .inr ⟨moved.event, ?_, hreads, ?_, hfills⟩
    · rw [step_moved h]
    · rw [step_moved h, hwrite]

theorem step_fills {w : T} (h : (st.threads t).Fills w) :
    (st.step t).trace = st.trace ++ [(t, .filled w)] ∧ (st.step t).VALUE t = some w := by
  obtain ⟨moved, hmoved, hevent⟩ := step_of_fills (st.VALUE t) h
  have hwrite := (step_event hmoved).2.1
  rw [step_moved hmoved, hevent, hwrite, hevent]
  exact ⟨rfl, Function.update_self _ _ _⟩

/-- The panic of an init closure leaves every cache as it was. -/
theorem step_abandons (h : (st.threads t).Abandons) : (st.step t).VALUE = st.VALUE := by
  obtain ⟨moved, hmoved, hevent⟩ := step_of_abandons (st.VALUE t) h
  have hwrite := (step_event hmoved).2.1
  rw [step_moved hmoved, hwrite, hevent]
  exact Function.update_eq_self _ _

/-! ## Every state of a run -/

/-- What was handed out stays handed out as long as no init disagrees with it. -/
theorem stable_step (h : st.Stable) (hagrees : st.InitAgrees t) : (st.step t).Stable := by
  rcases step_cases st t with heq | ⟨event, htrace, hreads, hVALUE, hfills⟩
  · rw [heq]
    exact h
  intro u v hv
  rw [htrace, handedOut_concat] at hv
  rw [hVALUE]
  by_cases htu : t = u
  · subst htu
    rw [Function.update_self]
    rcases hv with ⟨-, hreturns⟩ | ⟨hv, hkeeps⟩
    · -- the step is the return of a `get_or_init`
      cases event <;> cases hreturns
      · exact hreads
      · rfl
    · have hcached : st.VALUE t = some v := h t v hv
      cases event with
      | filled w =>
        obtain rfl := hagrees w (hfills w rfl) v hcached hv
        rfl
      | set w => cases hkeeps rfl
      | clear => cases hkeeps rfl
      | _ => exact hcached
  · rw [Function.update_of_ne (Ne.symm htu)]
    rcases hv with ⟨heq, -⟩ | ⟨hv, -⟩
    · exact absurd heq htu
    · exact h u v hv

/-- An init that disagrees leaves a state that is not stable. -/
theorem agrees_of_stable_step (h : (st.step t).Stable) : st.InitAgrees t := by
  intro w hw v _ hv
  obtain ⟨htrace, hVALUE⟩ := step_fills hw
  have hcached : (st.step t).VALUE t = some v := by
    apply h t v
    rw [htrace, handedOut_concat]
    exact .inr ⟨hv, fun _ => rfl⟩
  rw [hVALUE] at hcached
  cases hcached
  rfl

/-- In a stable state every access finds what was handed out. -/
theorem obeyed_step (h : st.Stable) (hobeyed : Obeyed st.trace) : Obeyed (st.step t).trace := by
  rcases step_cases st t with heq | ⟨event, htrace, hreads, -, -⟩
  · rw [heq]
    exact hobeyed
  rw [htrace]
  refine obeyed_concat hobeyed fun v hv => ?_
  have hcached : st.VALUE t = some v := h t v hv
  cases event with
  | got answer => exact hreads.trans hcached
  | hit w =>
    have : some w = some v := hreads.symm.trans hcached
    cases this
    rfl
  | miss =>
    have : none = some v := hreads.symm.trans hcached
    cases this
  | _ => trivial

/-! ## What a thread observes -/

/-- The steps of one thread. -/
def log (trace : List (θ × Event T)) (t : θ) : List (Event T) :=
  (trace.filter fun x => x.1 = t).map Prod.snd

/-- What a thread knows: what it runs, its cache and its own steps. -/
def State.view (st : State θ T P) (t : θ) : Thread T P × Option T × List (Event T) :=
  (st.threads t, st.VALUE t, log st.trace t)

theorem log_concat (trace : List (θ × Event T)) (event : Event T) :
    log (trace ++ [(t, event)]) u = if t = u then log trace u ++ [event] else log trace u := by
  unfold log
  rw [List.filter_append, List.map_append]
  split <;> simp [*]

theorem view_step_other (h : t ≠ u) : (st.step t).view u = st.view u := by
  cases hstep : (st.threads t).step (st.VALUE t) with
  | none => rw [step_ended hstep]
  | some moved =>
    rw [step_moved hstep]
    simp only [State.view, log_concat, if_neg h, Function.update_of_ne (Ne.symm h)]

theorem view_step_self (h : st.view t = st'.view t) : (st.step t).view t = (st'.step t).view t := by
  simp only [State.view, Prod.mk.injEq] at h
  obtain ⟨hthread, hVALUE, hlog⟩ := h
  have hsame : (st'.threads t).step (st'.VALUE t) = (st.threads t).step (st.VALUE t) := by
    rw [hthread, hVALUE]
  cases hstep : (st.threads t).step (st.VALUE t) with
  | none =>
    rw [hstep] at hsame
    rw [step_ended hstep, step_ended hsame]
    simp only [State.view, hthread, hVALUE, hlog]
  | some moved =>
    rw [hstep] at hsame
    rw [step_moved hstep, step_moved hsame]
    simp only [State.view, log_concat, if_true, Function.update_self, hlog]

/-- Only its own steps matter to a thread. -/
theorem view_run (h : st.view t = st'.view t) (schedule : List θ) :
    (st.run schedule).view t = (st'.run (schedule.filter (· = t))).view t := by
  induction schedule generalizing st st' with
  | nil => exact h
  | cons u schedule ih =>
    by_cases hut : u = t
    · subst hut
      rw [List.filter_cons_of_pos (by simp)]
      exact ih (view_step_self h)
    · rw [List.filter_cons_of_neg (by simp [hut])]
      exact ih ((view_step_other hut).trans h)

/-- What the steps of a thread leave of its cache. -/
def replay (VALUE : Option T) (events : List (Event T)) : Option T := events.foldl Event.write VALUE

theorem step_log (st : State θ T P) (t u : θ) : ∃ events,
    log (st.step t).trace u = log st.trace u ++ events ∧
      (st.step t).VALUE u = replay (st.VALUE u) events := by
  rcases step_cases st t with heq | ⟨event, htrace, -, hVALUE, -⟩
  · rw [heq]
    exact ⟨[], (List.append_nil _).symm, rfl⟩
  rw [htrace, hVALUE, log_concat]
  by_cases htu : t = u
  · subst htu
    rw [if_pos rfl, Function.update_self]
    exact ⟨[event], rfl, rfl⟩
  · rw [if_neg htu, Function.update_of_ne (Ne.symm htu)]
    exact ⟨[], (List.append_nil _).symm, rfl⟩

/-- Nothing but a thread's own steps is in its cache. -/
theorem run_log (st : State θ T P) (schedule : List θ) (u : θ) : ∃ events,
    log (st.run schedule).trace u = log st.trace u ++ events ∧
      (st.run schedule).VALUE u = replay (st.VALUE u) events := by
  induction schedule generalizing st with
  | nil => exact ⟨[], (List.append_nil _).symm, rfl⟩
  | cons t schedule ih =>
    obtain ⟨first, hlog, hVALUE⟩ := step_log st t u
    obtain ⟨rest, hlogs, hVALUEs⟩ := ih (st.step t)
    rw [hlog, List.append_assoc] at hlogs
    rw [hVALUE, replay, replay, ← List.foldl_append] at hVALUEs
    exact ⟨first ++ rest, hlogs, hVALUEs⟩

end state

/-! ## The law of `thread_cached!` -/

variable {codes : θ → Code T P Unit} {schedule pre : List θ}

theorem stable_start : (State.start codes).Stable := by
  rintro t v ⟨before, event, after, htrace, -⟩
  exact absurd htrace (by simp [State.start])

theorem obeyed_start : Obeyed (State.start codes).trace := by
  intro before t event after htrace
  exact absurd htrace (by simp [State.start])

variable [DecidableEq θ]

/-- Every run in which each init agrees is stable and obeyed throughout. -/
theorem stable_of_agrees (hpre : pre <+: schedule)
    (h : ∀ pre t, pre ++ [t] <+: schedule → ((State.start codes).run pre).InitAgrees t) :
    ((State.start codes).run pre).Stable ∧ Obeyed ((State.start codes).run pre).trace := by
  refine inv_of_prefix (I := fun st : State θ T P => st.Stable ∧ Obeyed st.trace)
    hpre ⟨stable_start, obeyed_start⟩ (fun pre t hpre ih => ?_)
  obtain ⟨hstable, hobeyed⟩ := ih
  exact ⟨stable_step hstable (h pre t hpre), obeyed_step hstable hobeyed⟩

theorem run_append (st : State θ T P) (pre rest : List θ) :
    st.run (pre ++ rest) = (st.run pre).run rest := List.foldl_append

/-- A value that a `get_or_init` returned stays, in every state of the run, until the
thread calls `set` or `clear` exactly when no init closure replaces such a value by
another one, and then every access finds it. In every run no thread observes the
others, and an init that panics leaves the cache as the calls under it did: of a cache
that was empty before, only what the thread itself did since. -/
theorem what_is_handed_out_stays_iff_the_inits_agree (codes : θ → Code T P Unit)
    (schedule : List θ) :
    let after := (State.start codes).run
    ((∀ pre, pre <+: schedule → (after pre).Stable) ↔
      ∀ pre t, pre ++ [t] <+: schedule → (after pre).InitAgrees t) ∧
    ((∀ pre t, pre ++ [t] <+: schedule → (after pre).InitAgrees t) →
      Obeyed (after schedule).trace) ∧
    (∀ t codes', codes' t = codes t →
      (after schedule).view t = ((State.start codes').run (schedule.filter (· = t))).view t) ∧
    ∀ pre t, pre ++ [t] <+: schedule → ((after pre).threads t).Abandons →
      (after (pre ++ [t])).VALUE = (after pre).VALUE ∧
      ∀ before, before <+: pre → (after before).VALUE t = none →
        ∃ nested, log (after pre).trace t = log (after before).trace t ++ nested ∧
          (after pre).VALUE t = replay none nested := by
  intro after
  refine ⟨⟨fun h pre t hpre => ?_, fun h pre hpre => ?_⟩, fun h => ?_, fun t codes' heq => ?_,
    fun pre t hpre hpanic => ⟨?_, fun before hbefore hempty => ?_⟩⟩
  · have hstable := h (pre ++ [t]) hpre
    simp only [after, run_append] at hstable
    exact agrees_of_stable_step hstable
  · exact (stable_of_agrees hpre h).1
  · exact (stable_of_agrees (List.prefix_refl schedule) h).2
  · apply view_run
    simp only [State.view, State.start, heq]
  · simp only [after, run_append]
    exact step_abandons hpanic
  · obtain ⟨since, rfl⟩ := hbefore
    have hlog := run_log (after before) since t
    rw [hempty, ← run_append] at hlog
    exact hlog

/-- The outer init of `get_or_init(|| { get_or_init(|| 1); 2 })` and then a `get`. -/
def nested_init : Code Nat Unit Unit :=
  .get_or_init (.get_or_init (.ret 1) fun _ => .ret 2) fun _ => .get fun _ => .ret ()

/-- The inner call hands out `1`, and the thread then reads `2`. -/
theorem the_outer_store_replaces_what_the_inner_call_returned :
    ¬ Obeyed ((State.start fun _ : Unit => nested_init).run (List.replicate 7 ())).trace := by
  intro h
  have hread := h [((), .miss), ((), .miss), ((), .silent), ((), .filled 1), ((), .silent),
    ((), .filled 2)] () (.got (some 2)) [] rfl 1 ⟨[((), .miss), ((), .miss), ((), .silent)],
      .filled 1, [((), .silent), ((), .filled 2)], rfl, rfl, by simp [Event.overwrites]⟩
  cases hread

end melinoe.thread_cached
