-- The re-entrancy gates of one thread: `reset.rs`, `guarded.rs` and `gate.rs`.
-- A program is a tree of calls, its closures and what it does with each answer,
-- and the machine keeps the frames that a return or a panic leaves one by one.
import Mathlib.Data.List.Basic
import Mathlib.Logic.Function.Basic
import Melinoe.Runs

open runs

namespace melinoe.reentrant

variable {ι γ : Type} {T : ι → Type} {V P : Type}

/-! ## The functions of the source -/

/-- The error of a call that found its gate held. -/
inductive Reentered
  | mk
deriving DecidableEq

/-- `Reset::acquire`: the flag that it leaves armed, or the refusal. -/
def Reset.acquire (active : Bool) : Except Reentered Bool :=
  if active then .error .mk else .ok true

/-- `Drop for Reset`: the flag after it, whatever it was. -/
def Reset.drop (_active : Bool) : Bool := false

structure GuardedCell (α : Type) where
  active : Bool
  value : α

structure ReentrancyCell where
  active : Bool

def GuardedCell.new {α : Type} (value : α) : GuardedCell α := ⟨false, value⟩

def ReentrancyCell.new : ReentrancyCell := ⟨false⟩

/-! ## The cells of a thread -/

/-- Which cell: the guarded ones by `ι`, the gates by `γ`. -/
inductive CellId (ι γ : Type)
  | guarded (i : ι)
  | gate (j : γ)
deriving DecidableEq

structure Cells (ι γ : Type) (T : ι → Type) where
  guarded : (i : ι) → GuardedCell (T i)
  gates : γ → ReentrancyCell

namespace Cells

def new (values : (i : ι) → T i) : Cells ι γ T :=
  ⟨fun i => .new (values i), fun _ => .new⟩

/-- `is_active` of either kind. -/
def is_active (cells : Cells ι γ T) : CellId ι γ → Bool
  | .guarded i => (cells.guarded i).active
  | .gate j => (cells.gates j).active

variable [DecidableEq ι] [DecidableEq γ]

def set_active (cells : Cells ι γ T) (c : CellId ι γ) (flag : Bool) : Cells ι γ T :=
  match c with
  | .guarded i => { cells with
      guarded := Function.update cells.guarded i { cells.guarded i with active := flag } }
  | .gate j => { cells with gates := Function.update cells.gates j ⟨flag⟩ }

def set_value (cells : Cells ι γ T) (i : ι) (value : T i) : Cells ι γ T :=
  { cells with guarded := Function.update cells.guarded i { cells.guarded i with value } }

theorem is_active_set_active (cells : Cells ι γ T) (c d : CellId ι γ) (flag : Bool) :
    (cells.set_active c flag).is_active d = if d = c then flag else cells.is_active d := by
  cases c <;> cases d <;> simp only [set_active, is_active, CellId.guarded.injEq,
    CellId.gate.injEq, reduceCtorEq, if_false, Function.update_apply]
  · rename_i i k
    by_cases h : k = i
    · subst h
      simp
    · simp [h]
  · split <;> rfl

omit [DecidableEq γ] in
theorem is_active_set_value (cells : Cells ι γ T) (i : ι) (value : T i) (c : CellId ι γ) :
    (cells.set_value i value).is_active c = cells.is_active c := by
  cases c with
  | gate j => rfl
  | guarded k =>
    simp only [set_value, is_active]
    by_cases h : k = i
    · subst h
      simp
    · simp [h]

end Cells

/-! ## Programs and the machine that runs them -/

/-- What a thread runs: `enter` of either kind of cell and `enter_unguarded`, each
with its closure and with what follows for every answer. The values that a
closure takes from its `&mut T` reach the code as `update` hands them on. -/
inductive Code (ι γ : Type) (T : ι → Type) (V P : Type)
  | ret (value : V)
  | panic (payload : P)
  | enter (c : CellId ι γ) (f : Code ι γ T V P) (next : Except Reentered V → Code ι γ T V P)
  | enter_unguarded (i : ι) (f : Code ι γ T V P) (next : Except Reentered V → Code ι γ T V P)
  | is_active (c : CellId ι γ) (next : Bool → Code ι γ T V P)
  | update (i : ι) (write : T i → T i) (next : T i → Code ι γ T V P)
  | catch_unwind (body : Code ι γ T V P) (next : Except P V → Code ι γ T V P)

/-- A call in progress. The frame of `enter` owns the `Reset`, and for a gate the
brand of the token that it lent; that of `enter_unguarded` owns nothing. -/
inductive Frame (ι γ : Type) (T : ι → Type) (V P : Type)
  | enter (c : CellId ι γ) (token : Option Nat) (next : Except Reentered V → Code ι γ T V P)
  | enter_unguarded (i : ι) (next : Except Reentered V → Code ι γ T V P)
  | catch_unwind (next : Except P V → Code ι γ T V P)

inductive Control (ι γ : Type) (T : ι → Type) (V P : Type)
  | run (code : Code ι γ T V P)
  | returned (value : V)
  | unwinding (payload : P)

/-- `minted` counts the fresh brands. -/
structure State (ι γ : Type) (T : ι → Type) (V P : Type) where
  control : Control ι γ T V P
  stack : List (Frame ι γ T V P)
  cells : Cells ι γ T
  minted : Nat

namespace Frame

variable [DecidableEq ι] [DecidableEq γ]

/-- The frame is of a successful `enter` on the cell. -/
def arms (c : CellId ι γ) : Frame ι γ T V P → Bool
  | .enter d _ _ => c = d
  | _ => false

def bypasses (c : CellId ι γ) : Frame ι γ T V P → Bool
  | .enter_unguarded i _ => .guarded i = c
  | _ => false

/-- The closure of the frame has the cell's `&mut T` or its fresh token. -/
def holds (c : CellId ι γ) (frame : Frame ι γ T V P) : Bool := frame.arms c || frame.bypasses c

def token : Frame ι γ T V P → Option Nat
  | .enter _ token _ => token
  | _ => none

end Frame

namespace State

variable [DecidableEq ι] [DecidableEq γ]

def init (code : Code ι γ T V P) (values : (i : ι) → T i) : State ι γ T V P :=
  ⟨.run code, [], .new values, 0⟩

/-- The closure of `enter` has run: the answer is `Ok(f(value))`, and the `Reset`
is dropped. -/
def leave (st : State ι γ T V P) (c : CellId ι γ) (control : Control ι γ T V P)
    (stack : List (Frame ι γ T V P)) : State ι γ T V P :=
  { st with control, stack,
            cells := st.cells.set_active c (Reset.drop (st.cells.is_active c)) }

/-- One step of the thread. -/
def step (st : State ι γ T V P) : Option (State ι γ T V P) :=
  match st.control with
  | .run (.ret value) => some { st with control := .returned value }
  | .run (.panic payload) => some { st with control := .unwinding payload }
  | .run (.enter c f next) =>
    match Reset.acquire (st.cells.is_active c) with
    | .error e => some { st with control := .run (next (.error e)) }
    | .ok flag =>
      let cells := st.cells.set_active c flag
      match c with
      | .guarded _ => some { st with control := .run f, stack := .enter c none next :: st.stack,
                                     cells }
      | .gate _ => some { control := .run f, stack := .enter c (some st.minted) next :: st.stack,
                          cells, minted := st.minted + 1 }
  | .run (.enter_unguarded i f next) =>
    if (st.cells.guarded i).active then some { st with control := .run (next (.error .mk)) }
    else some { st with control := .run f, stack := .enter_unguarded i next :: st.stack }
  | .run (.is_active c next) => some { st with control := .run (next (st.cells.is_active c)) }
  | .run (.update i write next) =>
    let value := (st.cells.guarded i).value
    some { st with control := .run (next value), cells := st.cells.set_value i (write value) }
  | .run (.catch_unwind body next) =>
    some { st with control := .run body, stack := .catch_unwind next :: st.stack }
  | .returned value =>
    match st.stack with
    | [] => none
    | .enter c _ next :: stack => some (st.leave c (.run (next (.ok value))) stack)
    | .enter_unguarded _ next :: stack => some { st with control := .run (next (.ok value)), stack }
    | .catch_unwind next :: stack => some { st with control := .run (next (.ok value)), stack }
  | .unwinding payload =>
    match st.stack with
    | [] => none
    | .enter c _ _ :: stack => some (st.leave c (.unwinding payload) stack)
    | .enter_unguarded _ _ :: stack => some { st with stack }
    | .catch_unwind next :: stack =>
      some { st with control := .run (next (.error payload)), stack }

/-- What the contract of `enter_unguarded` and the borrow checker ask of the code
at the state: no call on a cell inside an unguarded closure of that cell, and
no write outside the closures that have the `&mut T`. -/
def Allowed (st : State ι γ T V P) : Prop :=
  match st.control with
  | .run (.enter c _ _) => ∀ frame ∈ st.stack, ¬ frame.bypasses c
  | .run (.enter_unguarded i _ _) => ∀ frame ∈ st.stack, ¬ frame.bypasses (.guarded i)
  | .run (.update i _ _) => ∃ frame ∈ st.stack, frame.holds (.guarded i)
  | _ => True

def Step (st st' : State ι γ T V P) : Prop := st.Allowed ∧ st.step = some st'

end State

/-! ## What a step can do to the frames and the flags -/

variable [DecidableEq ι] [DecidableEq γ]

/-- A step leaves the frames alone, puts one frame on top or takes the top one off.
A frame that holds a cell comes only while the cell is free. -/
inductive Move (st st' : State ι γ T V P) : Prop
  | stay (hs : st'.stack = st.stack)
      (hf : ∀ c, st'.cells.is_active c = st.cells.is_active c) (hm : st'.minted = st.minted)
  | push {frame : Frame ι γ T V P} (hs : st'.stack = frame :: st.stack)
      (free : ∀ c, frame.holds c → st.cells.is_active c = false ∧
        ∀ below ∈ st.stack, ¬ below.bypasses c)
      (hf : ∀ c, st'.cells.is_active c = if frame.arms c then true else st.cells.is_active c)
      (ht : frame.token = none ∧ st'.minted = st.minted ∨
        frame.token = some st.minted ∧ st'.minted = st.minted + 1)
  | pop {frame : Frame ι γ T V P} (hs : st.stack = frame :: st'.stack)
      (hf : ∀ c, st'.cells.is_active c = if frame.arms c then false else st.cells.is_active c)
      (hm : st'.minted = st.minted)

variable {st st' : State ι γ T V P}

theorem acquire_ok {active flag : Bool} (h : Reset.acquire active = .ok flag) :
    active = false ∧ flag = true := by
  cases active with
  | false => cases h; exact ⟨rfl, rfl⟩
  | true => cases h

theorem holds_enter {c d : CellId ι γ} {token : Option Nat}
    {next : Except Reentered V → Code ι γ T V P} :
    (Frame.enter c token next).holds d = true ↔ d = c := by
  simp [Frame.holds, Frame.arms, Frame.bypasses]

theorem holds_enter_unguarded {i : ι} {d : CellId ι γ}
    {next : Except Reentered V → Code ι γ T V P} :
    (Frame.enter_unguarded i next).holds d = true ↔ d = .guarded i := by
  simp [Frame.holds, Frame.arms, Frame.bypasses, eq_comm]

/-- Leaving an `enter`, by a return or by a panic, is a pop of its frame. -/
theorem leave_move {c : CellId ι γ} {token : Option Nat}
    {next : Except Reentered V → Code ι γ T V P} {stack : List (Frame ι γ T V P)}
    (hs : st.stack = .enter c token next :: stack) (control : Control ι γ T V P) :
    Move st (st.leave c control stack) := by
  refine .pop hs (fun d => ?_) rfl
  simp only [State.leave, Cells.is_active_set_active, Frame.arms, Reset.drop, decide_eq_true_eq]

theorem step_move (h : State.Step st st') : Move st st' := by
  obtain ⟨hallowed, hstep⟩ := h
  unfold State.step at hstep
  unfold State.Allowed at hallowed
  split at hstep <;> rename_i hcontrol <;> simp only [hcontrol] at hallowed
  · cases hstep; exact .stay rfl (fun _ => rfl) rfl
  · cases hstep; exact .stay rfl (fun _ => rfl) rfl
  · -- `enter`
    rename_i c f next
    split at hstep
    · cases hstep; exact .stay rfl (fun _ => rfl) rfl
    · rename_i flag hflag
      obtain ⟨hfree, rfl⟩ := acquire_ok hflag
      have hcells : ∀ d, (st.cells.set_active c true).is_active d =
          if (decide (d = c)) = true then true else st.cells.is_active d := by
        intro d
        rw [Cells.is_active_set_active]
        simp
      split at hstep <;> cases hstep
      · exact .push rfl (fun d hd => by rw [holds_enter.mp hd]; exact ⟨hfree, hallowed⟩)
          hcells (.inl ⟨rfl, rfl⟩)
      · exact .push rfl (fun d hd => by rw [holds_enter.mp hd]; exact ⟨hfree, hallowed⟩)
          hcells (.inr ⟨rfl, rfl⟩)
  · -- `enter_unguarded`
    split at hstep <;> cases hstep
    · exact .stay rfl (fun _ => rfl) rfl
    · rename_i hfree
      refine .push rfl (fun d hd => ?_) (fun _ => rfl) (.inl ⟨rfl, rfl⟩)
      rw [holds_enter_unguarded.mp hd]
      exact ⟨Bool.eq_false_of_not_eq_true hfree, hallowed⟩
  · cases hstep; exact .stay rfl (fun _ => rfl) rfl
  · cases hstep; exact .stay rfl (fun c => Cells.is_active_set_value _ _ _ c) rfl
  · cases hstep
    exact .push rfl (fun d hd => by cases hd) (fun _ => rfl) (.inl ⟨rfl, rfl⟩)
  · split at hstep <;> rename_i hs
    · cases hstep
    · cases hstep; exact leave_move hs _
    · cases hstep; exact .pop hs (fun _ => rfl) rfl
    · cases hstep; exact .pop hs (fun _ => rfl) rfl
  · split at hstep <;> rename_i hs
    · cases hstep
    · cases hstep; exact leave_move hs _
    · cases hstep; exact .pop hs (fun _ => rfl) rfl
    · cases hstep; exact .pop hs (fun _ => rfl) rfl

/-! ## Every state that a program reaches -/

/-- The flags say which cells a frame has armed, no cell is held by two frames, and
no brand was minted twice. -/
structure Inv (st : State ι γ T V P) : Prop where
  flags : ∀ c, st.cells.is_active c = true ↔ ∃ frame ∈ st.stack, frame.arms c
  single : ∀ c, st.stack.countP (Frame.holds c) ≤ 1
  minted : ∀ brand ∈ st.stack.filterMap Frame.token, brand < st.minted
  fresh : (st.stack.filterMap Frame.token).Nodup

theorem inv_init (code : Code ι γ T V P) (values : (i : ι) → T i) :
    Inv (State.init code values) := by
  refine ⟨fun c => ?_, fun c => Nat.zero_le 1, ?_, ?_⟩
  · cases c <;> simp [State.init, Cells.new, Cells.is_active, GuardedCell.new, ReentrancyCell.new]
  · simp [State.init]
  · simp [State.init]

/-- A free cell is held by no frame. -/
theorem free_holds (h : Inv st) {c : CellId ι γ} (hfree : st.cells.is_active c = false)
    (hb : ∀ below ∈ st.stack, ¬ below.bypasses c) : st.stack.countP (Frame.holds c) = 0 := by
  rw [List.countP_eq_zero]
  intro frame hframe hholds
  unfold Frame.holds at hholds
  rcases (Bool.or_eq_true _ _).mp hholds with ha | ha
  · have := (h.flags c).mpr ⟨frame, hframe, ha⟩
    rw [hfree] at this
    cases this
  · exact hb frame hframe ha

theorem inv_push {frame : Frame ι γ T V P} (h : Inv st) (hs : st'.stack = frame :: st.stack)
    (free : ∀ c, frame.holds c → st.cells.is_active c = false ∧
      ∀ below ∈ st.stack, ¬ below.bypasses c)
    (hf : ∀ c, st'.cells.is_active c = if frame.arms c then true else st.cells.is_active c)
    (ht : frame.token = none ∧ st'.minted = st.minted ∨
      frame.token = some st.minted ∧ st'.minted = st.minted + 1) : Inv st' := by
  refine ⟨fun c => ?_, fun c => ?_, ?_, ?_⟩
  · rw [hf c, hs, List.exists_mem_cons_iff]
    split
    · rename_i ha
      exact ⟨fun _ => .inl ha, fun _ => rfl⟩
    · rename_i ha
      rw [h.flags c, or_iff_right ha]
  · rw [hs, List.countP_cons]
    split
    · rename_i hh
      rw [free_holds h (free c hh).1 (free c hh).2]
    · exact h.single c
  · rw [hs]
    rcases ht with ⟨ht, hm⟩ | ⟨ht, hm⟩
    · rw [List.filterMap_cons_none ht, hm]
      exact h.minted
    · rw [List.filterMap_cons_some ht, hm, List.forall_mem_cons]
      exact ⟨Nat.lt_succ_self _, fun b hb => Nat.lt_succ_of_lt (h.minted b hb)⟩
  · rw [hs]
    rcases ht with ⟨ht, -⟩ | ⟨ht, -⟩
    · rw [List.filterMap_cons_none ht]
      exact h.fresh
    · rw [List.filterMap_cons_some ht, List.nodup_cons]
      exact ⟨fun hmem => (h.minted _ hmem).false, h.fresh⟩

theorem inv_pop {frame : Frame ι γ T V P} (h : Inv st) (hs : st.stack = frame :: st'.stack)
    (hf : ∀ c, st'.cells.is_active c = if frame.arms c then false else st.cells.is_active c)
    (hm : st'.minted = st.minted) : Inv st' := by
  have hsub : (st'.stack.filterMap Frame.token).Sublist (st.stack.filterMap Frame.token) := by
    rw [hs]
    exact (List.sublist_cons_self frame st'.stack).filterMap _
  have honly : ∀ c, frame.holds c = true → st'.stack.countP (Frame.holds c) = 0 := by
    intro c hc
    have := h.single c
    rw [hs, List.countP_cons_of_pos hc] at this
    omega
  refine ⟨fun c => ?_, fun c => ?_, fun b hb => ?_, h.fresh.sublist hsub⟩
  · rw [hf c]
    split
    · -- the frame was the cell's only holder
      rename_i ha
      have hnone := List.countP_eq_zero.mp (honly c (by simp [Frame.holds, ha]))
      refine ⟨fun hfalse => (Bool.false_ne_true hfalse).elim, fun ⟨below, hbelow, hb⟩ => ?_⟩
      exact (hnone below hbelow (by simp [Frame.holds, hb])).elim
    · rename_i ha
      rw [h.flags c, hs, List.exists_mem_cons_iff, or_iff_right ha]
  · have := h.single c
    rw [hs, List.countP_cons] at this
    omega
  · rw [hm]
    exact h.minted b (hsub.subset hb)

theorem inv_step (h : Inv st) (hs : State.Step st st') : Inv st' := by
  cases step_move hs with
  | stay hs hf hm =>
    exact ⟨fun c => by rw [hs, hf c]; exact h.flags c, fun c => by rw [hs]; exact h.single c,
      by rw [hs, hm]; exact h.minted, by rw [hs]; exact h.fresh⟩
  | push hs free hf ht => exact inv_push h hs free hf ht
  | pop hs hf hm => exact inv_pop h hs hf hm

theorem inv_of_run {code : Code ι γ T V P} {values : (i : ι) → T i}
    (h : Reaches State.Step (State.init code values) st) : Inv st :=
  inv_of_reaches h (inv_init code values) fun _ _ => inv_step

/-! ## How one call is answered -/

/-- The call that the thread makes next: its cell, its closure, what follows for
each answer, and the frame of the closure when the call is granted. -/
inductive State.Calls (st : State ι γ T V P) : CellId ι γ → Code ι γ T V P →
    (Except Reentered V → Code ι γ T V P) → Frame ι γ T V P → Prop
  | guarded {i : ι} {f : Code ι γ T V P} {next : Except Reentered V → Code ι γ T V P}
      (h : st.control = .run (.enter (.guarded i) f next)) :
      Calls st (.guarded i) f next (.enter (.guarded i) none next)
  | gate {j : γ} {f : Code ι γ T V P} {next : Except Reentered V → Code ι γ T V P}
      (h : st.control = .run (.enter (.gate j) f next)) :
      Calls st (.gate j) f next (.enter (.gate j) (some st.minted) next)
  | unguarded {i : ι} {f : Code ι γ T V P} {next : Except Reentered V → Code ι γ T V P}
      (h : st.control = .run (.enter_unguarded i f next)) :
      Calls st (.guarded i) f next (.enter_unguarded i next)

variable {c : CellId ι γ} {f : Code ι γ T V P} {next : Except Reentered V → Code ι γ T V P}
  {frame : Frame ι γ T V P}

/-- A call on a held cell runs no closure and leaves every flag and value. -/
theorem step_refused (h : st.Calls c f next frame) (ha : st.cells.is_active c = true) :
    st.step = some { st with control := .run (next (.error .mk)) } := by
  unfold State.step
  cases h with
  | guarded hc => simp only [hc, ha, Reset.acquire, if_true]
  | gate hc => simp only [hc, ha, Reset.acquire, if_true]
  | @unguarded i _ _ hc =>
    have hactive : (st.cells.guarded i).active = true := ha
    simp only [hc, hactive, if_true]

/-- A call on a free cell runs the closure, over a frame that holds the cell. -/
theorem step_granted (h : st.Calls c f next frame) (ha : st.cells.is_active c = false) :
    ∃ st', st.step = some st' ∧ st'.control = .run f ∧ st'.stack = frame :: st.stack ∧
      frame.holds c = true := by
  unfold State.step
  cases h with
  | guarded hc =>
    simp only [hc, ha, Reset.acquire, if_neg Bool.false_ne_true]
    exact ⟨_, rfl, rfl, rfl, holds_enter.mpr rfl⟩
  | gate hc =>
    simp only [hc, ha, Reset.acquire, if_neg Bool.false_ne_true]
    exact ⟨_, rfl, rfl, rfl, holds_enter.mpr rfl⟩
  | @unguarded i _ _ hc =>
    have hactive : (st.cells.guarded i).active = false := ha
    simp only [hc, hactive, if_neg Bool.false_ne_true]
    exact ⟨_, rfl, rfl, rfl, holds_enter_unguarded.mpr rfl⟩

/-- The flags are known from the frames: where a run has the same frames, as it has
before a call and once the call has returned or unwound, it has the same flags. -/
theorem flags_of_stack (h : Inv st) (h' : Inv st') (hs : st'.stack = st.stack) (c : CellId ι γ) :
    st'.cells.is_active c = st.cells.is_active c := by
  rw [Bool.eq_iff_iff, h'.flags c, h.flags c, hs]

/-! ## What a call leaves behind -/

/-- Code that runs takes no frame off. -/
theorem run_keeps_frames {code : Code ι γ T V P} (h : State.Step st st')
    (hc : st.control = .run code) : st.stack.length ≤ st'.stack.length := by
  have hstep := h.2
  cases code <;> simp only [State.step, hc] at hstep
  case enter c f next =>
    split at hstep
    · cases hstep; exact Nat.le_refl _
    · split at hstep <;> cases hstep <;> exact Nat.le_succ _
  case enter_unguarded i f next => split at hstep <;> cases hstep <;> simp
  all_goals cases hstep; simp

/-- The frame of a granted call is on top, and a step takes it off: the closure has
returned or unwinds, and the caller goes on with the answer or unwinds with it. -/
theorem step_leaves {last : State ι γ T V P} (hcall : st.Calls c f next frame)
    (h : State.Step last st') (hs : last.stack = frame :: st'.stack) :
    (∃ value, last.control = .returned value ∧ st'.control = .run (next (.ok value))) ∨
    ∃ payload, last.control = .unwinding payload ∧ st'.control = .unwinding payload := by
  cases hc : last.control with
  | run code =>
    have hlen := run_keeps_frames h hc
    simp [hs] at hlen
  | returned value =>
    have hstep := h.2
    cases hcall <;> simp only [State.step, hc, hs] at hstep <;>
      exact .inl ⟨value, rfl, (congrArg State.control (Option.some.inj hstep)).symm⟩
  | unwinding payload =>
    have hstep := h.2
    cases hcall <;> simp only [State.step, hc, hs] at hstep <;>
      exact .inr ⟨payload, rfl, (congrArg State.control (Option.some.inj hstep)).symm⟩

theorem top_of_suffix {α : Type} {x y : α} {below l : List α} (h : x :: below <:+ y :: l)
    (hl : ¬ x :: below <:+ l) : y = x ∧ l = below := by
  rcases List.suffix_cons_iff.mp h with heq | hsuf
  · exact ⟨(List.cons.inj heq).1.symm, (List.cons.inj heq).2.symm⟩
  · exact absurd hsuf hl

/-- A granted call is left when the frame of its closure goes. Whatever ran in between,
the frames are then those from before the call, and so are the flags. -/
theorem a_left_call_gives_back_the_flags {entered last : State ι γ T V P} (h : Inv st)
    (hcall : st.Calls c f next frame) (ha : st.cells.is_active c = false)
    (henter : State.Step st entered)
    (hinside : Reaches (fun a b => State.Step a b ∧ frame :: st.stack <:+ b.stack) entered last)
    (hleave : State.Step last st') (hleft : ¬ frame :: st.stack <:+ st'.stack) :
    st'.stack = st.stack ∧ (∀ d, st'.cells.is_active d = st.cells.is_active d) ∧
    ((∃ value, last.control = .returned value ∧ st'.control = .run (next (.ok value))) ∨
      ∃ payload, last.control = .unwinding payload ∧ st'.control = .unwinding payload) := by
  obtain ⟨entered', hstep, -, hstack, -⟩ := step_granted hcall ha
  obtain rfl : entered' = entered := Option.some.inj (hstep.symm.trans henter.2)
  obtain ⟨hinv, hsuf⟩ : Inv last ∧ frame :: st.stack <:+ last.stack :=
    inv_of_reaches (I := fun u => Inv u ∧ frame :: st.stack <:+ u.stack) hinside
      ⟨inv_step h henter, hstack ▸ List.suffix_refl _⟩
      fun _ _ ⟨ha, _⟩ ⟨hs, hsuf⟩ => ⟨inv_step ha hs, hsuf⟩
  obtain ⟨htop, hback⟩ : last.stack = frame :: st'.stack ∧ st'.stack = st.stack := by
    cases step_move hleave with
    | stay hs => exact absurd (hs ▸ hsuf) hleft
    | push hs => exact absurd (hs ▸ hsuf.trans (List.suffix_cons _ _)) hleft
    | pop hs =>
      rw [hs] at hsuf
      obtain ⟨rfl, hback⟩ := top_of_suffix hsuf hleft
      exact ⟨hs, hback⟩
  exact ⟨hback, flags_of_stack h (inv_step hinv hleave) hback, step_leaves hcall hleave htop⟩
/-- Over every tree of calls, closures, panics and catches: a flag is set exactly
under a closure of `enter`, at most one closure holds a cell, a refused call
changes nothing, and where the frames are those from before a call, so are the
flags. -/
theorem gates_follow_the_call_tree {code : Code ι γ T V P} {values : (i : ι) → T i}
    (h : Reaches State.Step (State.init code values) st) :
    (∀ c, st.cells.is_active c = true ↔ ∃ frame ∈ st.stack, frame.arms c) ∧
    (∀ c, st.stack.countP (Frame.holds c) ≤ 1) ∧
    (st.stack.filterMap Frame.token).Nodup ∧
    (∀ c f next frame, st.Calls c f next frame →
      (st.cells.is_active c = true →
        st.step = some { st with control := .run (next (.error .mk)) }) ∧
      (st.cells.is_active c = false → ∃ st', st.step = some st' ∧ st'.control = .run f ∧
        st'.stack = frame :: st.stack ∧ frame.holds c = true)) ∧
    ∀ st', Reaches State.Step st st' → st'.stack = st.stack →
      ∀ c, st'.cells.is_active c = st.cells.is_active c := by
  have hinv := inv_of_run h
  refine ⟨hinv.flags, hinv.single, hinv.fresh, fun c f next frame hcall => ?_, fun st' h' hs => ?_⟩
  · exact ⟨step_refused hcall, step_granted hcall⟩
  · exact flags_of_stack hinv (inv_of_run (h.trans h')) hs

/-- Enters the cell, enters it again, and panics at the refusal. -/
def reenter_and_panic : Code Unit Unit (fun _ => Nat) Nat String :=
  .enter (.guarded ())
    (.update () (· + 1) fun _ => .enter (.guarded ()) (.ret 0) fun answer =>
      match answer with
      | .ok value => .ret value
      | .error _ => .panic "boom")
    fun _ => .ret 1

/-- What follows the call of `enter_and_return`. -/
def enter_and_return_answer :
    Except Reentered Nat → Code Unit Unit (fun _ => Nat) Nat String
  | .ok value => .ret value
  | .error _ => .panic "boom"

/-- Enters the cell and returns what it held. -/
def enter_and_return : Code Unit Unit (fun _ => Nat) Nat String :=
  .enter (.guarded ()) (.update () (· + 1) .ret) enter_and_return_answer

/-- A panic that leaves the cell clears its flag, and so does a return. -/
theorem a_caught_panic_clears_the_flag :
    (∃ st' : State Unit Unit (fun _ => Nat) Nat String,
      Reaches State.Step (State.init (.catch_unwind reenter_and_panic fun _ => .ret 2) fun _ => 7)
        st' ∧
      (st'.cells.guarded ()).value = 8 ∧ st'.control = .unwinding "boom" ∧
      st'.cells.is_active (.guarded ()) = false) ∧
    ∃ inside st' : State Unit Unit (fun _ => Nat) Nat String,
      Reaches State.Step (State.init enter_and_return fun _ => 7) inside ∧
      inside.cells.is_active (.guarded ()) = true ∧ Reaches State.Step inside st' ∧
      (st'.cells.guarded ()).value = 8 ∧ st'.control = .run (.ret 7) ∧
      st'.cells.is_active (.guarded ()) = false := by
  constructor
  · let st : State Unit Unit (fun _ => Nat) Nat String :=
      ⟨.run reenter_and_panic, [.catch_unwind fun _ => .ret 2], .new fun _ => 7, 0⟩
    have hcatch : Reaches State.Step
        (State.init (.catch_unwind reenter_and_panic fun _ => .ret 2) fun _ => 7) st :=
      .single ⟨trivial, rfl⟩
    -- enter, update, the refused enter, the panic, and its way out of the outer closure
    obtain ⟨st', hcall, hs, hv, hc⟩ : ∃ st', Reaches State.Step st st' ∧ st'.stack = st.stack ∧
        (st'.cells.guarded ()).value = 8 ∧ st'.control = .unwinding "boom" := by
      refine ⟨_, .tail (.tail (.tail (.tail (.tail .refl
        ⟨?_, rfl⟩) ⟨?_, rfl⟩) ⟨?_, rfl⟩) ⟨?_, rfl⟩) ⟨?_, rfl⟩, rfl, rfl, rfl⟩
      · simp [st, reenter_and_panic, State.Allowed, Frame.bypasses]
      · exact ⟨_, List.mem_cons_self, rfl⟩
      · simp [st, State.Allowed, Frame.bypasses]
      · exact trivial
      · exact trivial
    have hflag := (gates_follow_the_call_tree hcatch).2.2.2.2 st' hcall hs (.guarded ())
    exact ⟨st', hcatch.trans hcall, hv, hc, hflag⟩
  · let st : State Unit Unit (fun _ => Nat) Nat String := .init enter_and_return fun _ => 7
    let cells : Cells Unit Unit fun _ => Nat := .set_active (.new fun _ => 7) (.guarded ()) true
    let inside : State Unit Unit (fun _ => Nat) Nat String :=
      ⟨.run (.update () (· + 1) .ret), [.enter (.guarded ()) none enter_and_return_answer],
        cells, 0⟩
    have henter : State.Step st inside := by
      refine ⟨?_, rfl⟩
      simp [st, State.init, enter_and_return, State.Allowed]
    -- update, the return of the closure, and its way out
    obtain ⟨st', hleave, hs, hv, hc⟩ : ∃ st', Reaches State.Step inside st' ∧
        st'.stack = st.stack ∧ (st'.cells.guarded ()).value = 8 ∧
        st'.control = .run (.ret 7) := by
      refine ⟨_, .tail (.tail (.tail .refl ⟨?_, rfl⟩) ⟨?_, rfl⟩) ⟨?_, rfl⟩, rfl, rfl, rfl⟩
      · exact ⟨_, List.mem_cons_self, rfl⟩
      · exact trivial
      · exact trivial
    have harmed := (gates_follow_the_call_tree (.single henter)).1 (.guarded ())
    have hflag := (gates_follow_the_call_tree .refl).2.2.2.2 st' (.head henter hleave) hs
      (.guarded ())
    exact ⟨inside, st', .single henter, harmed.mpr ⟨_, List.mem_cons_self, rfl⟩, hleave, hv, hc,
      hflag⟩

end melinoe.reentrant
