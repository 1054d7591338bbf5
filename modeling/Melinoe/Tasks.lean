-- Tasks that share one memory and run in any interleaving. A task that keeps
-- to its own cells ends as it would alone, whatever the others do.
import Melinoe.Runs
import Mathlib.Logic.Function.Basic
import Mathlib.SetTheory.Ordinal.Rank

namespace tasks

open runs

/-! ## Memory -/

/-- A memory of cells. A write to an address that names no cell does nothing. -/
class Memory (μ : Type) (κ α : outParam Type) where
  get : μ → κ → Option α
  set : μ → κ → α → μ
  get_set_self (m : μ) (a : κ) (v : α) : get (set m a v) a = (get m a).map fun _ => v
  get_set_ne (m : μ) {a b : κ} (v : α) : a ≠ b → get (set m a v) b = get m b

open Memory

instance {α : Type} : Memory (List α) Nat α where
  get l i := l[i]?
  set l i v := l.set i v
  get_set_self l i v := by
    rw [List.getElem?_set_self']
    rfl
  get_set_ne l _ _ _ h := List.getElem?_set_ne h

theorem get_list {α : Type} (l : List α) (i : Nat) : get l i = l[i]? := rfl

theorem set_list {α : Type} (l : List α) (i : Nat) (v : α) : set l i v = l.set i v := rfl

variable {μ κ α ε ρ π : Type} [Memory μ κ α]

/-- The two memories hold the same in the cells of `F`. -/
def Agree (F : κ → Prop) (m m' : μ) : Prop := ∀ a, F a → get m a = get m' a

theorem Agree.symm {F : κ → Prop} {m m' : μ} (h : Agree F m m') : Agree F m' m :=
  fun a ha => (h a ha).symm

theorem Agree.trans {F : κ → Prop} {m m' m'' : μ} (h : Agree F m m') (h' : Agree F m' m'') :
    Agree F m m'' := fun a ha => (h a ha).trans (h' a ha)

theorem agree_set {F : κ → Prop} {m m' : μ} (h : Agree F m m') (a : κ) (v : α) :
    Agree F (set m a v) (set m' a v) := by
  intro b hb
  by_cases hab : a = b
  · subst hab
    rw [get_set_self, get_set_self, h a hb]
  · rw [get_set_ne _ _ hab, get_set_ne _ _ hab, h b hb]

/-! ## Tasks -/

/-- What a task still has to do: end with a result or a panic, touch one cell
and go on, or make a call whose effect lies outside the memory. -/
inductive Task (κ α ε ρ π : Type)
  | ret (r : ρ)
  | panic (p : π)
  | load (a : κ) (k : Option α → Task κ α ε ρ π)
  | store (a : κ) (v : α) (k : Task κ α ε ρ π)
  | emit (e : ε) (k : Task κ α ε ρ π)

namespace Task

/-- The whole run of a task that is alone on the memory. -/
def exec : Task κ α ε ρ π → μ → Except π ρ × μ
  | ret r, m => (.ok r, m)
  | panic p, m => (.error p, m)
  | load a k, m => (k (get m a)).exec m
  | store a v k, m => k.exec (set m a v)
  | emit _ k, m => k.exec m

/-- The task touches cells of `F` only. -/
def Within (F : κ → Prop) : Task κ α ε ρ π → Prop
  | ret _ => True
  | panic _ => True
  | load a k => F a ∧ ∀ v, (k v).Within F
  | store a _ k => F a ∧ k.Within F
  | emit _ k => k.Within F

theorem exec_congr {F : κ → Prop} {t : Task κ α ε ρ π} (ht : t.Within F) {m m' : μ}
    (h : Agree F m m') : (t.exec m).1 = (t.exec m').1 ∧ Agree F (t.exec m).2 (t.exec m').2 := by
  induction t generalizing m m' with
  | ret r => exact ⟨rfl, h⟩
  | panic p => exact ⟨rfl, h⟩
  | load a k ih =>
    simp only [exec, h a ht.1]
    exact ih _ (ht.2 _) h
  | store a v k ih => exact ih ht.2 (agree_set h a v)
  | emit e k ih => exact ih ht h

/-- The task on another memory, where `addr` says which cell each of its
addresses names there. -/
def relocate {κ' : Type} (addr : κ → Option κ') : Task κ α ε ρ π → Task κ' α ε ρ π
  | ret r => .ret r
  | panic p => .panic p
  | load a k =>
    match addr a with
    | some b => .load b fun v => (k v).relocate addr
    | none => (k none).relocate addr
  | store a v k =>
    match addr a with
    | some b => .store b v (k.relocate addr)
    | none => k.relocate addr
  | emit e k => .emit e (k.relocate addr)

theorem within_relocate {κ' : Type} {addr : κ → Option κ'} {F : κ' → Prop}
    (h : ∀ a b, addr a = some b → F b) (t : Task κ α ε ρ π) : (t.relocate addr).Within F := by
  induction t with
  | ret r => trivial
  | panic p => trivial
  | load a k ih =>
    simp only [relocate]
    split
    · rename_i b hb
      exact ⟨h a b hb, fun v => ih v⟩
    · exact ih none
  | store a v k ih =>
    simp only [relocate]
    split
    · rename_i b hb
      exact ⟨h a b hb, ih⟩
    · exact ih
  | emit e k ih => exact ih

/-- A relocated task does to the named cells what the task does to its own. -/
theorem exec_relocate {μ' κ' : Type} [Memory μ' κ' α] {addr : κ → Option κ'}
    (hinj : ∀ a b c, addr a = some c → addr b = some c → a = b) (t : Task κ α ε ρ π) {m : μ}
    {m' : μ'} (h : ∀ a, get m a = (addr a).bind (get m')) :
    ((t.relocate addr).exec m').1 = (t.exec m).1 ∧
      ∀ a, get (t.exec m).2 a = (addr a).bind (get ((t.relocate addr).exec m').2) := by
  induction t generalizing m m' with
  | ret r => exact ⟨rfl, h⟩
  | panic p => exact ⟨rfl, h⟩
  | load a k ih =>
    have ha := h a
    simp only [relocate, exec]
    cases hb : addr a with
    | some b =>
      rw [hb, Option.bind_some] at ha
      simp only [exec, ha]
      exact ih _ h
    | none =>
      rw [hb, Option.bind_none] at ha
      simp only [ha]
      exact ih _ h
  | store a v k ih =>
    simp only [relocate, exec]
    cases hb : addr a with
    | some b =>
      apply ih
      intro c
      by_cases hac : a = c
      · subst hac
        rw [get_set_self, h, hb, Option.bind_some, Option.bind_some, get_set_self]
      · rw [get_set_ne _ _ hac, h]
        cases hd : addr c with
        | none => rfl
        | some d =>
          have hbd : b ≠ d := fun hbd => hac (hinj a c b hb (by rw [hd, hbd]))
          rw [Option.bind_some, Option.bind_some, get_set_ne _ _ hbd]
    | none =>
      apply ih
      intro c
      by_cases hac : a = c
      · subst hac
        rw [get_set_self, h, hb]
        rfl
      · rw [get_set_ne _ _ hac, h]
  | emit e k ih => exact ih h

/-- The task `t'` is what is left of `t` after one action. -/
inductive Next : Task κ α ε ρ π → Task κ α ε ρ π → Prop
  | load (a : κ) (k : Option α → Task κ α ε ρ π) (v : Option α) : Next (k v) (load a k)
  | store (a : κ) (v : α) (k : Task κ α ε ρ π) : Next k (store a v k)
  | emit (e : ε) (k : Task κ α ε ρ π) : Next k (emit e k)

theorem next_acc (t : Task κ α ε ρ π) : Acc Next t := by
  induction t with
  | ret r => exact ⟨_, fun _ h => by cases h⟩
  | panic p => exact ⟨_, fun _ h => by cases h⟩
  | load a k ih =>
    refine ⟨_, fun _ h => ?_⟩
    cases h
    exact ih _
  | store a v k ih =>
    refine ⟨_, fun _ h => ?_⟩
    cases h
    exact ih
  | emit e k ih =>
    refine ⟨_, fun _ h => ?_⟩
    cases h
    exact ih

end Task

/-! ## A pool of tasks on one memory -/

inductive Status (κ α ε ρ π : Type)
  | idle
  | running (t : Task κ α ε ρ π)
  | ended (o : Except π ρ)

/-- The memory, where each task is, and the calls that started a task: its
index and the memory at that moment. -/
structure Pool (μ κ α ε ρ π : Type) where
  mem : μ
  status : Nat → Status κ α ε ρ π
  calls : List (Nat × μ)

namespace Pool

/-- No task has started. -/
def init (m : μ) : Pool μ κ α ε ρ π := ⟨m, fun _ => .idle, []⟩

/-- Task `i` starts as `t`. -/
def start (p : Pool μ κ α ε ρ π) (i : Nat) (t : Task κ α ε ρ π) : Pool μ κ α ε ρ π :=
  { p with status := Function.update p.status i (.running t), calls := p.calls ++ [(i, p.mem)] }

/-- One action of task `i`, with the call it makes outside the memory, if any. -/
def advance (p : Pool μ κ α ε ρ π) (i : Nat) : Option (Option ε × Pool μ κ α ε ρ π) :=
  let goOn (m : μ) (s : Status κ α ε ρ π) : Pool μ κ α ε ρ π :=
    { p with mem := m, status := Function.update p.status i s }
  match p.status i with
  | .running (.ret r) => some (none, goOn p.mem (.ended (.ok r)))
  | .running (.panic q) => some (none, goOn p.mem (.ended (.error q)))
  | .running (.load a k) => some (none, goOn p.mem (.running (k (get p.mem a))))
  | .running (.store a v k) => some (none, goOn (set p.mem a v) (.running k))
  | .running (.emit e k) => some (some e, goOn p.mem (.running k))
  | _ => none

/-- What happens to the pool in one step: task `i` starts as `run i`, or acts. -/
inductive Move (run : Nat → Task κ α ε ρ π) (n : Nat) :
    Pool μ κ α ε ρ π → Pool μ κ α ε ρ π → Prop
  | start {p : Pool μ κ α ε ρ π} {i : Nat} (hi : i < n) (h : p.status i = .idle) :
      Move run n p (p.start i (run i))
  | act {p p' : Pool μ κ α ε ρ π} {e : Option ε} (i : Nat) (h : p.advance i = some (e, p')) :
      Move run n p p'

/-- All that one action of a task can be. -/
theorem advance_cases {p p' : Pool μ κ α ε ρ π} {i : Nat} {e : Option ε}
    (h : p.advance i = some (e, p')) : ∃ t s, p.status i = .running t ∧
      p'.status = Function.update p.status i s ∧ p'.calls = p.calls ∧
      ((∃ r, t = .ret r ∧ s = .ended (.ok r) ∧ p'.mem = p.mem) ∨
      (∃ q, t = .panic q ∧ s = .ended (.error q) ∧ p'.mem = p.mem) ∨
      (∃ a k, t = .load a k ∧ s = .running (k (get p.mem a)) ∧ p'.mem = p.mem) ∨
      (∃ a v k, t = .store a v k ∧ s = .running k ∧ p'.mem = set p.mem a v) ∨
      (∃ x k, t = .emit x k ∧ s = .running k ∧ p'.mem = p.mem)) := by
  unfold advance at h
  cases hs : p.status i with
  | idle => simp [hs] at h
  | ended o => simp [hs] at h
  | running t =>
    cases t <;> simp only [hs, Option.some.injEq, Prod.mk.injEq] at h <;> obtain ⟨-, rfl⟩ := h
    · exact ⟨_, _, rfl, rfl, rfl, .inl ⟨_, rfl, rfl, rfl⟩⟩
    · exact ⟨_, _, rfl, rfl, rfl, .inr (.inl ⟨_, rfl, rfl, rfl⟩)⟩
    · exact ⟨_, _, rfl, rfl, rfl, .inr (.inr (.inl ⟨_, _, rfl, rfl, rfl⟩))⟩
    · exact ⟨_, _, rfl, rfl, rfl, .inr (.inr (.inr (.inl ⟨_, _, _, rfl, rfl, rfl⟩)))⟩
    · exact ⟨_, _, rfl, rfl, rfl, .inr (.inr (.inr (.inr ⟨_, _, rfl, rfl, rfl⟩)))⟩

/-- An action leaves what the task would give and do if it were alone from there. -/
theorem advance_exec {p p' : Pool μ κ α ε ρ π} {i : Nat} {e : Option ε}
    (h : p.advance i = some (e, p')) : ∃ t, p.status i = .running t ∧
      ((∃ t', p'.status i = .running t' ∧ t'.exec p'.mem = t.exec p.mem) ∨
        ∃ o, p'.status i = .ended o ∧ (o, p'.mem) = t.exec p.mem) := by
  obtain ⟨t, s, ht, hs, -, hc⟩ := advance_cases h
  refine ⟨t, ht, ?_⟩
  rw [hs, Function.update_self]
  rcases hc with ⟨r, rfl, rfl, hm⟩ | ⟨q, rfl, rfl, hm⟩ | ⟨a, k, rfl, rfl, hm⟩ |
    ⟨a, v, k, rfl, rfl, hm⟩ | ⟨x, k, rfl, rfl, hm⟩ <;> rw [hm]
  · exact .inr ⟨_, rfl, rfl⟩
  · exact .inr ⟨_, rfl, rfl⟩
  · exact .inl ⟨_, rfl, rfl⟩
  · exact .inl ⟨_, rfl, rfl⟩
  · exact .inl ⟨_, rfl, rfl⟩

/-- A running task can always act. -/
theorem advance_of_running {p : Pool μ κ α ε ρ π} {i : Nat} {t : Task κ α ε ρ π}
    (h : p.status i = .running t) : ∃ e p', p.advance i = some (e, p') := by
  unfold advance
  rw [h]
  cases t <;> exact ⟨_, _, rfl⟩

end Pool

/-- Only tasks below `n` start, and each is called once, when it starts. -/
structure CalledOnce (n : Nat) (p : Pool μ κ α ε ρ π) : Prop where
  idle_above : ∀ i, n ≤ i → p.status i = .idle
  nodup : (p.calls.map (·.1)).Nodup
  called : ∀ i, i ∈ p.calls.map (·.1) ↔ p.status i ≠ .idle

omit [Memory μ κ α] in
theorem calledOnce_init (n : Nat) (m : μ) :
    CalledOnce n (Pool.init m : Pool μ κ α ε ρ π) where
  idle_above _ _ := rfl
  nodup := by simp [Pool.init]
  called i := by simp [Pool.init]

/-- An action changes one task, which was running and is not idle after it. -/
theorem Pool.advance_status {p p' : Pool μ κ α ε ρ π} {i : Nat} {e : Option ε}
    (h : p.advance i = some (e, p')) (j : Nat) : p'.status j = p.status j ∨
      (∃ t, p.status j = .running t) ∧ p'.status j ≠ .idle := by
  obtain ⟨t, s, hs, hs', -, hc⟩ := Pool.advance_cases h
  by_cases hji : j = i
  · subst hji
    refine .inr ⟨⟨t, hs⟩, ?_⟩
    rw [hs', Function.update_self]
    rcases hc with ⟨r, -, rfl, -⟩ | ⟨q, -, rfl, -⟩ | ⟨a, k, -, rfl, -⟩ | ⟨a, v, k, -, rfl, -⟩ |
      ⟨x, k, -, rfl, -⟩ <;> simp
  · exact .inl (by rw [hs', Function.update_of_ne hji])

omit [Memory μ κ α] in
theorem Pool.start_status (p : Pool μ κ α ε ρ π) (i : Nat) (t : Task κ α ε ρ π) (j : Nat) :
    (p.start i t).status j = p.status j ∨ j = i ∧ (p.start i t).status j = .running t := by
  by_cases hji : j = i
  · subst hji
    exact .inr ⟨rfl, Function.update_self ..⟩
  · exact .inl (Function.update_of_ne hji ..)

/-- A task that has acted is not back where it was before it started. -/
theorem Pool.advance_idle {p p' : Pool μ κ α ε ρ π} {i : Nat} {e : Option ε}
    (h : p.advance i = some (e, p')) (j : Nat) : p'.status j = .idle ↔ p.status j = .idle := by
  rcases Pool.advance_status h j with heq | ⟨⟨t, ht⟩, hne⟩
  · rw [heq]
  · simp [ht, hne]

omit [Memory μ κ α] in
theorem calledOnce_start {n : Nat} {p : Pool μ κ α ε ρ π} (h : CalledOnce n p) {i : Nat}
    (hi : i < n) (hidle : p.status i = .idle) (t : Task κ α ε ρ π) :
    CalledOnce n (p.start i t) := by
  have hnew : i ∉ p.calls.map (·.1) := fun hc => (h.called i).mp hc hidle
  refine ⟨fun j hj => ?_, ?_, fun j => ?_⟩
  · simp only [Pool.start, Function.update_of_ne (show j ≠ i by omega)]
    exact h.idle_above j hj
  · simp only [Pool.start, List.map_append, List.map_cons, List.map_nil]
    exact List.nodup_append.mpr ⟨h.nodup, List.nodup_singleton i, fun a ha b hb hab => by
      rw [List.mem_singleton.mp hb] at hab
      exact hnew (hab ▸ ha)⟩
  · simp only [Pool.start, List.map_append, List.map_cons, List.map_nil, List.mem_append,
      List.mem_singleton]
    by_cases hij : j = i
    · subst hij
      simp
    · simp only [hij, or_false, Function.update_of_ne hij]
      exact h.called j

theorem calledOnce_advance {n : Nat} {p p' : Pool μ κ α ε ρ π} (h : CalledOnce n p) {i : Nat}
    {e : Option ε} (ha : p.advance i = some (e, p')) : CalledOnce n p' := by
  obtain ⟨-, -, -, -, hcalls, -⟩ := Pool.advance_cases ha
  refine ⟨fun k hk => ?_, hcalls ▸ h.nodup, fun k => ?_⟩
  · exact (Pool.advance_idle ha k).mpr (h.idle_above k hk)
  · rw [hcalls, Ne, Pool.advance_idle ha k]
    exact h.called k

/-- A write changes what a cell holds, not which cells there are. -/
theorem isSome_move {run : Nat → Task κ α ε ρ π} {n : Nat} {p p' : Pool μ κ α ε ρ π}
    (hm : Pool.Move run n p p') (a : κ) : (get p'.mem a).isSome = (get p.mem a).isSome := by
  cases hm with
  | start hi h => rfl
  | act i h =>
    obtain ⟨t, s, -, -, -, hc⟩ := Pool.advance_cases h
    rcases hc with ⟨r, -, -, hm⟩ | ⟨q, -, -, hm⟩ | ⟨b, k, -, -, hm⟩ | ⟨b, v, k, -, -, hm⟩ |
      ⟨x, k, -, -, hm⟩ <;> rw [hm]
    by_cases hba : b = a
    · rw [hba, get_set_self, Option.isSome_map]
    · rw [get_set_ne _ _ hba]

/-! ## Tasks that keep to their own cells -/

section isolation

variable {run : Nat → Task κ α ε ρ π} {F : Nat → κ → Prop} {n : Nat} {m₀ : μ}

/-- The cells of task `i` are, at each moment, where task `i` alone would have
brought them from `m₀`, and what is left of the task ends as the whole task. -/
def OnTrack (F : κ → Prop) (t₀ : Task κ α ε ρ π) (m₀ m : μ) : Status κ α ε ρ π → Prop
  | .idle => Agree F m m₀
  | .running t =>
    t.Within F ∧ (t.exec m).1 = (t₀.exec m₀).1 ∧ Agree F (t.exec m).2 (t₀.exec m₀).2
  | .ended o => o = (t₀.exec m₀).1 ∧ Agree F m (t₀.exec m₀).2

/-- Every task is on track, each was called with its cells untouched, and no
cell outside the tasks' own ever changes. -/
structure Isolated (run : Nat → Task κ α ε ρ π) (F : Nat → κ → Prop) (n : Nat) (m₀ : μ)
    (p : Pool μ κ α ε ρ π) : Prop where
  on_track : ∀ i < n, OnTrack (F i) (run i) m₀ p.mem (p.status i)
  idle_above : ∀ i, n ≤ i → p.status i = .idle
  calls_fresh : ∀ c ∈ p.calls, Agree (F c.1) c.2 m₀
  rest : ∀ a, (∀ i < n, ¬ F i a) → get p.mem a = get m₀ a

theorem isolated_init (run : Nat → Task κ α ε ρ π) (F : Nat → κ → Prop) (n : Nat) (m₀ : μ) :
    Isolated run F n m₀ (Pool.init m₀) where
  on_track _ _ := fun _ _ => rfl
  idle_above _ _ := rfl
  calls_fresh _ hc := by cases hc
  rest _ _ := rfl

/-- A task stays on track when the memory changes outside its cells only. -/
theorem OnTrack.congr {F : κ → Prop} {t₀ : Task κ α ε ρ π} {m₀ m m' : μ}
    {s : Status κ α ε ρ π} (h : OnTrack F t₀ m₀ m s) (hm : Agree F m' m) :
    OnTrack F t₀ m₀ m' s := by
  cases s with
  | idle => exact hm.trans h
  | ended o => exact ⟨h.1, hm.trans h.2⟩
  | running t =>
    obtain ⟨h1, h2, h3⟩ := h
    obtain ⟨hr, ha⟩ := Task.exec_congr h1 hm
    exact ⟨h1, hr.trans h2, ha.trans h3⟩

/-- An action keeps its own task on track and touches no cell outside it. -/
theorem onTrack_advance {p p' : Pool μ κ α ε ρ π} {i : Nat} {e : Option ε} {F : κ → Prop}
    {t₀ : Task κ α ε ρ π} (h : OnTrack F t₀ m₀ p.mem (p.status i))
    (ha : p.advance i = some (e, p')) :
    OnTrack F t₀ m₀ p'.mem (p'.status i) ∧ ∀ a, ¬ F a → get p'.mem a = get p.mem a := by
  obtain ⟨t, s, hs, hs', -, hc⟩ := Pool.advance_cases ha
  rw [hs] at h
  rw [hs', Function.update_self]
  obtain ⟨h1, h2, h3⟩ := h
  rcases hc with ⟨r, rfl, rfl, hm⟩ | ⟨q, rfl, rfl, hm⟩ | ⟨a, k, rfl, rfl, hm⟩ |
    ⟨a, v, k, rfl, rfl, hm⟩ | ⟨x, k, rfl, rfl, hm⟩
  · rw [hm]
    exact ⟨⟨h2, h3⟩, fun _ _ => rfl⟩
  · rw [hm]
    exact ⟨⟨h2, h3⟩, fun _ _ => rfl⟩
  · rw [hm]
    exact ⟨⟨h1.2 _, h2, h3⟩, fun _ _ => rfl⟩
  · rw [hm]
    exact ⟨⟨h1.2, h2, h3⟩, fun b hb => get_set_ne _ _ fun hab => hb (hab ▸ h1.1)⟩
  · rw [hm]
    exact ⟨⟨h1, h2, h3⟩, fun _ _ => rfl⟩

theorem isolated_move (hd : ∀ i < n, ∀ j < n, i ≠ j → ∀ a, F i a → ¬ F j a)
    (hw : ∀ i < n, (run i).Within (F i)) {p p' : Pool μ κ α ε ρ π}
    (h : Isolated run F n m₀ p) (hm : Pool.Move run n p p') : Isolated run F n m₀ p' := by
  cases hm with
  | @start i hi hidle =>
    have hti := h.on_track i hi
    rw [hidle] at hti
    refine ⟨fun j hj => ?_, fun j hj => ?_, fun c hc => ?_, h.rest⟩
    · by_cases hij : j = i
      · subst hij
        simp only [Pool.start, Function.update_self]
        exact ⟨hw j hj, Task.exec_congr (hw j hj) hti⟩
      · simp only [Pool.start, Function.update_of_ne hij]
        exact h.on_track j hj
    · simp only [Pool.start, Function.update_of_ne (show j ≠ i by omega)]
      exact h.idle_above j hj
    · rcases List.mem_append.mp hc with hc | hc
      · exact h.calls_fresh c hc
      · cases List.mem_singleton.mp hc
        exact hti
  | act i ha =>
    have hin : i < n := by
      by_contra hge
      obtain ⟨t, -, hs, -⟩ := Pool.advance_cases ha
      rw [h.idle_above i (by omega)] at hs
      cases hs
    obtain ⟨hown, hframe⟩ := onTrack_advance (h.on_track i hin) ha
    obtain ⟨t, s, -, hs', hcalls, -⟩ := Pool.advance_cases ha
    refine ⟨fun j hj => ?_, fun j hj => ?_, fun c hc => ?_, fun a hna => ?_⟩
    · by_cases hij : j = i
      · subst hij
        exact hown
      · rw [hs', Function.update_of_ne hij]
        exact (h.on_track j hj).congr fun a hfa => hframe a (hd j hj i hin hij a hfa)
    · rw [hs', Function.update_of_ne (show j ≠ i by omega)]
      exact h.idle_above j hj
    · rw [hcalls] at hc
      exact h.calls_fresh c hc
    · rw [hframe a (hna i hin)]
      exact h.rest a hna

end isolation

/-! ## Every task ends -/

/-- The status `s'` comes after `s`. -/
inductive Status.Later : Status κ α ε ρ π → Status κ α ε ρ π → Prop
  | start (t : Task κ α ε ρ π) : Later (.running t) .idle
  | next {t t' : Task κ α ε ρ π} (h : t'.Next t) : Later (.running t') (.running t)
  | stop (o : Except π ρ) (t : Task κ α ε ρ π) : Later (.ended o) (.running t)

instance : IsWellFounded (Status κ α ε ρ π) Status.Later where
  wf := by
    have hended : ∀ o : Except π ρ,
        Acc Status.Later (Status.ended o : Status κ α ε ρ π) :=
      fun o => ⟨_, fun _ h => by cases h⟩
    have hrunning : ∀ t : Task κ α ε ρ π, Acc Status.Later (.running t) := by
      intro t
      induction Task.next_acc t with
      | intro t _ ih =>
        refine ⟨_, fun s h => ?_⟩
        cases h with
        | next h => exact ih _ h
        | stop o => exact hended o
    refine ⟨fun s => ?_⟩
    cases s with
    | idle =>
      refine ⟨_, fun s h => ?_⟩
      cases h
      exact hrunning _
    | running t => exact hrunning t
    | ended o => exact hended o

/-- How far each of the `n` tasks is from its end. -/
noncomputable def Pool.left (n : Nat) (p : Pool μ κ α ε ρ π) : Fin n → Ordinal :=
  fun i => IsWellFounded.rank Status.Later (p.status i)

omit [Memory μ κ α] in
theorem left_lt {n : Nat} {p p' : Pool μ κ α ε ρ π} {i : Nat} (hi : i < n)
    {s : Status κ α ε ρ π} (hs : p'.status = Function.update p.status i s)
    (hl : s.Later (p.status i)) : p'.left n < p.left n := by
  have hlt := IsWellFounded.rank_lt_of_rel hl
  rw [Pi.lt_def]
  refine ⟨fun j => ?_, ⟨i, hi⟩, ?_⟩
  · unfold Pool.left
    rw [hs]
    by_cases hj : (j : Nat) = i
    · rw [hj, Function.update_self]
      exact hlt.le
    · rw [Function.update_of_ne hj]
  · unfold Pool.left
    rw [hs, Function.update_self]
    exact hlt

omit [Memory μ κ α] in
theorem left_start_lt {n : Nat} {p : Pool μ κ α ε ρ π} {i : Nat} (hi : i < n)
    (h : p.status i = .idle) (t : Task κ α ε ρ π) : (p.start i t).left n < p.left n :=
  left_lt hi rfl (h ▸ .start t)

theorem left_advance_lt {n : Nat} {p p' : Pool μ κ α ε ρ π} {i : Nat} {e : Option ε} (hi : i < n)
    (h : p.advance i = some (e, p')) : p'.left n < p.left n := by
  obtain ⟨t, s, hs, hs', -, hc⟩ := Pool.advance_cases h
  apply left_lt hi hs'
  rw [hs]
  rcases hc with ⟨r, -, rfl, -⟩ | ⟨q, -, rfl, -⟩ | ⟨a, k, rfl, rfl, -⟩ |
    ⟨a, v, k, rfl, rfl, -⟩ | ⟨x, k, rfl, rfl, -⟩
  · exact .stop _ _
  · exact .stop _ _
  · exact .next (.load _ _ _)
  · exact .next (.store _ _ _)
  · exact .next (.emit _ _)

end tasks
