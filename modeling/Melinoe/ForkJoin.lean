-- A thread that starts tasks, leaves to each what is its own and the rest to a lock,
-- and goes on once all of them have ended. Whatever threads run the tasks, every two
-- accesses that conflict are ordered, and at the end the thread has seen them all.
import Melinoe.Clocks

namespace forkjoin

open clocks Clocks

variable {α : Type}

/-! ## Who may make which access -/

/-- `owns i x` says that task `i` may make the access `x`, and `locked x` that whoever
holds the lock may. Accesses that conflict are of one kind. -/
structure Discipline (R : α → α → Prop) (owns : Nat → α → Prop) (locked : α → Prop) : Prop where
  one_owner : ∀ x i j, owns i x → owns j x → i = j
  not_locked : ∀ x i, owns i x → ¬ locked x
  owns_conflict : ∀ x y i, R x y → owns i y → owns i x
  locked_conflict : ∀ x y, R x y → locked y → locked x

/-- The thread that starts the tasks, what it hands to each of them, the one that runs
each, and who has the lock: its holder, or the lock itself. Each is known by its clock. -/
structure Parties where
  home : Nat
  call : Nat
  runner : Nat → Nat
  guard : Nat

/-- The access is one of `made`, and every started task has seen it. -/
def Published (p : Parties) (made : Finset Nat) (started : Nat → Prop) (c : Clocks α) (pos : Nat) :
    Prop :=
  pos ∈ made ∧ ∀ i, started i → pos ∈ c.knows (p.runner i)

/-- Every access is published, or its task's own, or the lock has seen it. What is
published is `made` before any task starts. -/
structure Ledger (R : α → α → Prop) (owns : Nat → α → Prop) (locked : α → Prop) (p : Parties)
    (made : Finset Nat) (started : Nat → Prop) (c : Clocks α) : Prop where
  sound : c.Sound
  raceless : c.Raceless R
  call : made ⊆ c.knows p.call
  parties : ∀ (pos : Nat) (e : Entry α), c.trace[pos]? = some e →
    e.thread = p.home ∨ ∃ i, started i ∧ e.thread = p.runner i
  own : ∀ (pos : Nat) (e : Entry α), c.trace[pos]? = some e → ∀ i, owns i e.access →
    e.thread = p.runner i ∨ Published p made started c pos
  guarded : ∀ (pos : Nat) (e : Entry α), c.trace[pos]? = some e → locked e.access →
    Published p made started c pos ∨ pos ∈ c.knows p.guard

section ledger

variable {R : α → α → Prop} {owns : Nat → α → Prop} {locked : α → Prop} {p : Parties}
  {made : Finset Nat} {started : Nat → Prop} {c d : Clocks α}

/-! ## What the threads do -/

/-- Before any task is started, all that was done is handed to them. -/
theorem ledger_of_call (hs : c.Sound) (hr : c.Raceless R)
    (hhome : ∀ (pos : Nat) (e : Entry α), c.trace[pos]? = some e → e.thread = p.home ∧ pos ∈ made)
    (hcall : made ⊆ c.knows p.call) (hnone : ∀ i, ¬ started i) :
    Ledger R owns locked p made started c where
  sound := hs
  raceless := hr
  call := hcall
  parties pos e he := .inl (hhome pos e he).1
  own pos e he _ _ := .inr ⟨(hhome pos e he).2, fun i hi => absurd hi (hnone i)⟩
  guarded pos e he _ := .inl ⟨(hhome pos e he).2, fun i hi => absurd hi (hnone i)⟩

/-- To synchronise does no harm. -/
theorem Ledger.mono (h : Ledger R owns locked p made started c) (hs : d.Sound)
    (htrace : d.trace = c.trace) (hknows : ∀ t, c.knows t ⊆ d.knows t) :
    Ledger R owns locked p made started d := by
  have hpublished : ∀ pos, Published p made started c pos → Published p made started d pos :=
    fun pos hp => ⟨hp.1, fun i hi => hknows _ (hp.2 i hi)⟩
  refine ⟨hs, raceless_congr h.raceless htrace, h.call.trans (hknows _), ?_, ?_, ?_⟩ <;> rw [htrace]
  · exact h.parties
  · intro pos e he i hi
    exact (h.own pos e he i hi).imp_right (hpublished pos)
  · intro pos e he hl
    exact (h.guarded pos e he hl).imp (hpublished pos) fun hk => hknows _ hk

theorem Ledger.join (h : Ledger R owns locked p made started c) (t u : Nat) :
    Ledger R owns locked p made started (c.join t u) :=
  h.mono (sound_join h.sound t u) (join_trace c t u) (knows_join c t u)

/-- A task starts that has seen what was handed to it. -/
theorem Ledger.start (h : Ledger R owns locked p made started c) {i : Nat} {started' : Nat → Prop}
    (hstarted : ∀ j, started' j ↔ started j ∨ j = i) (hmade : made ⊆ c.knows (p.runner i)) :
    Ledger R owns locked p made started' c := by
  have hpublished : ∀ pos, Published p made started c pos → Published p made started' c pos := by
    intro pos hp
    refine ⟨hp.1, fun j hj => ?_⟩
    rcases (hstarted j).mp hj with hj | rfl
    · exact hp.2 j hj
    · exact hmade hp.1
  refine ⟨h.sound, h.raceless, h.call, fun pos e he => ?_, fun pos e he j hj => ?_,
    fun pos e he hl => ?_⟩
  · refine (h.parties pos e he).imp_right fun hrun => ?_
    obtain ⟨j, hj, ht⟩ := hrun
    exact ⟨j, (hstarted j).mpr (.inl hj), ht⟩
  · exact (h.own pos e he j hj).imp_right (hpublished pos)
  · exact (h.guarded pos e he hl).imp_left (hpublished pos)

/-- A task starts on a thread that synchronises with the call. -/
theorem Ledger.start_called (h : Ledger R owns locked p made started c) {i : Nat}
    {started' : Nat → Prop} (hstarted : ∀ j, started' j ↔ started j ∨ j = i) :
    Ledger R owns locked p made started' (c.join p.call (p.runner i)) :=
  (h.join p.call (p.runner i)).start hstarted (h.call.trans (knows_joined c _ _))

/-- What has been published stays published. -/
theorem published_record {pos : Nat} (h : Published p made started c pos) (t : Nat) (x : α) :
    Published p made started (c.record t x) pos :=
  ⟨h.1, fun i hi => knows_record c t x _ (h.2 i hi)⟩

/-- A started task makes an access that is its own. -/
theorem Ledger.access (hd : Discipline R owns locked) (h : Ledger R owns locked p made started c)
    {i : Nat} {x : α} (hi : started i) (hx : owns i x) :
    Ledger R owns locked p made started (c.record (p.runner i) x) := by
  have hseen : c.Knows (p.runner i) fun y => R y x := by
    intro pos e he hR
    rcases h.own pos e he i (hd.owns_conflict _ _ i hR hx) with ht | hp
    · have hprogram := h.sound.program pos e he
      rwa [ht] at hprogram
    · exact hp.2 i hi
  refine ⟨sound_record h.sound _ x, raceless_record h.raceless hseen,
    h.call.trans (knows_record c _ x _), fun pos e he => ?_, fun pos e he j hj => ?_,
    fun pos e he hl => ?_⟩
  · rcases trace_record he with he | ⟨-, rfl⟩
    · exact h.parties pos e he
    · exact .inr ⟨i, hi, rfl⟩
  · rcases trace_record he with he | ⟨-, rfl⟩
    · exact (h.own pos e he j hj).imp_right fun hp => published_record hp _ x
    · rw [hd.one_owner x j i hj hx]
      exact .inl rfl
  · rcases trace_record he with he | ⟨-, rfl⟩
    · exact (h.guarded pos e he hl).imp (fun hp => published_record hp _ x)
        fun hk => knows_record c _ x _ hk
    · exact absurd hl (hd.not_locked x i hx)

/-- A task takes the lock: it has then seen what the lock had seen. -/
theorem Ledger.lock (h : Ledger R owns locked p made started c) {i : Nat} :
    Ledger R owns locked { p with guard := p.runner i } made started
      (c.join p.guard (p.runner i)) := by
  have hjoin := h.join p.guard (p.runner i)
  refine ⟨hjoin.sound, hjoin.raceless, hjoin.call, hjoin.parties, hjoin.own,
    fun pos e he hl => ?_⟩
  rw [join_trace] at he
  rcases h.guarded pos e he hl with hp | hk
  · exact .inl ⟨hp.1, fun j hj => knows_join c _ _ _ (hp.2 j hj)⟩
  · exact .inr (knows_joined c _ _ hk)

/-- The holder of the lock makes an access that the lock protects. -/
theorem Ledger.locked_access (hd : Discipline R owns locked)
    (h : Ledger R owns locked p made started c) {i : Nat} {x : α} (hi : started i)
    (hguard : p.guard = p.runner i) (hx : locked x) :
    Ledger R owns locked p made started (c.record (p.runner i) x) := by
  have hseen : c.Knows (p.runner i) fun y => R y x := by
    intro pos e he hR
    rcases h.guarded pos e he (hd.locked_conflict _ _ hR hx) with hp | hk
    · exact hp.2 i hi
    · rwa [hguard] at hk
  refine ⟨sound_record h.sound _ x, raceless_record h.raceless hseen,
    h.call.trans (knows_record c _ x _), fun pos e he => ?_, fun pos e he j hj => ?_,
    fun pos e he hl => ?_⟩
  · rcases trace_record he with he | ⟨-, rfl⟩
    · exact h.parties pos e he
    · exact .inr ⟨i, hi, rfl⟩
  · rcases trace_record he with he | ⟨-, rfl⟩
    · exact (h.own pos e he j hj).imp_right fun hp => published_record hp _ x
    · exact absurd hx (hd.not_locked x j hj)
  · rcases trace_record he with he | ⟨rfl, rfl⟩
    · exact (h.guarded pos e he hl).imp (fun hp => published_record hp _ x)
        fun hk => knows_record c _ x _ hk
    · rw [hguard]
      exact .inr (knows_recorded c _ x)

/-- The holder lets go of the lock, which has then seen what the holder had. -/
theorem Ledger.unlock (h : Ledger R owns locked p made started c) {lock : Nat} :
    Ledger R owns locked { p with guard := lock } made started (c.join p.guard lock) := by
  have hjoin := h.join p.guard lock
  refine ⟨hjoin.sound, hjoin.raceless, hjoin.call, hjoin.parties, hjoin.own,
    fun pos e he hl => ?_⟩
  rw [join_trace] at he
  rcases h.guarded pos e he hl with hp | hk
  · exact .inl ⟨hp.1, fun j hj => knows_join c _ _ _ (hp.2 j hj)⟩
  · exact .inr (knows_joined c _ _ hk)

/-- The thread that started the tasks waits for every one that runs elsewhere: it has
then seen every access. -/
theorem Ledger.collect (h : Ledger R owns locked p made started c) {threads : List Nat}
    (hall : ∀ i, started i → p.runner i = p.home ∨ p.runner i ∈ threads) :
    (c.joins threads p.home).Sound ∧ (c.joins threads p.home).Raceless R ∧
      (c.joins threads p.home).Knows p.home fun _ => True := by
  refine ⟨sound_joins h.sound _ _, raceless_congr h.raceless (joins_trace c _ _), ?_⟩
  intro pos e he _
  rw [joins_trace] at he
  have hprogram := h.sound.program pos e he
  rcases h.parties pos e he with ht | ⟨i, hi, ht⟩
  · rw [ht] at hprogram
    exact knows_joins c _ _ _ hprogram
  · rw [ht] at hprogram
    rcases hall i hi with hhome | hmem
    · rw [hhome] at hprogram
      exact knows_joins c _ _ _ hprogram
    · exact knows_all_joined c _ hmem hprogram

end ledger

end forkjoin
