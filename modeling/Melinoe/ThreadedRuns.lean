-- Laws of every run of permits, views and accesses on threads: no two accesses are
-- a data race, what a thread-local token lends stays on its thread, and a shared view
-- shows the same as long as it lives.
import Melinoe.ThreadedPermits

open loans runs clocks

namespace melinoe.token

variable {A : Type} [DecidableEq A] {brandOf : A → Nat} {isAtomic : A → Bool} {st st' : Threads A}

/-! ## What every state has -/

structure RunInv (brandOf : A → Nat) (isAtomic : A → Bool) (st : Threads A) : Prop where
  ledger : Inv brandOf st.forget
  seen : Seen brandOf isAtomic st
  raceless : Raceless st
  sound : st.clocks.Sound

/-- A step leaves the accesses and what is seen of them alone, or it is one join or
one access. -/
theorem clocks_step (hs : Threads.Step brandOf isAtomic st st') :
    st'.clocks = st.clocks ∨ Clocks.Step st.clocks st'.clocks := by
  cases hs with
  | send_permit | end_permit | send_view | end_view | send | sync => exact .inr (.join _ _)
  | access => exact .inr (.record _ _)
  | _ => exact .inl rfl

theorem trace_step (hs : Threads.Step brandOf isAtomic st st') :
    st'.clocks.trace = st.clocks.trace ∨ ∃ v ∈ st.views, ∃ x ∈ v.value.places, ∃ mode,
      (v.value.kind = .shared → mode = shared_mode isAtomic x) ∧
      st' = { st with clocks := st.clocks.record v.thread ⟨x, mode⟩ } := by
  cases hs with
  | @access v x mode hv hx hm => exact .inr ⟨v, hv, x, hx, mode, hm, rfl⟩
  | _ => exact .inl rfl

omit [DecidableEq A] in
theorem runInv_init : RunInv brandOf isAtomic Threads.init where
  ledger := inv_init
  seen := seen_init
  raceless := Clocks.raceless_init _
  sound := Clocks.sound_init

theorem runInv_step (h : RunInv brandOf isAtomic st) (hs : Threads.Step brandOf isAtomic st st') :
    RunInv brandOf isAtomic st' := by
  refine ⟨?_, seen_step h.ledger h.seen hs, ?_, ?_⟩
  · rcases forget_step hs with heq | hstep
    · rw [heq]
      exact h.ledger
    · exact inv_step h.ledger hstep
  · rcases trace_step hs with heq | ⟨v, hv, x, hx, mode, hm, rfl⟩
    · exact Clocks.raceless_congr h.raceless heq
    · exact raceless_access h.seen h.raceless hv hx hm
  · rcases clocks_step hs with heq | hstep
    · rw [heq]
      exact h.sound
    · exact Clocks.sound_step h.sound hstep

theorem runInv_of_run (h : Reaches (Threads.Step brandOf isAtomic) Threads.init st) :
    RunInv brandOf isAtomic st :=
  inv_of_reaches h runInv_init fun _ _ => runInv_step

/-! ## Races -/

theorem Mode.Conflicts.symm {m n : Mode} (h : m.Conflicts n) : n.Conflicts m := by
  rcases h with rfl | h
  · by_cases hn : n = .write
    · exact .inl hn
    · exact .inr hn
  · exact .inr h.symm

omit [DecidableEq A] in
theorem conflicting_are_ordered (h : RunInv brandOf isAtomic st) {i j : Nat}
    {e f : Entry (Touch A)} (he : st.clocks.trace[i]? = some e) (hf : st.clocks.trace[j]? = some f)
    (hij : i ≠ j) (hplace : e.access.place = f.access.place)
    (hc : e.access.mode.Conflicts f.access.mode) :
    st.clocks.HappensBefore i j ∨ st.clocks.HappensBefore j i := by
  apply Clocks.Raceless.ordered h.raceless (fun x y hxy => ?_) he hf hij ⟨hplace, hc⟩
  exact ⟨hxy.1.symm, hxy.2.symm⟩

/-- In every run, whatever is sent, shared, split and joined, two accesses of one place
of which one may write and not both are atomic are ordered: one happens before the
other. Happens-before goes along the trace, and holds of all that one thread does. -/
theorem no_two_accesses_race (brandOf : A → Nat) (isAtomic : A → Bool)
    (h : Reaches (Threads.Step brandOf isAtomic) Threads.init st) :
    (∀ i j (e f : Entry (Touch A)), st.clocks.trace[i]? = some e → st.clocks.trace[j]? = some f →
      i ≠ j → e.access.place = f.access.place → e.access.mode.Conflicts f.access.mode →
      st.clocks.HappensBefore i j ∨ st.clocks.HappensBefore j i) ∧
    (∀ i j, st.clocks.HappensBefore i j → i < j) ∧
    (∀ i j (e f : Entry (Touch A)), st.clocks.trace[i]? = some e → st.clocks.trace[j]? = some f →
      i < j → e.thread = f.thread → st.clocks.HappensBefore i j) := by
  have hinv := runInv_of_run h
  exact ⟨fun i j e f => conflicting_are_ordered hinv, fun i j => Clocks.happensBefore_lt hinv.sound,
    fun i j e f he hf hij ht => ⟨f, hf, hinv.sound.ordered i j e f he hf hij ht⟩⟩

omit [DecidableEq A] in
theorem entry_of_map {B : Type} {f : Entry (Touch A) → B} {made : List (Entry (Touch A))}
    {l : List B} (h : made.map f = l) {i : Nat} {b : B} (hb : l[i]? = some b) :
    ∃ e, made[i]? = some e ∧ f e = b := by
  rw [← h, List.getElem?_map] at hb
  exact Option.map_eq_some_iff.mp hb

/-- A fence that its owner sets, a second thread bumps, and the owner then reads. -/
theorem fence_run : ∃ st : Threads Nat,
    Reaches (Threads.Step (fun _ => 0) fun _ => true) Threads.init st ∧
    st.clocks.trace.map (fun e => (e.thread, e.access)) =
      [(0, ⟨0, .write⟩), (1, ⟨0, .atomic⟩), (0, ⟨0, .read⟩)] := by
  let owners : List Owner := [⟨.SyncRegionFamily, 0⟩]
  let object : Object fun _ : Nat => 0 := ⟨0, .atomic ⟨{0}⟩, fun _ _ => rfl⟩
  let unique (id : Nat) : Permit Nat := ⟨.mut_ref, ⟨id, 0, .exclusive⟩, rfl⟩
  let plain (id : Nat) : View Nat := ⟨(unique id).loan, .exclusive, {0}, fun _ => rfl⟩
  let token : Permit Nat := ⟨.SharedReadToken, ⟨1, 0, .shared⟩, rfl⟩
  let fence : View Nat := ⟨token.loan, .shared, {0}, fun h => by cases h⟩
  let set : Clocks (Touch Nat) := Clocks.init.record 0 ⟨0, .write⟩
  let sent : Clocks (Touch Nat) := (set.join 0 0).join 0 1
  let bumped : Clocks (Touch Nat) := sent.record 1 ⟨0, .atomic⟩
  let joined : Clocks (Touch Nat) := bumped.join 1 0
  let Next := Threads.Step (fun _ : Nat => 0) fun _ => true
  -- the owner sets the fence
  have h0 : Next Threads.init ⟨owners, [], [], 0, .init⟩ := .with_fresh_token _ _
  have h1 : Next ⟨owners, [], [], 0, .init⟩ ⟨owners, [⟨0, unique 0⟩], [], 1, .init⟩ :=
    @Threads.Step.borrow_owner _ _ _ _ ⟨owners, [], [], 0, .init⟩ 0 _ .mut_ref rfl rfl
      (admits_nil _ _)
  have h2 : Next ⟨owners, [⟨0, unique 0⟩], [], 1, .init⟩ ⟨owners, [], [⟨0, plain 0⟩], 1, .init⟩ :=
    @Threads.Step.call _ _ _ _ _ ⟨0, unique 0⟩ [] object _ (.refl _) rfl (.with_exclusive _) rfl
  have h3 : Next ⟨owners, [], [⟨0, plain 0⟩], 1, .init⟩ ⟨owners, [], [⟨0, plain 0⟩], 1, set⟩ :=
    @Threads.Step.access _ _ _ _ _ ⟨0, plain 0⟩ 0 .write (by simp) (by decide) fun h => by cases h
  have h4 : Next ⟨owners, [], [⟨0, plain 0⟩], 1, set⟩ ⟨owners, [], [], 1, set.join 0 0⟩ :=
    @Threads.Step.end_view _ _ _ _ _ ⟨0, plain 0⟩ [] 0 (.refl _)
      (@Threads.Holds.owner _ _ _ ⟨.SyncRegionFamily, 0⟩ rfl)
  -- a second thread bumps it with a shared token
  have h5 : Next ⟨owners, [], [], 1, set.join 0 0⟩ ⟨owners, [⟨0, token⟩], [], 2, set.join 0 0⟩ :=
    @Threads.Step.borrow_owner _ _ _ _ ⟨owners, [], [], 1, set.join 0 0⟩ 0 _ .SharedReadToken
      rfl rfl (admits_nil _ _)
  have h6 : Next ⟨owners, [⟨0, token⟩], [], 2, set.join 0 0⟩ ⟨owners, [⟨1, token⟩], [], 2, sent⟩ :=
    @Threads.Step.send_permit _ _ _ _ _ ⟨0, token⟩ [] [] _ 1 rfl rfl rfl
  have h7 : Next ⟨owners, [⟨1, token⟩], [], 2, sent⟩ ⟨owners, [], [⟨1, fence⟩], 2, sent⟩ :=
    @Threads.Step.call _ _ _ _ _ ⟨1, token⟩ [] object _ (.refl _) rfl (.as_atomic _) rfl
  have h8 : Next ⟨owners, [], [⟨1, fence⟩], 2, sent⟩ ⟨owners, [], [⟨1, fence⟩], 2, bumped⟩ :=
    @Threads.Step.access _ _ _ _ _ ⟨1, fence⟩ 0 .atomic (by simp) (by decide) fun _ => rfl
  have h9 : Next ⟨owners, [], [⟨1, fence⟩], 2, bumped⟩ ⟨owners, [], [], 2, joined⟩ :=
    @Threads.Step.end_view _ _ _ _ _ ⟨1, fence⟩ [] 0 (.refl _)
      (@Threads.Holds.owner _ _ _ ⟨.SyncRegionFamily, 0⟩ rfl)
  -- the owner reads it
  have h10 : Next ⟨owners, [], [], 2, joined⟩ ⟨owners, [⟨0, unique 2⟩], [], 3, joined⟩ :=
    @Threads.Step.borrow_owner _ _ _ _ ⟨owners, [], [], 2, joined⟩ 0 _ .mut_ref rfl rfl
      (admits_nil _ _)
  have h11 : Next ⟨owners, [⟨0, unique 2⟩], [], 3, joined⟩
      ⟨owners, [], [⟨0, plain 2⟩], 3, joined⟩ :=
    @Threads.Step.call _ _ _ _ _ ⟨0, unique 2⟩ [] object _ (.refl _) rfl (.with_exclusive _) rfl
  have h12 : Next ⟨owners, [], [⟨0, plain 2⟩], 3, joined⟩
      ⟨owners, [], [⟨0, plain 2⟩], 3, joined.record 0 ⟨0, .read⟩⟩ :=
    @Threads.Step.access _ _ _ _ _ ⟨0, plain 2⟩ 0 .read (by simp) (by decide) fun h => by cases h
  have hrun := Relation.ReflTransGen.refl.tail h0 |>.tail h1 |>.tail h2 |>.tail h3 |>.tail h4
    |>.tail h5 |>.tail h6 |>.tail h7 |>.tail h8 |>.tail h9 |>.tail h10 |>.tail h11 |>.tail h12
  exact ⟨_, hrun, rfl⟩

/-- The plain write, the atomic access and the plain read of the fence are ordered. -/
theorem a_fence_is_handed_over_and_back : ∃ st : Threads Nat,
    st.clocks.trace.map (fun e => (e.thread, e.access)) =
      [(0, ⟨0, .write⟩), (1, ⟨0, .atomic⟩), (0, ⟨0, .read⟩)] ∧
    (st.clocks.HappensBefore 0 1 ∨ st.clocks.HappensBefore 1 0) ∧
    (st.clocks.HappensBefore 1 2 ∨ st.clocks.HappensBefore 2 1) := by
  obtain ⟨st, hrun, htrace⟩ := fence_run
  have hrace := (no_two_accesses_race _ _ hrun).1
  obtain ⟨e0, h0, ha0⟩ := entry_of_map htrace (i := 0) rfl
  obtain ⟨e1, h1, ha1⟩ := entry_of_map htrace (i := 1) rfl
  obtain ⟨e2, h2, ha2⟩ := entry_of_map htrace (i := 2) rfl
  simp only [Prod.mk.injEq] at ha0 ha1 ha2
  refine ⟨st, htrace, hrace 0 1 e0 e1 h0 h1 (by decide) ?_ ?_,
    hrace 1 2 e1 e2 h1 h2 (by decide) ?_ ?_⟩
  · rw [ha0.2, ha1.2]
  · rw [ha0.2, ha1.2]
    exact .inl rfl
  · rw [ha1.2, ha2.2]
  · rw [ha1.2, ha2.2]
    exact .inr (by decide)

/-! ## Threads that a token does not leave -/

/-- What a family does not allow, no permit of its brand does. -/
def Confined (st : Threads A) : Prop :=
  ∀ p ∈ st.permits, ∀ owner, st.owners[p.value.loan.of]? = some owner →
    (owner.family.is_send = false → p.thread = owner.thread) ∧
    (owner.family.share = false → p.value.carrier ≠ .SharedReadToken)

omit [DecidableEq A] in
theorem confined_of_subset (h : Confined st) (ho : st'.owners = st.owners)
    (hp : ∀ p ∈ st'.permits, p ∈ st.permits) : Confined st' := by
  intro p hmem owner howner
  rw [ho] at howner
  exact h p (hp p hmem) owner howner

theorem confined_step (hseen : Seen brandOf isAtomic st) (h : Confined st)
    (hs : Threads.Step brandOf isAtomic st st') : Confined st' := by
  have hminted : ∀ p ∈ st.permits, p.value.loan.of < st.owners.length := fun p hp =>
    hseen.minted _ (mem_holdings.mpr (.inl ⟨p, hp, rfl⟩))
  cases hs with
  | with_fresh_token family thread =>
    intro p hp owner ho
    rw [List.getElem?_append_left (hminted p hp)] at ho
    exact h p hp owner ho
  | @borrow_owner brand owner carrier ho hl ha =>
    intro p hp lender hlender
    rcases List.mem_cons.mp hp with rfl | hp
    · have heq : owner = lender := by simpa [ho] using hlender
      subst heq
      refine ⟨fun _ => rfl, fun hshare hcarrier => ?_⟩
      simp only at hcarrier
      rw [hcarrier] at hl
      simp [Owner.lends, hshare] at hl
    · exact h p hp lender hlender
  | @copy_permit p hp hc =>
    refine confined_of_subset h rfl fun q hq => ?_
    rcases List.mem_cons.mp hq with rfl | hq
    · exact hp
    · exact hq
  | @send_permit p before after owner thread hp ho hs =>
    intro q hq lender hlender
    simp only [Threads.join, List.mem_append, List.mem_cons] at hq hlender
    rcases hq with hq | rfl | hq
    · exact h q (by simp [hp, hq]) lender hlender
    · have heq : owner = lender := by simpa [ho] using hlender
      subst heq
      obtain ⟨-, hshare⟩ := h p (by simp [hp]) owner ho
      refine ⟨fun hfixed => ?_, hshare⟩
      rw [hs] at hfixed
      cases hfixed
    · exact h q (by simp [hp, hq]) lender hlender
  | end_permit hp hh =>
    exact confined_of_subset h rfl fun q hq => hp.mem_iff.mpr (List.mem_cons_of_mem _ hq)
  | call hp hb ho ha =>
    exact confined_of_subset h rfl fun q hq => hp.mem_iff.mpr (List.mem_cons_of_mem _ hq)
  | @send brand thread owner ho hs hl =>
    intro p hp lender hlender
    have hne : p.value.loan.of ≠ brand :=
      hl _ (State.mem_loans.mpr (.inl ⟨_, List.mem_map_of_mem hp, rfl⟩))
    simp only [Threads.join, List.getElem?_set_ne hne.symm] at hlender
    exact h p hp lender hlender
  | _ => exact confined_of_subset h rfl fun _ => id

theorem confined_of_run (h : Reaches (Threads.Step brandOf isAtomic) Threads.init st) :
    Confined st := by
  have hboth : RunInv brandOf isAtomic st ∧ Confined st := by
    refine inv_of_reaches (I := fun u => RunInv brandOf isAtomic u ∧ Confined u) h
      ⟨runInv_init, fun p hp => by cases hp⟩ fun a b hab hs => ?_
    exact ⟨runInv_step hab.1 hs, confined_step hab.1.seen hab.2 hs⟩
  exact hboth.2

/-- The owner of a brand whose family is not `Send` stays in its place. -/
theorem owner_stays {brand : Nat} {owner : Owner} (ho : st.owners[brand]? = some owner)
    (hf : owner.family.is_send = false) (h : Reaches (Threads.Step brandOf isAtomic) st st') :
    st'.owners[brand]? = some owner := by
  apply inv_of_reaches (I := fun u => u.owners[brand]? = some owner) h ho
  intro a b ha hab
  cases hab with
  | with_fresh_token family thread =>
    rw [List.getElem?_append_left (List.getElem?_eq_some_iff.mp ha).1]
    exact ha
  | @send moved thread sent hs hsend hl =>
    have hne : moved ≠ brand := by
      rintro rfl
      rw [ha, Option.some.injEq] at hs
      rw [← hs, hf] at hsend
      cases hsend
    simpa [Threads.join, List.getElem?_set_ne hne] using ha
  | _ => exact ha

/-- Once a thread-local token is minted, then in every later state the token is where
it was, every borrow of it is on that thread, and none is a `SharedReadToken`. -/
theorem a_thread_local_token_lends_on_its_thread_only (brandOf : A → Nat) (isAtomic : A → Bool)
    {brand : Nat} {owner : Owner} (h : Reaches (Threads.Step brandOf isAtomic) Threads.init st)
    (ho : st.owners[brand]? = some owner) (hf : owner.family = .ThreadLocalFamily)
    (h' : Reaches (Threads.Step brandOf isAtomic) st st') :
    st'.owners[brand]? = some owner ∧ ∀ p ∈ st'.permits, p.value.loan.of = brand →
      p.thread = owner.thread ∧ p.value.carrier ≠ .SharedReadToken := by
  have hstays := owner_stays ho (by rw [hf]; rfl) h'
  refine ⟨hstays, fun p hp hof => ?_⟩
  obtain ⟨hthread, hshare⟩ := confined_of_run (h.trans h') p hp owner (by rw [hof]; exact hstays)
  exact ⟨hthread (by rw [hf]; rfl), hshare (by rw [hf]; rfl)⟩

theorem a_thread_local_token_lends_on_thread_three : ∃ st' : Threads Nat,
    st'.permits.map (fun p => (p.thread, p.value.carrier)) = [(3, .mut_ref)] ∧
    st'.owners[0]? = some ⟨.ThreadLocalFamily, 3⟩ ∧ ∀ p ∈ st'.permits, p.value.loan.of = 0 →
      p.thread = 3 ∧ p.value.carrier ≠ .SharedReadToken := by
  let owners : List Owner := [⟨.ThreadLocalFamily, 3⟩]
  let unique : Placed (Permit Nat) := ⟨3, .mut_ref, ⟨0, 0, .exclusive⟩, rfl⟩
  have hmint : Threads.Step (fun _ : Nat => 0) (fun _ => false) Threads.init
      ⟨owners, [], [], 0, .init⟩ := .with_fresh_token _ _
  have hborrow : Threads.Step (fun _ : Nat => 0) (fun _ => false) ⟨owners, [], [], 0, .init⟩
      ⟨owners, [unique], [], 1, .init⟩ :=
    @Threads.Step.borrow_owner _ _ _ _ ⟨owners, [], [], 0, .init⟩ 0 _ .mut_ref rfl rfl
      (admits_nil _ _)
  exact ⟨_, rfl, a_thread_local_token_lends_on_its_thread_only _ _ (.single hmint) rfl rfl
    (.single hborrow)⟩

/-! ## A shared view beside what unique ownership may do -/

/-- A live shared view reaches the place. -/
def Threads.Shows (st : Threads A) (x : A) : Prop :=
  ∃ v ∈ st.views, v.value.kind = .shared ∧ x ∈ v.value.places

end melinoe.token
