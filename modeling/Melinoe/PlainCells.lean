-- What the threads of a program read in its plain cells (`cell/melinoe_cell.rs`):
-- the cells are one memory that the accesses come to one by one, as the trace has
-- them. No cell synchronizes anything; what the permits exclude is enough.
import Melinoe.ConditionalAtomics

open loans runs clocks executions

namespace melinoe.cell

open token atomic

variable {A V : Type} [DecidableEq A] {brandOf : A → Nat} {isAtomic : A → Bool}
  {st : Threads A}

/-! ## The accesses of the plain cells -/

/-- What the access at position `k` of the trace does, if its place is a plain cell. -/
def memory_event (isAtomic : A → Bool) (G : A → Execution V) (st : Threads A) (k : Nat) :
    Option (A × Label V) :=
  match st.clocks.trace[k]? with
  | none => none
  | some e =>
    if isAtomic e.access.place then none
    else some (e.access.place, (G e.access.place).label k)

/-- The accesses of all plain cells, in the order of the trace. -/
def memory_events (isAtomic : A → Bool) (G : A → Execution V) (st : Threads A) :
    List (A × Label V) :=
  (List.range st.clocks.trace.length).filterMap (memory_event isAtomic G st)

/-- An execution for each plain cell, each by the rules of the memory model. A cell
is accessed through references, so no access of it is atomic. -/
structure OfCells (isAtomic : A → Bool) (st : Threads A) (G : A → Execution V) : Prop where
  of_place : ∀ x, isAtomic x = false → OfPlace st x (G x)
  consistent : ∀ x, isAtomic x = false → (G x).Consistent
  plain : ∀ (k : Nat) e, st.clocks.trace[k]? = some e → isAtomic e.access.place = false →
    e.access.mode ≠ .atomic

variable {G : A → Execution V} {x : A}

/-- The events of one cell among those of all. -/
theorem eventsAt_memory (h : OfCells isAtomic st G) (hx : isAtomic x = false) :
    eventsAt x (memory_events isAtomic G st) = (G x).events.map (G x).label := by
  let there : Nat → Bool := fun k => st.clocks.trace[k]?.map (·.access.place) = some x
  have hevent : ∀ k, ((memory_event isAtomic G st k).bind fun (y, event) =>
      if y = x then some event else none) =
      (Option.guard there k).map (G x).label := by
    intro k
    unfold memory_event
    cases hk : st.clocks.trace[k]? with
    | none => simp [there, hk, Option.guard]
    | some e =>
      by_cases hplace : e.access.place = x
      · simp [there, hk, Option.guard, hplace, hx]
      · cases ha : isAtomic e.access.place <;> simp [there, hk, Option.guard, hplace]
  have hpositions : (List.range st.clocks.trace.length).filter there = (G x).events := by
    apply Execution.eq_events (List.pairwise_lt_range.filter there)
    intro k
    rw [(h.of_place x hx).events k, List.mem_filter, List.mem_range]
    constructor
    · rintro ⟨hk, hthere⟩
      simp only [there, decide_eq_true_eq, Option.map_eq_some_iff] at hthere
      exact hthere
    · rintro ⟨e, he, hplace⟩
      have hlt := (List.getElem?_eq_some_iff.mp he).1
      exact ⟨hlt, by simp [there, he, hplace]⟩
  unfold eventsAt memory_events
  rw [List.filterMap_filterMap, ← hpositions, ← List.filterMap_eq_filter, ← List.filterMap_eq_map,
    List.filterMap_filterMap]
  apply List.filterMap_congr
  intro k _
  rw [hevent k]
  cases Option.guard there k <;> rfl

/-- The memory has no events at an atomic. -/
theorem eventsAt_atomic (hx : isAtomic x = true) :
    eventsAt x (memory_events isAtomic G st) = [] := by
  rw [List.eq_nil_iff_forall_not_mem]
  intro event hevent
  obtain ⟨⟨y, event'⟩, hmem, hat⟩ := List.mem_filterMap.mp hevent
  obtain ⟨k, -, hk⟩ := List.mem_filterMap.mp hmem
  unfold memory_event at hk
  split at hk
  · cases hk
  · rename_i e _
    split at hk
    · cases hk
    · rename_i hplain
      cases hk
      have hyx : e.access.place = x := by
        by_contra hne
        simp [hne] at hat
      exact hplain (hyx ▸ hx)

/-- A write of a plain cell happens before every later access of the cell, and after
every earlier one. -/
theorem writes_ordered (hrun : Reaches (Threads.Step brandOf isAtomic) Threads.init st)
    (h : OfCells isAtomic st G) (hx : isAtomic x = false) : (G x).WritesOrdered := by
  have hinv := runInv_of_run hrun
  have hG := h.of_place x hx
  -- an event that writes is a write of the trace
  have hmode : ∀ k e, st.clocks.trace[k]? = some e → e.access.place = x → (G x).Writer k →
      e.access.mode = .write := by
    intro k e he hplace hw
    cases hm : e.access.mode with
    | write => rfl
    | atomic => exact absurd hm (h.plain k e he (by rw [hplace]; exact hx))
    | read =>
      obtain ⟨v, hv⟩ := hG.read k e he (by rw [← hplace, ← hm])
      exact absurd (by rw [hv]; rfl) hw
  intro a ha b hb hab hw
  obtain ⟨e, he, hea⟩ := (hG.events a).mp ha
  obtain ⟨f, hf, hfb⟩ := (hG.events b).mp hb
  have hconf : e.access.mode.Conflicts f.access.mode := by
    rcases hw with hw | hw
    · exact .inl (hmode a e he hea hw)
    · exact Mode.Conflicts.symm (.inl (hmode b f hf hfb hw))
  rw [hG.hb]
  refine (conflicting_are_ordered hinv he hf (Nat.ne_of_lt hab) (by rw [hea, hfb]) hconf
    ).resolve_right fun hba => ?_
  have hlt := Clocks.happensBefore_lt hinv.sound hba
  omega

/-- Whatever threads access the plain cells of a program, and however views, tokens and
permits go between the threads: along the trace each read of each cell gives what was
last written there. The cells are one sequential memory. -/
theorem plain_cells_are_one_sequential_memory (brandOf : A → Nat) (isAtomic : A → Bool)
    (hrun : Reaches (Threads.Step brandOf isAtomic) Threads.init st)
    (h : OfCells isAtomic st G) :
    ReplaysAll (fun x => (G x).initial) (memory_events isAtomic G st) := by
  rw [replaysAll_iff]
  intro x
  cases hx : isAtomic x with
  | false =>
    rw [eventsAt_memory h hx]
    exact Execution.replays_in_order (h.consistent x hx) (writes_ordered hrun h hx)
  | true =>
    rw [eventsAt_atomic hx]
    trivial

/-! ## A cell that is handed over -/

/-- Thread 0 writes a cell and moves the token to thread 1, which reads the cell. -/
theorem handed_run : ∃ st : Threads Unit,
    Reaches (Threads.Step (fun _ => 0) fun _ => false) Threads.init st ∧
    st.clocks.trace.map (fun e => (e.thread, e.access)) =
      [(0, ⟨(), .write⟩), (1, ⟨(), .read⟩)] := by
  let owners (thread : Nat) : List Owner := [⟨.SyncRegionFamily, thread⟩]
  let object : Object fun _ : Unit => 0 := ⟨0, .cell ⟨{()}⟩, fun _ _ => rfl⟩
  let unique : Permit Nat := ⟨.mut_ref, ⟨0, 0, .exclusive⟩, rfl⟩
  let writing : View Unit := ⟨unique.loan, .exclusive, {()}, fun _ => rfl⟩
  let token : Permit Nat := ⟨.SharedReadToken, ⟨1, 0, .shared⟩, rfl⟩
  let reading : View Unit := ⟨token.loan, .shared, {()}, fun h => by cases h⟩
  let written : Clocks (Touch Unit) := Clocks.init.record 0 ⟨(), .write⟩
  let moved : Clocks (Touch Unit) := (written.join 0 0).join 0 1
  let Next := Threads.Step (fun _ : Unit => 0) fun _ => false
  have h0 : Next Threads.init ⟨owners 0, [], [], 0, .init⟩ := .with_fresh_token _ _
  have h1 : Next ⟨owners 0, [], [], 0, .init⟩ ⟨owners 0, [⟨0, unique⟩], [], 1, .init⟩ :=
    @Threads.Step.borrow_owner _ _ _ _ ⟨owners 0, [], [], 0, .init⟩ 0 _ .mut_ref rfl rfl
      (admits_nil _ _)
  have h2 : Next ⟨owners 0, [⟨0, unique⟩], [], 1, .init⟩
      ⟨owners 0, [], [⟨0, writing⟩], 1, .init⟩ :=
    @Threads.Step.call _ _ _ _ _ ⟨0, unique⟩ [] object _ (.refl _) rfl (.borrow_mut _) rfl
  have h3 : Next ⟨owners 0, [], [⟨0, writing⟩], 1, .init⟩
      ⟨owners 0, [], [⟨0, writing⟩], 1, written⟩ :=
    @Threads.Step.access _ _ _ _ _ ⟨0, writing⟩ () .write (by simp) (by decide) fun h => by cases h
  have h4 : Next ⟨owners 0, [], [⟨0, writing⟩], 1, written⟩
      ⟨owners 0, [], [], 1, written.join 0 0⟩ :=
    @Threads.Step.end_view _ _ _ _ _ ⟨0, writing⟩ [] 0 (.refl _)
      (@Threads.Holds.owner _ _ _ ⟨.SyncRegionFamily, 0⟩ rfl)
  have h5 : Next ⟨owners 0, [], [], 1, written.join 0 0⟩ ⟨owners 1, [], [], 1, moved⟩ :=
    @Threads.Step.send _ _ _ _ _ 0 1 ⟨.SyncRegionFamily, 0⟩ rfl rfl fun l hl => by cases hl
  have h6 : Next ⟨owners 1, [], [], 1, moved⟩ ⟨owners 1, [⟨1, token⟩], [], 2, moved⟩ :=
    @Threads.Step.borrow_owner _ _ _ _ ⟨owners 1, [], [], 1, moved⟩ 0 _ .SharedReadToken rfl rfl
      (admits_nil _ _)
  have h7 : Next ⟨owners 1, [⟨1, token⟩], [], 2, moved⟩ ⟨owners 1, [], [⟨1, reading⟩], 2, moved⟩ :=
    @Threads.Step.call _ _ _ _ _ ⟨1, token⟩ [] object _ (.refl _) rfl (.borrow _) rfl
  have h8 : Next ⟨owners 1, [], [⟨1, reading⟩], 2, moved⟩
      ⟨owners 1, [], [⟨1, reading⟩], 2, moved.record 1 ⟨(), .read⟩⟩ :=
    @Threads.Step.access _ _ _ _ _ ⟨1, reading⟩ () .read (by simp) (by decide) fun _ => rfl
  have hrun := Relation.ReflTransGen.refl.tail h0 |>.tail h1 |>.tail h2 |>.tail h3 |>.tail h4
    |>.tail h5 |>.tail h6 |>.tail h7 |>.tail h8
  exact ⟨_, hrun, rfl⟩

/-- The write of 42 and the read of it. -/
def handed (c : Clocks (Touch Unit)) (h : c.Sound) : Execution Nat where
  events := [0, 1]
  label := fun k => if k = 0 then .write 42 else .read 42
  hb := c.HappensBefore
  initial := 0
  rf := fun k => if k = 1 then some 0 else none
  mo := [0]
  sorted := by decide
  forward _ _ hb := Clocks.happensBefore_lt h hb

theorem handed_consistent (c : Clocks (Touch Unit)) (h : c.Sound) : (handed c h).Consistent := by
  have hevents : ∀ {e}, e ∈ (handed c h).events → e = 0 ∨ e = 1 := by
    intro e he
    simpa [handed] using he
  have hpairs : ∀ a ∈ (handed c h).events, ∀ b ∈ (handed c h).events, (handed c h).hb a b →
      a = 0 ∧ b = 1 := by
    intro a ha b hb hab
    have hlt := (handed c h).forward a b hab
    have ha := hevents ha
    have hb := hevents hb
    omega
  have hw1 : ¬ (handed c h).Writer 1 := by simp [Execution.Writer, handed, Label.writes]
  have hr0 : ¬ (handed c h).Reader 0 := by simp [Execution.Reader, handed, Label.reads]
  have hrf : (handed c h).rf 1 = some 0 := rfl
  refine ⟨show [0].Nodup by decide, fun e => ?_, fun e he hr w hw => ?_, fun e he v hv => ?_,
    ?_, ?_, ?_, ?_, fun e he hr hw => ?_⟩
  · constructor
    · intro he
      obtain rfl : e = 0 := by simpa [handed] using he
      exact ⟨show 0 ∈ [0, 1] by decide, by simp [Execution.Writer, handed, Label.writes]⟩
    · rintro ⟨he, hw⟩
      rcases hevents he with rfl | rfl
      · exact show 0 ∈ [0] by decide
      · exact absurd hw hw1
  · rcases hevents he with rfl | rfl
    · exact absurd hr hr0
    · rw [hrf, Option.some.injEq] at hw
      subst hw
      exact show 0 ∈ [0] by decide
  · rcases hevents he with rfl | rfl <;> simp [handed, Label.reads] at hv
    subst hv
    rfl
  · intro a ha b hb hab _ hwb
    obtain ⟨rfl, rfl⟩ := hpairs a ha b hb hab
    exact absurd hwb hw1
  · intro a ha b hb hab _ _
    obtain ⟨rfl, rfl⟩ := hpairs a ha b hb hab
    rw [hrf]
  · intro a ha b hb hab hra _
    obtain ⟨rfl, rfl⟩ := hpairs a ha b hb hab
    exact absurd hra hr0
  · intro a ha b hb hab hra _
    obtain ⟨rfl, rfl⟩ := hpairs a ha b hb hab
    exact absurd hra hr0
  · rcases hevents he with rfl | rfl
    · exact absurd hr hr0
    · exact absurd hw hw1

theorem handed_of_cells {st : Threads Unit} (hs : st.clocks.Sound)
    (htrace : st.clocks.trace.map (fun e => (e.thread, e.access)) =
      [(0, ⟨(), .write⟩), (1, ⟨(), .read⟩)]) :
    OfCells (fun _ => false) st fun _ => handed st.clocks hs := by
  have hat : ∀ (k : Nat) e, st.clocks.trace[k]? = some e →
      (k = 0 ∧ e.access = ⟨(), .write⟩) ∨ k = 1 ∧ e.access = ⟨(), .read⟩ := by
    intro k e he
    have hmap : (st.clocks.trace.map fun e => (e.thread, e.access))[k]? =
        some (e.thread, e.access) := by rw [List.getElem?_map, he]; rfl
    rw [htrace] at hmap
    match k with
    | 0 => exact .inl ⟨rfl, (Prod.mk.inj (Option.some.inj hmap)).2.symm⟩
    | 1 => exact .inr ⟨rfl, (Prod.mk.inj (Option.some.inj hmap)).2.symm⟩
    | k + 2 => cases hmap
  refine ⟨fun _ _ => ⟨fun k => ⟨fun hk => ?_, ?_⟩, fun _ _ => Iff.rfl, fun k e he ha => ?_,
    fun k e he ha => ?_⟩, fun _ _ => handed_consistent st.clocks hs, fun k e he _ hm => ?_⟩
  · have hcase : k = 0 ∨ k = 1 := by simpa [handed] using hk
    rcases hcase with rfl | rfl
    · obtain ⟨e, he, -⟩ := entry_of_map htrace (i := 0) rfl
      exact ⟨e, he, rfl⟩
    · obtain ⟨e, he, -⟩ := entry_of_map htrace (i := 1) rfl
      exact ⟨e, he, rfl⟩
  · rintro ⟨e, he, -⟩
    rcases hat k e he with ⟨rfl, -⟩ | ⟨rfl, -⟩ <;> simp [handed]
  · rcases hat k e he with ⟨rfl, hk⟩ | ⟨rfl, -⟩
    · simp [ha] at hk
    · exact ⟨42, rfl⟩
  · rcases hat k e he with ⟨rfl, -⟩ | ⟨rfl, hk⟩
    · exact ⟨42, rfl⟩
    · simp [ha] at hk
  · rcases hat k e he with ⟨-, hk⟩ | ⟨-, hk⟩ <;> simp [hk] at hm

theorem the_handed_cell_is_read_as_written : ∃ (st : Threads Unit) (G : Unit → Execution Nat),
    (G ()).events.map (G ()).label = [.write 42, .read 42] ∧
    ReplaysAll (fun x => (G x).initial) (memory_events (fun _ => false) G st) := by
  obtain ⟨st, hrun, htrace⟩ := handed_run
  have hs := (runInv_of_run hrun).sound
  exact ⟨st, fun _ => handed st.clocks hs, rfl,
    plain_cells_are_one_sequential_memory _ _ hrun (handed_of_cells hs htrace)⟩

end melinoe.cell
