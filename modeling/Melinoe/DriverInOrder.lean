-- An executor that calls the tasks one after another on the calling thread, as the
-- `Sequentially` of `executor.rs` and the `Deterministic` of `tests/partition.rs` do.
-- A call of `drive` is then a plain loop, also for tasks that share their cells.
import Melinoe.DriverRuns

open tasks runs

namespace melinoe.driver_core

variable {μ κ α ρ π : Type} [Memory μ κ α]

/-! ## The loop -/

/-- `for index in 0..num_tasks`, with nothing around it: the values, or the payload of
the first panic, and the memory. A panic does not end the loop. -/
def run_in_order {ε : Type} (run : Nat → Task κ α ε ρ π) (mem : μ) :
    Nat → Except π (List ρ) × μ
  | 0 => (.ok [], mem)
  | index + 1 =>
    let (values, mem) := run_in_order run mem index
    let (result, mem) := (run index).exec mem
    (values.bind fun values => result.map fun value => values ++ [value], mem)

section loop

variable {ε : Type} {run : Nat → Task κ α ε ρ π} {mem : μ} {n : Nat}

/-- What task `index` gives in the loop. -/
def loop_result (run : Nat → Task κ α ε ρ π) (mem : μ) (index : Nat) : Except π ρ :=
  ((run index).exec (run_in_order run mem index).2).1

theorem run_in_order_succ {values : List ρ} {val : ρ}
    (hvalues : (run_in_order run mem n).1 = .ok values) (hval : loop_result run mem n = .ok val) :
    (run_in_order run mem (n + 1)).1 = .ok (values ++ [val]) := by
  unfold loop_result at hval
  simp only [run_in_order, hvalues, hval]
  rfl

/-- Without a panic the loop gives all values, in order. -/
theorem run_in_order_ok (results : List ρ)
    (h : ∀ i < n, ∃ val, loop_result run mem i = .ok val ∧ results[i]? = some val) :
    (run_in_order run mem n).1 = .ok (results.take n) := by
  induction n with
  | zero => rfl
  | succ n ih =>
    obtain ⟨val, hval, hget⟩ := h n (Nat.lt_succ_self n)
    rw [List.take_add_one, hget]
    exact run_in_order_succ (ih fun i hi => h i (Nat.lt_succ_of_lt hi)) hval

/-- With one, it gives the payload of the first. -/
theorem run_in_order_error {i : Nat} {payload : π} (hi : i < n)
    (hp : loop_result run mem i = .error payload)
    (hbefore : ∀ j < i, ∃ val, loop_result run mem j = .ok val) :
    (run_in_order run mem n).1 = .error payload := by
  have hvalues : ∀ k ≤ i, ∃ values, (run_in_order run mem k).1 = .ok values := by
    intro k hk
    induction k with
    | zero => exact ⟨[], rfl⟩
    | succ k ih =>
      obtain ⟨values, hv⟩ := ih (by omega)
      obtain ⟨val, hval⟩ := hbefore k hk
      exact ⟨_, run_in_order_succ hv hval⟩
  induction n with
  | zero => omega
  | succ n ih =>
    rcases Nat.lt_or_eq_of_le (Nat.le_of_lt_succ hi) with hlt | rfl
    · simp only [run_in_order, ih hlt]
      rfl
    · obtain ⟨values, hv⟩ := hvalues i (Nat.le_refl i)
      unfold loop_result at hp
      simp only [run_in_order, hv, hp]
      rfl

end loop

/-! ## The steps -/

/-- A step of a call whose executor calls `task` for an index only once its calls for
all smaller indices have returned. -/
def InOrderStep (n : Nat) (run : Nat → Task κ α SlotCall ρ π) (d d' : Drive μ κ α ρ π) : Prop :=
  Step n run False d d' ∧ ∀ st index, d.path = .registered st →
    d.pool.status index = .idle → d'.pool.status index ≠ .idle →
    ∀ earlier < index, st.wrapper earlier = .done

variable {n : Nat} {run : Nat → Task κ α SlotCall ρ π} {mem : μ} {d d' : Drive μ κ α ρ π}

/-- The least task that is not done can go on, and after the last the executor returns. -/
theorem in_order_progress (h : Inv n False d) {st : Registered ρ π}
    (hp : d.path = .registered st) (hx : st.exit = none) : ∃ d', InOrderStep n run d d' := by
  have hdx : d.exit = none := by simp [Drive.exit, hp, hx]
  by_cases hall : ∀ index < n, st.wrapper index = .done
  · exact ⟨_, .execute_returns hp hx hall, fun _ _ _ hidle hstarted => absurd hidle hstarted⟩
  · push Not at hall
    obtain ⟨i, ⟨hi, hw⟩, hleast⟩ := wellFounded_lt.has_min
      {i | i < n ∧ st.wrapper i ≠ .done} hall
    have hearlier : ∀ j < i, st.wrapper j = .done := fun j hj => by
      by_contra hne
      exact hleast j ⟨by omega, hne⟩ hj
    cases hs : d.pool.status i with
    | idle =>
      refine ⟨_, .start hp hx hi hs, fun st' index hp' hidle hstarted => ?_⟩
      rw [hp] at hp'
      cases hp'
      rcases Pool.start_status d.pool i (run i) index with heq | ⟨rfl, -⟩
      · exact absurd (heq.trans hidle) hstarted
      · exact hearlier
    | running t =>
      obtain ⟨e, p, ha⟩ := Pool.advance_of_running hs
      exact ⟨_, .act i hdx ha, fun _ index _ hidle hstarted =>
        absurd ((Pool.advance_idle ha index).mpr hidle) hstarted⟩
    | ended o =>
      obtain ⟨j, -, o', hj, hready⟩ := (h.registered hp hx).wrapper_ready hi hs hw
      obtain ⟨st', hst'⟩ := Option.isSome_iff_exists.mp hready
      exact ⟨_, .wrapper hp hx hj hst', fun _ _ _ hidle hstarted => absurd hidle hstarted⟩

theorem exit_of_stopped_in_order (h : Inv n False d) (hst : Stopped (InOrderStep n run) d) :
    ∃ exit, d.exit = some exit := by
  by_cases hreg : ∃ st, d.path = .registered st
  · obtain ⟨st, hp⟩ := hreg
    rw [← Option.ne_none_iff_exists']
    intro hx
    obtain ⟨d', hd⟩ : ∃ d', InOrderStep n run d d' :=
      in_order_progress h hp (by simpa [Drive.exit, hp] using hx)
    exact hst d' hd
  · -- on the other paths every step is one of these
    exact exit_of_stopped h fun d' hd => hst d' ⟨hd, fun st _ hp => absurd ⟨st, hp⟩ hreg⟩

/-! ## How far the loop is -/

/-- The task whose turn it is goes on as it does in the loop. -/
def Turn (run : Nat → Task κ α SlotCall ρ π) (mem : μ) (pool : Pool μ κ α SlotCall ρ π)
    (next : Nat) : Prop :=
  match pool.status next with
  | .idle => pool.mem = (run_in_order run mem next).2
  | .running t => t.exec pool.mem = (run next).exec (run_in_order run mem next).2
  | .ended o => (o, pool.mem) = (run next).exec (run_in_order run mem next).2

/-- The tasks below `next` have returned what they give in the loop, those above it have
not been called, and the mutex was taken in the order of the indices. -/
structure InOrder (run : Nat → Task κ α SlotCall ρ π) (mem : μ)
    (pool : Pool μ κ α SlotCall ρ π) (st : Registered ρ π) (next : Nat) : Prop where
  before : ∀ i < next, st.wrapper i = .done ∧ pool.status i = .ended (loop_result run mem i)
  turn : Turn run mem pool next
  after : ∀ i, next < i → pool.status i = .idle
  unfinished : pool.status next ≠ .idle → st.wrapper next ≠ .done
  sorted : st.lock_order.Pairwise (· < ·)

variable {pool pool' : Pool μ κ α SlotCall ρ π} {st st' : Registered ρ π} {next i : Nat}

/-- A task that has started and is not done is the one whose turn it is. -/
theorem InOrder.at_turn (h : InOrder run mem pool st next) (hs : pool.status i ≠ .idle)
    (hw : st.wrapper i ≠ .done) : i = next := by
  rcases Nat.lt_trichotomy i next with hlt | heq | hgt
  · exact absurd (h.before i hlt).1 hw
  · exact heq
  · exact absurd (h.after i hgt) hs

theorem InOrder.act (h : InOrder run mem pool st next) (hex : Executing n pool.status st)
    {call : Option SlotCall} (hi : i < n) (ha : pool.advance i = some (call, pool')) :
    InOrder run mem pool' st next := by
  obtain ⟨t, ht, hgoes⟩ := Pool.advance_exec ha
  have hrunning : pool.status i ≠ .idle := by simp [ht]
  have hw : st.wrapper i ≠ .done := by
    intro hdone
    have hslot := hex.slots.slot i hi
    rw [hdone] at hslot
    obtain ⟨o, ho⟩ := hslot.of_done
    simp [ht] at ho
  obtain rfl := h.at_turn hrunning hw
  refine ⟨fun j hj => ?_, ?_, fun j hj => ?_, fun _ => hw, h.sorted⟩
  · obtain ⟨hdone, hs⟩ := h.before j hj
    rcases Pool.advance_status ha j with heq | ⟨⟨t', ht'⟩, -⟩
    · exact ⟨hdone, heq.trans hs⟩
    · simp [hs] at ht'
  · have hturn := h.turn
    simp only [Turn, ht] at hturn
    unfold Turn
    rcases hgoes with ⟨t', ht', hexec⟩ | ⟨o, ho, hexec⟩
    · simp only [ht', hexec, hturn]
    · simp only [ho, hexec, hturn]
  · exact (Pool.advance_idle ha j).mpr (h.after j hj)

theorem InOrder.start (h : InOrder run mem pool st next) (hex : Executing n pool.status st)
    (hi : i < n) (hidle : pool.status i = .idle) (hloop : ∀ j < i, st.wrapper j = .done) :
    InOrder run mem (pool.start i (run i)) st next := by
  obtain rfl : i = next := by
    rcases Nat.lt_trichotomy i next with hlt | heq | hgt
    · simp [(h.before i hlt).2] at hidle
    · exact heq
    · have hdone := hloop next hgt
      have hslot := hex.slots.slot next (by omega)
      rw [hdone] at hslot
      obtain ⟨o, ho⟩ := hslot.of_done
      exact absurd hdone (h.unfinished (by simp [ho]))
  have hother : ∀ j, j ≠ i → (pool.start i (run i)).status j = pool.status j := fun j hj =>
    Function.update_of_ne hj ..
  have hself : (pool.start i (run i)).status i = .running (run i) := Function.update_self ..
  refine ⟨fun j hj => ?_, ?_, fun j hj => ?_, fun _ hdone => ?_, h.sorted⟩
  · rw [hother j (by omega)]
    exact h.before j hj
  · have hturn := h.turn
    simp only [Turn, hidle] at hturn
    simp only [Turn, hself]
    exact congrArg (run i).exec hturn
  · rw [hother j (by omega)]
    exact h.after j hj
  · have hslot := hex.slots.slot i hi
    rw [hidle, hdone] at hslot
    obtain ⟨o, ho⟩ := hslot.of_done
    cases ho

/-- What an action of a wrapper changes for the loop. -/
theorem task_wrapper_effect {result : Except π ρ} (h : task_wrapper i result st = some st') :
    st.wrapper i ≠ .done ∧ (∀ j, j ≠ i → st'.wrapper j = st.wrapper j) ∧
      (st'.lock_order = st.lock_order ∨
        st.wrapper i = .caught ∧ st'.lock_order = st.lock_order ++ [i]) := by
  have hother : ∀ pc j, j ≠ i → Function.update st.wrapper i pc j = st.wrapper j :=
    fun pc j hj => Function.update_of_ne hj ..
  rcases task_wrapper_cases h with ⟨val, -, hc, ⟨out, -, rfl⟩ | ⟨f, -, rfl⟩⟩ | ⟨val, -, hc, rfl⟩ |
    ⟨q, -, hc, -, rfl⟩ | ⟨q, -, hc, rfl⟩ | ⟨q, -, hc, rfl⟩
  · exact ⟨by simp [hc], hother _, .inl rfl⟩
  · exact ⟨by simp [hc], fun _ _ => rfl, .inl rfl⟩
  · exact ⟨by simp [hc], hother _, .inl rfl⟩
  · exact ⟨by simp [hc], hother _, .inr ⟨hc, rfl⟩⟩
  · exact ⟨by simp [hc], hother _, .inl rfl⟩
  · exact ⟨by simp [hc], hother _, .inl rfl⟩

/-- An action of a wrapper is one of the task whose turn it is, and its last action
gives the turn to the next. -/
theorem InOrder.wrapper (h : InOrder run mem pool st next) (hex : Executing n pool.status st)
    {result : Except π ρ} (hr : pool.status i = .ended result)
    (hw : task_wrapper i result st = some st') : ∃ next', InOrder run mem pool st' next' := by
  obtain ⟨hopen, hother, hlocks⟩ := task_wrapper_effect hw
  obtain rfl := h.at_turn (by simp [hr]) hopen
  have hturn := h.turn
  simp only [Turn, hr] at hturn
  have hbefore : ∀ j < i, st'.wrapper j = .done ∧ pool.status j = .ended (loop_result run mem j) :=
    fun j hj => by
      rw [hother j (by omega)]
      exact h.before j hj
  have hsorted : st'.lock_order.Pairwise (· < ·) := by
    rcases hlocks with heq | ⟨hc, heq⟩
    · rw [heq]
      exact h.sorted
    · -- those that have taken the mutex before have had their turn
      rw [heq, List.pairwise_append]
      refine ⟨h.sorted, List.pairwise_singleton _ _, fun j hj k hk => ?_⟩
      rw [List.mem_singleton.mp hk]
      obtain ⟨-, hpanicked, hcaught⟩ := (hex.payloads.order j).mp hj
      by_contra hge
      rcases Nat.lt_or_eq_of_le (Nat.le_of_not_lt hge) with hlt | rfl
      · rw [h.after j hlt] at hpanicked
        cases hpanicked
      · exact hcaught hc
  by_cases hdone : st'.wrapper i = .done
  · refine ⟨i + 1, fun j hj => ?_, ?_, fun j hj => h.after j (by omega), fun hs => ?_, hsorted⟩
    · rcases Nat.lt_or_eq_of_le (Nat.le_of_lt_succ hj) with hlt | rfl
      · exact hbefore j hlt
      · exact ⟨hdone, by rw [hr, loop_result, ← hturn]⟩
    · simp only [Turn, h.after (i + 1) (Nat.lt_succ_self i), run_in_order, ← hturn]
    · exact absurd (h.after (i + 1) (Nat.lt_succ_self i)) hs
  · exact ⟨i, hbefore, h.turn, h.after, fun _ => hdone, hsorted⟩

theorem InOrder.of_same (h : InOrder run mem pool st next) (hw : st'.wrapper = st.wrapper)
    (hl : st'.lock_order = st.lock_order) : InOrder run mem pool st' next := by
  refine ⟨?_, h.turn, h.after, ?_, ?_⟩
  · rw [hw]
    exact h.before
  · rw [hw]
    exact h.unfinished
  · rw [hl]
    exact h.sorted

theorem in_order_init (hidle : ∀ i, pool.status i = .idle) (hmem : pool.mem = mem) :
    InOrder run mem pool (.init n) 0 where
  before i hi := absurd hi (Nat.not_lt_zero i)
  turn := by
    simp only [Turn, hidle 0]
    exact hmem
  after i _ := hidle i
  unfinished h := absurd (hidle 0) h
  sorted := List.Pairwise.nil

/-! ## Every run -/

/-- What every step keeps. On the other paths nothing is said. -/
def InOrderInv (n : Nat) (run : Nat → Task κ α SlotCall ρ π) (mem : μ)
    (d : Drive μ κ α ρ π) : Prop :=
  Inv n False d ∧ match d.path with
    | .loading => d.pool.mem = mem
    | .registered st => ∃ next, InOrder run mem d.pool st next
    | _ => True

theorem in_order_step (hn : 0 < n) (h : InOrderInv n run mem d) (hs : InOrderStep n run d d') :
    InOrderInv n run mem d' := by
  obtain ⟨hinv, hpath⟩ := h
  obtain ⟨hstep, hloop⟩ := hs
  refine ⟨inv_step hn hinv hstep, ?_⟩
  cases hstep with
  | other hx ho => exact hpath
  | load hp =>
    have hidle := hinv.path
    rw [hp] at hidle hpath
    cases hslot : d.slot with
    | some executor => exact ⟨0, in_order_init hidle hpath⟩
    | none =>
      unfold driver
      by_cases hone : n = 1
      · simp only [hone, if_true]
      · simp only [hone, if_false]
  | @act call pool i hx ha =>
    obtain ⟨t, ht, -⟩ := Pool.advance_exec ha
    have hi : i < n := hinv.lt_of_ended (by simp [ht])
    cases hp : d.path with
    | loading =>
      have hidle := hinv.path
      rw [hp] at hidle
      rw [hidle i] at ht
      cases ht
    | registered st =>
      simp only [hp] at hpath ⊢
      obtain ⟨next, h⟩ := hpath
      exact ⟨next, h.act (hinv.registered hp (by simpa [Drive.exit, hp] using hx)) hi ha⟩
    | single exit => exact trivial
    | threads s => exact trivial
  | @start st i hp hx hi hidle =>
    simp only [hp] at hpath ⊢
    obtain ⟨next, h⟩ := hpath
    refine ⟨next, h.start (hinv.registered hp hx) hi hidle (hloop st i hp hidle ?_)⟩
    simp [Pool.start]
  | wrapper hp hx hr hw =>
    simp only [hp] at hpath
    obtain ⟨next, h⟩ := hpath
    exact h.wrapper (hinv.registered hp hx) hr hw
  | poison hp hx hpo =>
    simp only [hp] at hpath
    obtain ⟨next, h⟩ := hpath
    exact ⟨next, h.of_same rfl rfl⟩
  | @execute_returns st hp hx hall =>
    simp only [hp] at hpath
    obtain ⟨next, h⟩ := hpath
    refine ⟨next, ?_⟩
    cases st.after_execute n with
    | ok r => exact h.of_same rfl rfl
    | error f => exact h.of_same rfl rfl
  | execute_unwinds hu => exact hu.elim
  | single_start hp => simp only [hp]
  | single_ends => trivial
  | spawn => trivial
  | thread_starts hp => simp only [hp]
  | inline_starts => trivial
  | inline_ends => trivial
  | join => trivial
  | joined => trivial
  | scope_returns => trivial
  | scope_unwinds => trivial

/-- The first to take the mutex is the least of those that did. -/
theorem InOrder.least_of_head (h : InOrder run mem pool st next)
    (hhead : st.lock_order.head? = some i) (j : Nat) (hj : j ∈ st.lock_order) : i ≤ j := by
  have hsorted := h.sorted
  cases hl : st.lock_order with
  | nil => simp [hl] at hj
  | cons first rest =>
    rw [hl] at hhead hj hsorted
    obtain rfl : first = i := Option.some.inj hhead
    rcases List.mem_cons.mp hj with rfl | hrest
    · exact Nat.le_refl _
    · exact Nat.le_of_lt (List.rel_of_pairwise_cons hsorted hrest)

/-- At the exit the loop is over. -/
theorem InOrder.at_exit (h : InOrder run mem pool st next) (hn : 0 < n)
    (hall : ∀ i < n, ∃ o, pool.status i = .ended o) (habove : ∀ i, n ≤ i → pool.status i = .idle) :
    (∀ i < n, pool.status i = .ended (loop_result run mem i)) ∧
      pool.mem = (run_in_order run mem n).2 := by
  have hturn := h.turn
  have hle : n ≤ next + 1 := by
    by_contra hlt
    obtain ⟨o, ho⟩ := hall (next + 1) (by omega)
    simp [h.after (next + 1) (by omega)] at ho
  have hge : next ≤ n := by
    by_contra hlt
    have hended := (h.before n (by omega)).2
    simp [habove n (Nat.le_refl n)] at hended
  rcases Nat.lt_or_eq_of_le hge with hlt | rfl
  · obtain rfl : n = next + 1 := by omega
    obtain ⟨o, ho⟩ := hall next hlt
    simp only [Turn, ho] at hturn
    refine ⟨fun i hi => ?_, by simp only [run_in_order, ← hturn]⟩
    rcases Nat.lt_or_eq_of_le (Nat.le_of_lt_succ hi) with hlt | rfl
    · exact (h.before i hlt).2
    · rw [ho, loop_result, ← hturn]
  · simp only [Turn, habove next (Nat.le_refl next)] at hturn
    exact ⟨fun i hi => (h.before i hi).2, hturn⟩

/-- With an executor in the slot and no other thread at it, the load finds it. -/
theorem registered_of_run {executor : Executor} {unwinds : Prop}
    (h : Reaches (Step n run unwinds) (Drive.init (some executor) [] mem) d) :
    d.path = .loading ∨ ∃ st, d.path = .registered st := by
  have hinv : d.others = [] ∧ ((d.path = .loading ∧ d.slot ≠ none ∧
      ∀ i, d.pool.status i = .idle) ∨ ∃ st, d.path = .registered st) := by
    refine inv_of_reaches (I := fun d : Drive μ κ α ρ π => d.others = [] ∧ ((d.path = .loading ∧
      d.slot ≠ none ∧ ∀ i, d.pool.status i = .idle) ∨ ∃ st, d.path = .registered st)) h
      ⟨rfl, .inl ⟨rfl, by simp [Drive.init], fun _ => rfl⟩⟩ ?_
    rintro a b ⟨hothers, hpath⟩ hs
    cases hs with
    | other hx ho => simp [hothers] at ho
    | load hp =>
      obtain ⟨-, hslot, -⟩ := hpath.resolve_right (by simp [hp])
      obtain ⟨e, he⟩ := Option.ne_none_iff_exists'.mp hslot
      exact ⟨hothers, .inr ⟨.init n, by simp only [he, driver]⟩⟩
    | act i hx ha =>
      obtain ⟨t, ht, -⟩ := Pool.advance_exec ha
      refine ⟨hothers, .inr (hpath.resolve_left fun hl => ?_)⟩
      simp [hl.2.2 i] at ht
    | start hp => exact ⟨hothers, .inr ⟨_, hp⟩⟩
    | wrapper => exact ⟨hothers, .inr ⟨_, rfl⟩⟩
    | poison => exact ⟨hothers, .inr ⟨_, rfl⟩⟩
    | execute_returns => exact ⟨hothers, .inr ⟨_, rfl⟩⟩
    | execute_unwinds => exact ⟨hothers, .inr ⟨_, rfl⟩⟩
    | single_start hp => simp [hp] at hpath
    | single_ends hp => simp [hp] at hpath
    | spawn hp => simp [hp] at hpath
    | thread_starts hp => simp [hp] at hpath
    | inline_starts hp => simp [hp] at hpath
    | inline_ends hp => simp [hp] at hpath
    | join hp => simp [hp] at hpath
    | joined hp => simp [hp] at hpath
    | scope_returns hp => simp [hp] at hpath
    | scope_unwinds hp => simp [hp] at hpath
  exact hinv.2.imp And.left id

/-- How a call is left that ends as the loop. -/
def Drive.LeftAsLoop (n : Nat) (run : Nat → Task κ α SlotCall ρ π) (mem : μ)
    (d : Drive μ κ α ρ π) : Prop :=
  d.pool.mem = (run_in_order run mem n).2 ∧
    match (run_in_order run mem n).1 with
    | .ok results => d.exit = some (.returned results)
    | .error payload => d.exit = some (.resumed payload)

theorem left_as_loop (hn : 0 < n) (h : InOrderInv n run mem d) {st : Registered ρ π}
    (hp : d.path = .registered st) {exit : Exit ρ π} (hx : d.exit = some exit) :
    d.LeftAsLoop n run mem := by
  obtain ⟨hinv, hpath⟩ := h
  simp only [hp] at hpath
  obtain ⟨next, hloop⟩ := hpath
  obtain ⟨hresults, hmem⟩ := hloop.at_exit hn (hinv.all_ended (by simp) hx) hinv.once.idle_above
  refine ⟨hmem, ?_⟩
  rcases hinv.exit_cases (by simp) hx with ⟨results, rfl⟩ | ⟨payload, rfl⟩
  · obtain ⟨hlen, hvals⟩ := hinv.returned hx
    have hok : (run_in_order run mem n).1 = .ok results := by
      rw [run_in_order_ok results fun i hi => ?_, List.take_of_length_le (by omega)]
      obtain ⟨val, hval, hget⟩ := hvals i hi
      rw [hresults i hi] at hval
      exact ⟨val, Status.ended.inj hval, hget⟩
    rw [hok]
    exact hx
  · -- the first to take the mutex has the least index of those that panicked
    obtain ⟨-, horder, ⟨i, hhead, hs⟩, -⟩ := hinv.accounted hp (by simpa [Drive.exit, hp] using hx)
    have hi := ((horder i).mp (List.mem_of_mem_head? hhead)).1
    rw [hresults i hi] at hs
    have hfirst : ∀ j < i, ∃ val, loop_result run mem j = .ok val := by
      intro j hj
      cases hr : loop_result run mem j with
      | ok val => exact ⟨val, rfl⟩
      | error q =>
        have hj' : j ∈ st.lock_order := by
          rw [horder j, hresults j (by omega), hr]
          exact ⟨by omega, rfl⟩
        have := hloop.least_of_head hhead j hj'
        omega
    rw [run_in_order_error hi (Status.ended.inj hs) hfirst]
    exact hx

/-- With an executor that calls the tasks in the order of their indices, one after
another, every run of `drive` ends as the plain loop over the tasks, whatever cells they
share: each task starts on what those before it left, and where some panic the first of
them is raised again after all have run. -/
theorem an_executor_in_order_is_a_loop (hn : 0 < n) (run : Nat → Task κ α SlotCall ρ π)
    (slot : Option Executor) (others : List SlotCall) (mem : μ) :
    Ends (InOrderStep n run) (fun d => (∃ exit, d.exit = some exit) ∧
      (∀ st, d.path = .registered st → d.LeftAsLoop n run mem) ∧
      (slot ≠ none → others = [] → d.LeftAsLoop n run mem)) (Drive.init slot others mem) := by
  have hinit : InOrderInv n run mem (Drive.init slot others mem) :=
    ⟨inv_init n False slot others mem, rfl⟩
  have hends : Ends (InOrderStep n run)
      (fun d => InOrderInv n run mem d ∧ ∃ exit, d.exit = some exit) (Drive.init slot others mem) :=
    ends_of_measure (I := InOrderInv n run mem) (Drive.left n) (fun _ _ => in_order_step hn)
      (fun _ _ h hs => left_step hn h.1 hs.1)
      (fun _ h hst => ⟨h, exit_of_stopped_in_order h.1 hst⟩) hinit
  refine hends.mono fun d hr ⟨h, exit, hx⟩ => ?_
  refine ⟨⟨exit, hx⟩, fun st hp => left_as_loop hn h hp hx, fun hslot hothers => ?_⟩
  obtain ⟨executor, rfl⟩ := Option.ne_none_iff_exists'.mp hslot
  subst hothers
  have hsteps : Reaches (Step n run False) (Drive.init (some executor) [] mem) d :=
    inv_of_reaches hr .refl fun _ _ h hs => h.tail hs.1
  rcases registered_of_run hsteps with hp | ⟨st, hp⟩
  · simp [Drive.exit, hp] at hx
  · exact left_as_loop hn h hp hx

/-- Each task adds to the one cell what it is called with, and tells what it found there;
task 1 panics. -/
def tally (index : Nat) : Task Nat Nat SlotCall Nat Nat :=
  .load 0 fun found => .store 0 (found.getD 0 + index)
    (if index = 1 then .panic (found.getD 0) else .ret (found.getD 0))

theorem a_tally_of_four : run_in_order tally [10] 4 = (.error 10, [16]) ∧
    ∃ d : Drive (List Nat) Nat Nat Nat Nat,
      Reaches (InOrderStep 4 tally) (Drive.init (some ⟨0⟩) [] [10]) d ∧
      d.pool.mem = [16] ∧ d.exit = some (.resumed 10) := by
  obtain ⟨d, hr, -, -, h⟩ :=
    (an_executor_in_order_is_a_loop (by decide) tally (some ⟨0⟩) [] [10] (n := 4)).exists_run
  obtain ⟨hmem, hx⟩ := h nofun rfl
  exact ⟨rfl, d, hr, hmem, hx⟩

end melinoe.driver_core
