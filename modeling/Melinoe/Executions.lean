-- What the threads of a program read at one place of memory. The writes of the
-- place have a modification order, every read has a write that it reads from, and
-- both are coherent with happens-before: the rules of the C++ memory model that the
-- atomics of Rust follow, whatever the orderings of the accesses are. By them the
-- events of one place are those of a run of one sequential variable.
import Mathlib.Data.List.Basic
import Mathlib.Data.List.Nodup
import Mathlib.Data.List.Pairwise
import Mathlib.Logic.Function.Basic

namespace executions

variable {V : Type}

/-- What an event does to its place. `update` is a read-modify-write. -/
inductive Label (V : Type)
  | read (value : V)
  | write (value : V)
  | update (old new : V)
deriving DecidableEq

namespace Label

def reads : Label V → Option V
  | .read value => some value
  | .write _ => none
  | .update old _ => some old

def writes : Label V → Option V
  | .read _ => none
  | .write value => some value
  | .update _ new => some new

end Label

/-! ## A sequential variable -/

/-- The value of the variable after the events. -/
def final (value : V) (events : List (Label V)) : V :=
  events.foldl (fun value event => event.writes.getD value) value

/-- Each event reads what the variable holds. -/
def Replays (value : V) : List (Label V) → Prop
  | [] => True
  | event :: events => (∀ seen, event.reads = some seen → seen = value) ∧
      Replays (event.writes.getD value) events

@[simp] theorem final_nil (value : V) : final value [] = value := rfl

@[simp] theorem final_cons (value : V) (event : Label V) (events : List (Label V)) :
    final value (event :: events) = final (event.writes.getD value) events := rfl

theorem replays_append {value : V} {before after : List (Label V)} :
    Replays value (before ++ after) ↔
      Replays value before ∧ Replays (final value before) after := by
  induction before generalizing value with
  | nil => simp [Replays]
  | cons event before ih => simp only [List.cons_append, Replays, final_cons, ih, and_assoc]

/-- Events that write nothing keep the value, and replay where each reads it. -/
theorem final_of_reads {value : V} {events : List (Label V)}
    (h : ∀ event ∈ events, event.writes = none) : final value events = value := by
  induction events with
  | nil => rfl
  | cons event events ih =>
    rw [final_cons, h event (List.mem_cons_self ..)]
    exact ih fun e he => h e (List.mem_cons_of_mem _ he)

theorem replays_of_reads {value : V} {events : List (Label V)}
    (h : ∀ event ∈ events, event.writes = none)
    (hr : ∀ event ∈ events, ∀ seen, event.reads = some seen → seen = value) :
    Replays value events := by
  induction events with
  | nil => trivial
  | cons event events ih =>
    refine ⟨hr event (List.mem_cons_self ..), ?_⟩
    rw [h event (List.mem_cons_self ..)]
    exact ih (fun e he => h e (List.mem_cons_of_mem _ he))
      fun e he => hr e (List.mem_cons_of_mem _ he)

/-! ## A memory of such variables -/

section Memory

variable {A : Type} [DecidableEq A]

/-- Each event reads what the memory holds at its place. -/
def ReplaysAll (mem : A → V) : List (A × Label V) → Prop
  | [] => True
  | (x, event) :: events => (∀ seen, event.reads = some seen → seen = mem x) ∧
      ReplaysAll (Function.update mem x (event.writes.getD (mem x))) events

def eventsAt (x : A) (events : List (A × Label V)) : List (Label V) :=
  events.filterMap fun (y, event) => if y = x then some event else none

/-- A memory replays where each of its places does. -/
theorem replaysAll_iff {mem : A → V} {events : List (A × Label V)} :
    ReplaysAll mem events ↔ ∀ x, Replays (mem x) (eventsAt x events) := by
  induction events generalizing mem with
  | nil => simp [ReplaysAll, eventsAt, Replays]
  | cons e events ih =>
    obtain ⟨y, event⟩ := e
    have hat : ∀ x, eventsAt x ((y, event) :: events) =
        if y = x then event :: eventsAt x events else eventsAt x events := by
      intro x
      by_cases hyx : y = x <;> simp [eventsAt, hyx]
    rw [ReplaysAll, ih]
    constructor
    · rintro ⟨hread, hrest⟩ x
      have hx := hrest x
      rw [hat]
      by_cases hyx : y = x
      · subst hyx
        rw [Function.update_self] at hx
        rw [if_pos rfl]
        exact ⟨hread, hx⟩
      · rw [Function.update_of_ne (Ne.symm hyx)] at hx
        rwa [if_neg hyx]
    · intro h
      have hy := h y
      rw [hat, if_pos rfl] at hy
      refine ⟨hy.1, fun x => ?_⟩
      by_cases hyx : y = x
      · subst hyx
        rw [Function.update_self]
        exact hy.2
      · have hx := h x
        rw [hat, if_neg hyx] at hx
        rwa [Function.update_of_ne (Ne.symm hyx)]

end Memory

/-! ## The executions of one place -/

/-- The events of one place by their positions in the program's trace, along which
happens-before goes. A read reads from a write, or the initial value. -/
structure Execution (V : Type) where
  events : List Nat
  label : Nat → Label V
  hb : Nat → Nat → Prop
  initial : V
  rf : Nat → Option Nat
  mo : List Nat
  sorted : events.Pairwise (· < ·)
  forward : ∀ a b, hb a b → a < b

namespace Execution

variable (G : Execution V)

def Writer (e : Nat) : Prop := (G.label e).writes ≠ none

def Reader (e : Nat) : Prop := (G.label e).reads ≠ none

/-- Where a write comes in the modification order: 0 is the initial value. -/
def stamp : Option Nat → Nat
  | none => 0
  | some w => G.mo.idxOf w + 1

/-- The value that a write leaves. -/
def written : Option Nat → V
  | none => G.initial
  | some w => ((G.label w).writes).getD G.initial

/-- The four coherence rules of the C++ memory model between two events that happen
one before the other, and the atomicity of a read-modify-write. -/
structure Consistent : Prop where
  mo_nodup : G.mo.Nodup
  mo_mem : ∀ e, e ∈ G.mo ↔ e ∈ G.events ∧ G.Writer e
  rf_mem : ∀ e ∈ G.events, G.Reader e → ∀ w, G.rf e = some w → w ∈ G.mo
  rf_value : ∀ e ∈ G.events, ∀ v, (G.label e).reads = some v → v = G.written (G.rf e)
  write_write : ∀ a ∈ G.events, ∀ b ∈ G.events, G.hb a b → G.Writer a → G.Writer b →
    G.stamp (some a) < G.stamp (some b)
  write_read : ∀ a ∈ G.events, ∀ b ∈ G.events, G.hb a b → G.Writer a → G.Reader b →
    G.stamp (some a) ≤ G.stamp (G.rf b)
  read_write : ∀ a ∈ G.events, ∀ b ∈ G.events, G.hb a b → G.Reader a → G.Writer b →
    G.stamp (G.rf a) < G.stamp (some b)
  read_read : ∀ a ∈ G.events, ∀ b ∈ G.events, G.hb a b → G.Reader a → G.Reader b →
    G.stamp (G.rf a) ≤ G.stamp (G.rf b)
  atomic : ∀ e ∈ G.events, G.Reader e → G.Writer e → G.stamp (G.rf e) + 1 = G.stamp (some e)

variable {G} in
/-- The events are known from the positions that they have. -/
theorem eq_events {positions : List Nat} (hs : positions.Pairwise (· < ·))
    (h : ∀ k, k ∈ positions ↔ k ∈ G.events) : positions = G.events := by
  have hperm : positions.Perm G.events :=
    (List.perm_ext_iff_of_nodup (hs.imp Nat.ne_of_lt) (G.sorted.imp Nat.ne_of_lt)).mpr h
  refine hperm.eq_of_pairwise (fun a b _ _ hab hba => ?_) hs G.sorted
  exact absurd hba (Nat.lt_asymm hab)

/-! ## One order of all events -/

/-- The reads that see the place after `k` writes, as they come in the trace. -/
def readers (k : Nat) : List Nat :=
  G.events.filter fun e => (G.label e).writes.isNone && G.stamp (G.rf e) == k

/-- The writes from the `k`th on, each with the reads that see the place after it. -/
def fromWrite (k : Nat) : List Nat → List Nat
  | [] => G.readers k
  | w :: ws => G.readers k ++ w :: fromWrite (k + 1) ws

def order : List Nat := G.fromWrite 0 G.mo

/-- How many writes an event comes after, its own counted. -/
def rank (e : Nat) : Nat := if (G.label e).writes.isNone then G.stamp (G.rf e) else G.stamp (some e)

variable {G}

theorem mem_readers {k e : Nat} :
    e ∈ G.readers k ↔ e ∈ G.events ∧ (G.label e).writes = none ∧ G.stamp (G.rf e) = k := by
  simp [readers]

theorem reader_of_not_writer {e : Nat} (h : (G.label e).writes = none) : G.Reader e := by
  unfold Reader
  cases hl : G.label e with
  | read value => simp [Label.reads]
  | write value => simp [hl, Label.writes] at h
  | update old new => simp [hl, Label.writes] at h

theorem rank_reader {e : Nat} (h : (G.label e).writes = none) : G.rank e = G.stamp (G.rf e) := by
  simp [rank, h]

theorem rank_writer {e : Nat} (h : G.Writer e) : G.rank e = G.stamp (some e) := by
  have hs : (G.label e).writes.isNone = false := by
    cases hw : (G.label e).writes with
    | none => exact absurd hw h
    | some value => rfl
  simp [rank, hs]

/-- The write at a place of the modification order has that place as its stamp. -/
theorem stamp_of_split (hc : G.Consistent) {before ws : List Nat} {w : Nat}
    (h : G.mo = before ++ w :: ws) : G.stamp (some w) = before.length + 1 := by
  have hnot : w ∉ before := by
    have hnodup := hc.mo_nodup
    rw [h, List.nodup_append] at hnodup
    intro hw
    exact hnodup.2.2 w hw w (List.mem_cons_self ..) rfl
  simp [stamp, h, List.idxOf_append, hnot]

theorem stamp_le (hc : G.Consistent) {e : Nat} (he : e ∈ G.events) (hr : G.Reader e) :
    G.stamp (G.rf e) ≤ G.mo.length := by
  cases hw : G.rf e with
  | none => exact Nat.zero_le _
  | some w => exact List.idxOf_lt_length_of_mem (hc.rf_mem e he hr w hw)

/-- What the order has from the `k`th write on: those writes, and the reads after them. -/
theorem mem_fromWrite {k e : Nat} {ws : List Nat} : e ∈ G.fromWrite k ws ↔ e ∈ ws ∨
    e ∈ G.events ∧ (G.label e).writes = none ∧ k ≤ G.stamp (G.rf e) ∧
      G.stamp (G.rf e) ≤ k + ws.length := by
  induction ws generalizing k with
  | nil =>
    rw [fromWrite, mem_readers]
    simp only [List.not_mem_nil, false_or, List.length_nil]
    constructor
    · rintro ⟨he, hn, hk⟩
      exact ⟨he, hn, by omega, by omega⟩
    · rintro ⟨he, hn, hlow, hhigh⟩
      exact ⟨he, hn, by omega⟩
  | cons w ws ih =>
    rw [fromWrite, List.mem_append, mem_readers, List.mem_cons, ih, List.mem_cons,
      List.length_cons]
    constructor
    · rintro (⟨he, hn, hk⟩ | hw | hw | ⟨he, hn, hlow, hhigh⟩)
      · exact .inr ⟨he, hn, by omega, by omega⟩
      · exact .inl (.inl hw)
      · exact .inl (.inr hw)
      · exact .inr ⟨he, hn, by omega, by omega⟩
    · rintro ((hw | hw) | ⟨he, hn, hlow, hhigh⟩)
      · exact .inr (.inl hw)
      · exact .inr (.inr (.inl hw))
      · by_cases hk : G.stamp (G.rf e) = k
        · exact .inl ⟨he, hn, hk⟩
        · exact .inr (.inr (.inr ⟨he, hn, by omega, by omega⟩))

theorem rank_fromWrite (hc : G.Consistent) {before ws : List Nat} (h : G.mo = before ++ ws)
    {e : Nat} (he : e ∈ G.fromWrite before.length ws) : before.length ≤ G.rank e := by
  rcases mem_fromWrite.mp he with hw | ⟨-, hn, hlow, -⟩
  · obtain ⟨left, right, rfl⟩ := List.append_of_mem hw
    have hmo : e ∈ G.mo := by simp [h]
    have hsplit : G.mo = (before ++ left) ++ e :: right := by simp [h]
    have hstamp := stamp_of_split hc hsplit
    rw [rank_writer ((hc.mo_mem e).mp hmo).2, hstamp, List.length_append]
    omega
  · rw [rank_reader hn]
    exact hlow

/-- Happens-before never goes down in rank, and not along one rank to a write. -/
theorem rank_of_hb (hc : G.Consistent) {a b : Nat} (ha : a ∈ G.events) (hb : b ∈ G.events)
    (h : G.hb a b) : G.rank a ≤ G.rank b ∧ (G.Writer b → G.rank a < G.rank b) := by
  by_cases hwa : (G.label a).writes = none <;> by_cases hwb : (G.label b).writes = none
  · have hle := hc.read_read a ha b hb h (reader_of_not_writer hwa) (reader_of_not_writer hwb)
    rw [rank_reader hwa, rank_reader hwb]
    exact ⟨hle, fun hw => absurd hwb hw⟩
  · have hlt := hc.read_write a ha b hb h (reader_of_not_writer hwa) hwb
    rw [rank_reader hwa, rank_writer hwb]
    exact ⟨Nat.le_of_lt hlt, fun _ => hlt⟩
  · have hle := hc.write_read a ha b hb h hwa (reader_of_not_writer hwb)
    rw [rank_writer hwa, rank_reader hwb]
    exact ⟨hle, fun hw => absurd hwb hw⟩
  · have hlt := hc.write_write a ha b hb h hwa hwb
    rw [rank_writer hwa, rank_writer hwb]
    exact ⟨Nat.le_of_lt hlt, fun _ => hlt⟩

theorem fromWrite_events (hc : G.Consistent) {before ws : List Nat} (h : G.mo = before ++ ws)
    {k e : Nat} (he : e ∈ G.fromWrite k ws) : e ∈ G.events := by
  rcases mem_fromWrite.mp he with hw | ⟨he, -⟩
  · exact ((hc.mo_mem e).mp (by simp [h, hw])).1
  · exact he

theorem readers_pairwise (k : Nat) :
    (G.readers k).Pairwise fun a b => a ≠ b ∧ ¬ G.hb b a := by
  refine (G.sorted.filter _).imp fun hlt => ⟨Nat.ne_of_lt hlt, fun hb => ?_⟩
  exact Nat.lt_asymm hlt (G.forward _ _ hb)

theorem fromWrite_pairwise (hc : G.Consistent) {before ws : List Nat} (h : G.mo = before ++ ws) :
    (G.fromWrite before.length ws).Pairwise fun a b => a ≠ b ∧ ¬ G.hb b a := by
  induction ws generalizing before with
  | nil => exact readers_pairwise _
  | cons w ws ih =>
    have h' : G.mo = (before ++ [w]) ++ ws := by simp [h]
    have hlen : (before ++ [w]).length = before.length + 1 := by simp
    have htail := ih h'
    have hlow : ∀ e ∈ G.fromWrite (before.length + 1) ws, before.length + 1 ≤ G.rank e := by
      intro e he
      rw [← hlen] at he ⊢
      exact rank_fromWrite hc h' he
    rw [hlen] at htail
    have hw : G.Writer w := ((hc.mo_mem w).mp (by simp [h])).2
    have hwe : w ∈ G.events := ((hc.mo_mem w).mp (by simp [h])).1
    have hrank : G.rank w = before.length + 1 := by rw [rank_writer hw, stamp_of_split hc h]
    have htails : ∀ e ∈ G.fromWrite (before.length + 1) ws, e ∈ G.events :=
      fun e he => fromWrite_events hc h' he
    refine List.pairwise_append.mpr ⟨readers_pairwise _, ?_, fun a ha b hb => ?_⟩
    · refine List.pairwise_cons.mpr ⟨fun b hb => ⟨?_, fun hbw => ?_⟩, htail⟩
      · rintro rfl
        rcases mem_fromWrite.mp hb with hmem | ⟨-, hn, -⟩
        · have hnodup := hc.mo_nodup
          rw [h, List.nodup_append, List.nodup_cons] at hnodup
          exact hnodup.2.1.1 hmem
        · exact hw hn
      · have hlt := (rank_of_hb hc (htails b hb) hwe hbw).2 hw
        have hle := hlow b hb
        omega
    · obtain ⟨hae, han, hstamp⟩ := mem_readers.mp ha
      have harank : G.rank a = before.length := by rw [rank_reader han, hstamp]
      have hbound : b ∈ G.events ∧ before.length + 1 ≤ G.rank b := by
        rcases List.mem_cons.mp hb with rfl | hb
        · exact ⟨hwe, Nat.le_of_eq hrank.symm⟩
        · exact ⟨htails b hb, hlow b hb⟩
      refine ⟨fun hab => ?_, fun hba => ?_⟩
      · subst hab
        omega
      · have hle := (rank_of_hb hc hbound.1 hae hba).1
        omega

/-- An event that sees the place after the writes `before` reads from their last. -/
theorem rf_of_stamp (hc : G.Consistent) {before ws : List Nat} (h : G.mo = before ++ ws) {e : Nat}
    (he : e ∈ G.events) (hr : G.Reader e) (hs : G.stamp (G.rf e) = before.length) :
    G.rf e = before.getLast? := by
  cases hrf : G.rf e with
  | none =>
    rw [hrf] at hs
    have hnil : before = [] := List.length_eq_zero_iff.mp hs.symm
    rw [hnil]
    rfl
  | some w =>
    rw [hrf] at hs
    have hmem := hc.rf_mem e he hr w hrf
    have hat := List.getElem?_idxOf hmem
    simp only [stamp] at hs
    rw [List.getLast?_eq_getElem?, ← hs, Nat.add_sub_cancel]
    rw [h, List.getElem?_append_left (by rw [h] at hs; omega)] at hat
    rw [h]
    exact hat.symm

theorem read_value (hc : G.Consistent) {before ws : List Nat} (h : G.mo = before ++ ws) {e : Nat}
    {seen : V} (he : e ∈ G.events) (hseen : (G.label e).reads = some seen)
    (hs : G.stamp (G.rf e) = before.length) : seen = G.written before.getLast? := by
  have hr : G.Reader e := by
    unfold Reader
    rw [hseen]
    exact Option.some_ne_none seen
  rw [hc.rf_value e he seen hseen, rf_of_stamp hc h he hr hs]

/-- The reads after the writes `before` replay, and leave the value as it is. -/
theorem readers_replay (hc : G.Consistent) {before ws : List Nat} (h : G.mo = before ++ ws) :
    Replays (G.written before.getLast?) ((G.readers before.length).map G.label) ∧
    final (G.written before.getLast?) ((G.readers before.length).map G.label) =
      G.written before.getLast? := by
  have hnone : ∀ event ∈ (G.readers before.length).map G.label, event.writes = none := by
    intro event hevent
    obtain ⟨e, he, rfl⟩ := List.mem_map.mp hevent
    exact (mem_readers.mp he).2.1
  refine ⟨replays_of_reads hnone fun event hevent seen hseen => ?_, final_of_reads hnone⟩
  obtain ⟨e, he, rfl⟩ := List.mem_map.mp hevent
  obtain ⟨hee, -, hs⟩ := mem_readers.mp he
  exact read_value hc h hee hseen hs

theorem fromWrite_replays (hc : G.Consistent) {before ws : List Nat} (h : G.mo = before ++ ws) :
    Replays (G.written before.getLast?) ((G.fromWrite before.length ws).map G.label) := by
  induction ws generalizing before with
  | nil => exact (readers_replay hc h).1
  | cons w ws ih =>
    have h' : G.mo = (before ++ [w]) ++ ws := by simp [h]
    have hmem : w ∈ G.mo := by simp [h]
    obtain ⟨hwe, hw⟩ := (hc.mo_mem w).mp hmem
    obtain ⟨hreads, hvalue⟩ := readers_replay hc h
    have htail := ih h'
    rw [List.length_append, List.length_singleton, List.getLast?_concat] at htail
    have hwritten : ∀ value, (G.label w).writes.getD value = G.written (some w) := by
      intro value
      cases hl : (G.label w).writes with
      | none => exact absurd hl hw
      | some new => simp [written, hl]
    rw [fromWrite, List.map_append, List.map_cons, replays_append, hvalue]
    refine ⟨hreads, fun seen hseen => ?_, ?_⟩
    · have hr : G.Reader w := by
        unfold Reader
        rw [hseen]
        exact Option.some_ne_none seen
      have hatomic := hc.atomic w hwe hr hw
      rw [stamp_of_split hc h] at hatomic
      exact read_value hc h hwe hseen (by omega)
    · rw [hwritten]
      exact htail

theorem order_perm (hc : G.Consistent) : G.order.Perm G.events := by
  have hnodup : G.order.Nodup :=
    (fromWrite_pairwise hc (show G.mo = [] ++ G.mo from rfl)).imp fun h => h.1
  have hevents : G.events.Nodup := G.sorted.imp fun h => Nat.ne_of_lt h
  refine (List.perm_ext_iff_of_nodup hnodup hevents).mpr fun e => ?_
  rw [order, mem_fromWrite, Nat.zero_add]
  constructor
  · rintro (hw | ⟨he, -⟩)
    · exact ((hc.mo_mem e).mp hw).1
    · exact he
  · intro he
    by_cases hn : (G.label e).writes = none
    · exact .inr ⟨he, hn, Nat.zero_le _, stamp_le hc he (reader_of_not_writer hn)⟩
    · exact .inl ((hc.mo_mem e).mpr ⟨he, hn⟩)

/-- The events of one place in some order that happens-before does not go against are
a run of one sequential variable: each reads what the events before it left. -/
theorem exists_sequential_order (hc : G.Consistent) : ∃ order : List Nat, order.Perm G.events ∧
    order.Pairwise (fun a b => ¬ G.hb b a) ∧ Replays G.initial (order.map G.label) := by
  have hpair := fromWrite_pairwise hc (show G.mo = [] ++ G.mo from rfl)
  exact ⟨G.order, order_perm hc, hpair.imp fun h => h.2,
    fromWrite_replays hc (show G.mo = [] ++ G.mo from rfl)⟩

/-! ## An order that happens-before decides -/

/-- The last write of the events, if one of them writes. -/
def LastWrite (G : Execution V) (before : List Nat) : Option Nat → Prop
  | none => ∀ e ∈ before, ¬ G.Writer e
  | some w => w ∈ before ∧ G.Writer w ∧ ∀ e ∈ before, G.Writer e → e ≤ w

/-- A write happens before whatever comes after it, and after whatever comes before. -/
def WritesOrdered (G : Execution V) : Prop :=
  ∀ a ∈ G.events, ∀ b ∈ G.events, a < b → G.Writer a ∨ G.Writer b → G.hb a b

theorem LastWrite.after {before : List Nat} {last : Option Nat} {e : Nat}
    (h : G.LastWrite before last) (hbefore : ∀ a ∈ before, a < e) :
    G.LastWrite (before ++ [e]) (if (G.label e).writes.isSome then some e else last) := by
  split
  · rename_i hw
    refine ⟨by simp, Option.isSome_iff_ne_none.mp hw, fun a ha _ => ?_⟩
    rcases List.mem_append.mp ha with ha | ha
    · exact Nat.le_of_lt (hbefore a ha)
    · exact Nat.le_of_eq (List.mem_singleton.mp ha)
  · rename_i hw
    have hnot : ¬ G.Writer e := fun h => hw (Option.isSome_iff_ne_none.mpr h)
    cases last with
    | none =>
      intro a ha
      rcases List.mem_append.mp ha with ha | ha
      · exact h a ha
      · rwa [List.mem_singleton.mp ha]
    | some w =>
      refine ⟨List.mem_append_left _ h.1, h.2.1, fun a ha haw => ?_⟩
      rcases List.mem_append.mp ha with ha | ha
      · exact h.2.2 a ha haw
      · exact absurd (List.mem_singleton.mp ha ▸ haw) hnot

/-- A read sees the last write before it. -/
theorem rf_eq_last (hc : G.Consistent) (ho : G.WritesOrdered) {before after : List Nat}
    {last : Option Nat} {e : Nat} (h : G.events = before ++ e :: after)
    (hlast : G.LastWrite before last) (hr : G.Reader e) : G.rf e = last := by
  have hsorted := G.sorted
  rw [h, List.pairwise_append, List.pairwise_cons] at hsorted
  obtain ⟨-, ⟨hafter, -⟩, hbefore⟩ := hsorted
  have he : e ∈ G.events := by simp [h]
  have hmem : ∀ a ∈ before, a ∈ G.events := fun a ha => by simp [h, ha]
  have hlt : ∀ a ∈ before, a < e := fun a ha => hbefore a ha e (List.mem_cons_self ..)
  cases hrf : G.rf e with
  | none =>
    cases last with
    | none => rfl
    | some w =>
      obtain ⟨hw, hwrites, -⟩ := hlast
      have hle := hc.write_read w (hmem w hw) e he
        (ho w (hmem w hw) e he (hlt w hw) (.inl hwrites)) hwrites hr
      rw [hrf] at hle
      exact absurd hle (Nat.not_succ_le_zero _)
  | some w =>
    obtain ⟨hwe, hwrites⟩ := (hc.mo_mem w).mp (hc.rf_mem e he hr w hrf)
    -- the write is not the event itself, and does not come after it
    have hwb : w ∈ before := by
      rw [h] at hwe
      rcases List.mem_append.mp hwe with hwe | hwe
      · exact hwe
      · rcases List.mem_cons.mp hwe with rfl | hwa
        · have hself := hc.atomic w he hr hwrites
          rw [hrf] at hself
          omega
        · have hover := hc.read_write e he w (by simp [h, hwa])
            (ho e he w (by simp [h, hwa]) (hafter w hwa) (.inr hwrites)) hr hwrites
          rw [hrf] at hover
          exact absurd hover (Nat.lt_irrefl _)
    cases last with
    | none => exact absurd hwrites (hlast w hwb)
    | some u =>
      obtain ⟨hu, huwrites, hmax⟩ := hlast
      rcases Nat.lt_or_eq_of_le (hmax w hwb hwrites) with hwu | rfl
      · -- a write in between would hide it
        have hearly := hc.write_write w (hmem w hwb) u (hmem u hu)
          (ho w (hmem w hwb) u (hmem u hu) hwu (.inl hwrites)) hwrites huwrites
        have hlate := hc.write_read u (hmem u hu) e he
          (ho u (hmem u hu) e he (hlt u hu) (.inl huwrites)) huwrites hr
        rw [hrf] at hlate
        omega
      · rfl

theorem replays_after (hc : G.Consistent) (ho : G.WritesOrdered) {before after : List Nat}
    {last : Option Nat} (h : G.events = before ++ after) (hlast : G.LastWrite before last) :
    Replays (G.written last) (after.map G.label) := by
  induction after generalizing before last with
  | nil => trivial
  | cons e after ih =>
    have hsorted := G.sorted
    rw [h, List.pairwise_append] at hsorted
    refine ⟨fun seen hseen => ?_, ?_⟩
    · have he : e ∈ G.events := by simp [h]
      rw [hc.rf_value e he seen hseen, rf_eq_last hc ho h hlast (by simp [Reader, hseen])]
    · have hevents : G.events = (before ++ [e]) ++ after := by simp [h]
      have hnext := ih hevents
        (hlast.after fun a ha => hsorted.2.2 a ha e (List.mem_cons_self ..))
      cases hw : (G.label e).writes with
      | none => simpa [hw] using hnext
      | some value => simpa [hw, written] using hnext

/-- Where each write of the place is ordered with everything else, the place is a
sequential variable along the trace itself. -/
theorem replays_in_order (hc : G.Consistent) (ho : G.WritesOrdered) :
    Replays G.initial (G.events.map G.label) := by
  have hlast : G.LastWrite [] none := fun _ he => absurd he List.not_mem_nil
  exact replays_after hc ho (List.nil_append _).symm hlast

/-! ## A phase between a write and a read -/

/-- The writes of the place between two positions of the trace. -/
def between (G : Execution V) (i j : Nat) : List Nat :=
  G.events.filter fun e => decide (i < e) && decide (e < j) && (G.label e).writes.isSome

theorem mem_between {i j e : Nat} :
    e ∈ G.between i j ↔ e ∈ G.events ∧ i < e ∧ e < j ∧ G.Writer e := by
  simp [between, Writer, Option.isSome_iff_ne_none, and_assoc]

/-- `step` is what the write at `e` makes of the value that it finds. -/
def Steps (G : Execution V) (e : Nat) (step : V → V) : Prop :=
  ∀ value, (∀ seen, (G.label e).reads = some seen → seen = value) →
    (G.label e).writes = some (step value)

theorem final_eq_foldl {value : V} {events : List Nat} {step : Nat → V → V}
    (hr : Replays value (events.map G.label))
    (hs : ∀ e ∈ events, G.Writer e → G.Steps e (step e)) :
    final value (events.map G.label) =
      (events.filter fun e => (G.label e).writes.isSome).foldl (fun v e => step e v) value := by
  induction events generalizing value with
  | nil => rfl
  | cons e events ih =>
    obtain ⟨hread, hrest⟩ := hr
    rw [List.map_cons, final_cons, ih hrest fun f hf => hs f (List.mem_cons_of_mem _ hf)]
    by_cases hw : (G.label e).writes = none
    · simp [hw]
    · have hstep := hs e (List.mem_cons_self ..) hw value hread
      simp [hstep]

/-- Where an event that is ordered with two others comes in the order of all. -/
theorem mem_middle {early mid late : List Nat} {i j e : Nat}
    (hnodup : (early ++ i :: (mid ++ j :: late)).Nodup)
    (hpair : (early ++ i :: (mid ++ j :: late)).Pairwise fun a b => ¬ G.hb b a)
    (he : e ∈ early ++ i :: (mid ++ j :: late)) (hoi : e ≠ i → G.hb e i ∨ G.hb i e)
    (hoj : e ≠ j → G.hb e j ∨ G.hb j e) (hij : i < j) : e ∈ mid ↔ i < e ∧ e < j := by
  have hforward := G.forward
  obtain ⟨-, hrest, hearly⟩ := List.pairwise_append.mp hpair
  obtain ⟨hafter, hrest⟩ := List.pairwise_cons.mp hrest
  obtain ⟨-, hlate, hmid⟩ := List.pairwise_append.mp hrest
  obtain ⟨hlate, -⟩ := List.pairwise_cons.mp hlate
  obtain ⟨-, hnodup, -⟩ := List.nodup_append.mp hnodup
  obtain ⟨hi, hnodup⟩ := List.nodup_cons.mp hnodup
  obtain ⟨-, -, hj⟩ := List.nodup_append.mp hnodup
  constructor
  · intro hm
    have hei : e ≠ i := by
      rintro rfl
      exact hi (List.mem_append_left _ hm)
    have hej : e ≠ j := hj e hm j (List.mem_cons_self ..)
    have hie := (hoi hei).resolve_left (hafter e (List.mem_append_left _ hm))
    have hje := (hoj hej).resolve_right (hmid e hm j (List.mem_cons_self ..))
    exact ⟨hforward i e hie, hforward e j hje⟩
  · rintro ⟨hie, hej⟩
    have hhi : G.hb i e := (hoi (Nat.ne_of_gt hie)).resolve_left fun h => by
      have hlt := hforward e i h
      omega
    have hhj : G.hb e j := (hoj (Nat.ne_of_lt hej)).resolve_right fun h => by
      have hlt := hforward j e h
      omega
    rcases List.mem_append.mp he with he | he
    · exact absurd hhi (hearly e he i (List.mem_cons_self ..))
    rcases List.mem_cons.mp he with rfl | he
    · omega
    rcases List.mem_append.mp he with he | he
    · exact he
    rcases List.mem_cons.mp he with rfl | he
    · omega
    · exact absurd hhj (hlate e he)

/-- A write and a read that every write of the place is ordered with: the read gives
what the writes between the two make of the written value, in any order of them where
they commute. -/
theorem read_after_phase (hc : G.Consistent) {i j : Nat} {first seen : V} {step : Nat → V → V}
    (hi : i ∈ G.events) (hj : j ∈ G.events) (hfirst : G.label i = .write first)
    (hseen : G.label j = .read seen) (hij : G.hb i j)
    (hoi : ∀ e ∈ G.events, G.Writer e → e ≠ i → G.hb e i ∨ G.hb i e)
    (hoj : ∀ e ∈ G.events, G.Writer e → e ≠ j → G.hb e j ∨ G.hb j e)
    (hs : ∀ e ∈ G.between i j, G.Steps e (step e))
    (hcomm : ∀ a ∈ G.between i j, ∀ b ∈ G.between i j, ∀ v, step a (step b v) = step b (step a v)) :
    seen = (G.between i j).foldl (fun v e => step e v) first := by
  obtain ⟨order, hperm, hpair, hreplays⟩ := exists_sequential_order hc
  have hsorted : G.events.Nodup := G.sorted.imp fun h => Nat.ne_of_lt h
  have hnodup : order.Nodup := hperm.nodup_iff.mpr hsorted
  have hlt := G.forward i j hij
  obtain ⟨early, rest, rfl⟩ := List.append_of_mem (hperm.mem_iff.mpr hi)
  have hjrest : j ∈ rest := by
    obtain ⟨-, -, hearly⟩ := List.pairwise_append.mp hpair
    rcases List.mem_append.mp (hperm.mem_iff.mpr hj) with hje | hje
    · exact absurd hij (hearly j hje i (List.mem_cons_self ..))
    · exact (List.mem_cons.mp hje).resolve_left (Nat.ne_of_gt hlt)
  obtain ⟨mid, late, rfl⟩ := List.append_of_mem hjrest
  have hmiddle : ∀ e ∈ early ++ i :: (mid ++ j :: late), G.Writer e →
      (e ∈ mid ↔ i < e ∧ e < j) := fun e he hw =>
    mem_middle hnodup hpair he (hoi e (hperm.mem_iff.mp he) hw)
      (hoj e (hperm.mem_iff.mp he) hw) hlt
  have hsub : mid.Sublist (early ++ i :: (mid ++ j :: late)) :=
    ((List.sublist_append_left mid _).cons i).trans (List.sublist_append_right early _)
  have hwrites : (mid.filter fun e => (G.label e).writes.isSome).Perm (G.between i j) := by
    have hbetween : (G.between i j).Nodup := hsorted.filter _
    refine (List.perm_ext_iff_of_nodup ((hnodup.sublist hsub).filter _) hbetween).mpr fun e => ?_
    rw [List.mem_filter, Option.isSome_iff_ne_none, mem_between]
    constructor
    · rintro ⟨he, hw⟩
      have hin := hsub.subset he
      obtain ⟨hie, hej⟩ := (hmiddle e hin hw).mp he
      exact ⟨hperm.mem_iff.mp hin, hie, hej, hw⟩
    · rintro ⟨he, hie, hej, hw⟩
      exact ⟨(hmiddle e (hperm.mem_iff.mpr he) hw).mpr ⟨hie, hej⟩, hw⟩
  -- the run of the variable from the write on
  rw [List.map_append, List.map_cons, List.map_append, List.map_cons, replays_append] at hreplays
  obtain ⟨-, -, hrun⟩ := hreplays
  rw [hfirst, replays_append] at hrun
  obtain ⟨hmid, hread, -⟩ := hrun
  have hsteps : ∀ e ∈ mid, G.Writer e → G.Steps e (step e) := fun e he hw =>
    hs e (hwrites.mem_iff.mp (List.mem_filter.mpr ⟨he, Option.isSome_iff_ne_none.mpr hw⟩))
  have hvalue := hread seen (by rw [hseen]; rfl)
  rw [hvalue, final_eq_foldl hmid hsteps]
  exact hwrites.foldl_eq' (fun a ha b hb v =>
    hcomm b (hwrites.mem_iff.mp hb) a (hwrites.mem_iff.mp ha) v) _

end Execution

end executions
