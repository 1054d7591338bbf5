-- The views of one `WriterShard` whose brand's owner token is in reach as well:
-- `as_slice`, `get` and `iter` keep a loan of the shard alone, and `as_cells` lets
-- a permit write the same cells. When the reads of the shard are stable.
import Melinoe.Permits
import Melinoe.Region
import Melinoe.Runs

open loans tiles runs

namespace melinoe.region

open token cell

variable {T : Type}

/-! ## The calls on a shard -/

/-- What a loan is of. -/
inductive Resource
  | shard
  | token
deriving DecidableEq

/-- The methods that take `&self` and show values. -/
inductive SharedCall
  | as_slice
  | get (index : Nat)
  | iter

/-- The methods that take `&mut self`. -/
inductive ExclusiveCall
  | as_mut_slice
  | get_mut (index : Nat)
  | iter_mut

namespace WriterShard

/-- The cell of `get(index)` on the whole slice. -/
def place (self : WriterShard) (index : Nat) : Option Span :=
  if index < self.cells.len then some ⟨self.cells.start + index, 1⟩ else none

def shared (self : WriterShard) : SharedCall → Option Span
  | .as_slice => some self.cells
  | .get index => self.place index
  | .iter => some self.cells

def exclusive (self : WriterShard) : ExclusiveCall → Option Span
  | .as_mut_slice => some self.cells
  | .get_mut index => self.place index
  | .iter_mut => some self.cells

/-- A view of one cell reads what `get` does. -/
theorem place_cut {self : WriterShard} {index : Nat} {span : Span}
    (h : self.place index = some span) (mem : List T) :
    span.cut mem = (self.get mem index).toList := by
  unfold place at h
  split at h
  · rename_i hlt
    cases h
    unfold WriterShard.get WriterShard.as_slice
    rw [Span.cut_getElem?, if_pos hlt, Span.cut, List.take_one, List.head?_drop]
  · cases h

/-- The values that the reference of a call shows, on the memory as it is. -/
def reads (self : WriterShard) (mem : List T) : SharedCall → List T
  | .as_slice => self.as_slice mem
  | .get index => (self.get mem index).toList
  | .iter => self.as_slice mem

/-- The cells of a call's view hold what the shard's own `as_slice` and `get` read. -/
theorem shared_cut {self : WriterShard} {call : SharedCall} {span : Span}
    (h : self.shared call = some span) (mem : List T) : span.cut mem = self.reads mem call := by
  cases call with
  | as_slice => cases h; rfl
  | iter => cases h; rfl
  | get index => exact place_cut h mem

/-- The cells of the region, as the owner token sees them. -/
def as_cells (self : WriterShard) : List (MelinoeCell Nat) :=
  (List.range' self.cells.start self.cells.len).map fun x => ⟨{x}⟩

/-- A cell of `as_cells`, or a run of them. -/
def Gives (self : WriterShard) : Shape Nat → Prop
  | .cell c => c ∈ self.as_cells
  | .slice cells => cells <:+: self.as_cells
  | _ => False

end WriterShard

/-! ## The live views and the steps -/

/-- A live reference that a call on the shard, or a gated call on its `as_cells`,
has returned. `id` is that of its loan of the shard. -/
inductive ShardView
  | read (id : Nat) (span : Span)
  | cells (id : Nat)
  | token (id : Nat) (permit : Loan Resource) (kind : Kind) (places : Finset Nat)
  | write (id : Nat) (span : Span)

namespace ShardView

/-- What keeps the view alive: a loan of the shard, and for a gated call the loan of
its permit. -/
def loans : ShardView → List (Loan Resource)
  | .read id _ => [⟨id, .shard, .shared⟩]
  | .cells id => [⟨id, .shard, .shared⟩]
  | .token id permit _ _ => [⟨id, .shard, .shared⟩, permit]
  | .write id _ => [⟨id, .shard, .exclusive⟩]

/-- `as_slice`, `get` or `iter` gave the view, and `x` is a cell of it. -/
def Shows (x : Nat) : ShardView → Prop
  | .read _ span => span.Has x
  | _ => False

/-- `borrow_mut`, `replace` or `borrow_slice_mut` gave the view, and `x` is a cell of it. -/
def TokenWrites (x : Nat) : ShardView → Prop
  | .token _ _ kind places => kind = .exclusive ∧ x ∈ places
  | _ => False

/-- The cell can be written through the view. -/
def Writes (x : Nat) : ShardView → Prop
  | .token _ _ kind places => kind = .exclusive ∧ x ∈ places
  | .write _ span => span.Has x
  | _ => False

/-- The view is a shared reference, and so `Copy`. -/
def is_copy : ShardView → Bool
  | .read _ _ => true
  | .cells _ => true
  | .token _ _ kind _ => kind == .shared
  | .write _ _ => false

end ShardView

/-- The region's values, the permits of the owner token and the live views. -/
structure ShardState (T : Type) where
  mem : List T
  permits : List (Permit Resource)
  views : List ShardView
  next : Nat

namespace ShardState

def init (mem : List T) : ShardState T := ⟨mem, [], [], 0⟩

def loans (st : ShardState T) : List (Loan Resource) :=
  st.permits.map (·.loan) ++ st.views.flatMap ShardView.loans

/-- What a step asks for, as far as the two guards of the cells can meet. -/
inductive Call
  | read (span : Span)
  | access (access : Access Nat)
  | other

/-- One safe call, a write through a live view, or the end of one value. -/
inductive Step (self : WriterShard) (owner : Owner) :
    ShardState T → Call → ShardState T → Prop
  | borrow_owner {st : ShardState T} {carrier : Carrier} (hl : owner.lends carrier = true)
      (ha : Admits st.loans .token carrier.kind) : Step self owner st .other { st with
        permits := ⟨carrier, ⟨st.next, .token, carrier.kind⟩, rfl⟩ :: st.permits
        next := st.next + 1 }
  | copy_permit {st : ShardState T} {p : Permit Resource} (hp : p ∈ st.permits)
      (hc : p.carrier.is_copy = true) :
      Step self owner st .other { st with permits := p :: st.permits }
  | drop_permit {st : ShardState T} {p : Permit Resource} {rest : List (Permit Resource)}
      (hp : st.permits.Perm (p :: rest)) : Step self owner st .other { st with permits := rest }
  | shared {st : ShardState T} {call : SharedCall} {span : Span}
      (hc : self.shared call = some span) (ha : Admits st.loans .shard .shared) :
      Step self owner st (.read span) { st with
        views := .read st.next span :: st.views
        next := st.next + 1 }
  | as_cells {st : ShardState T} (ha : Admits st.loans .shard .shared) :
      Step self owner st .other { st with
        views := .cells st.next :: st.views
        next := st.next + 1 }
  /-- A gated call on cells that a live `as_cells` reference reaches. -/
  | access {st : ShardState T} {id : Nat} {shape : Shape Nat} {access : Access Nat}
      {p : Permit Resource} {rest : List (Permit Resource)} (hv : .cells id ∈ st.views)
      (hr : self.Gives shape) (ho : shape.Offers access) (hp : st.permits.Perm (p :: rest))
      (ha : access.bound.accepts p.carrier = true) :
      Step self owner st (.access access) { st with
        permits := rest
        views := access.views.map (.token id p.loan access.kind) ++ st.views }
  | exclusive {st : ShardState T} {call : ExclusiveCall} {span : Span}
      (hc : self.exclusive call = some span) (ha : Admits st.loans .shard .exclusive) :
      Step self owner st .other { st with
        views := .write st.next span :: st.views
        next := st.next + 1 }
  | write {st : ShardState T} {v : ShardView} {x : Nat} (value : T) (hv : v ∈ st.views)
      (hw : v.Writes x) : Step self owner st .other { st with mem := st.mem.set x value }
  | copy_view {st : ShardState T} {v : ShardView} (hv : v ∈ st.views) (hc : v.is_copy = true) :
      Step self owner st .other { st with views := v :: st.views }
  | drop_view {st : ShardState T} {v : ShardView} {rest : List ShardView}
      (hv : st.views.Perm (v :: rest)) : Step self owner st .other { st with views := rest }

/-- No cell is in a view of `as_slice`, `get` or `iter` and in a `&mut` view that a
permit has opened through `as_cells`. -/
def Separate (st : ShardState T) : Prop :=
  ∀ v ∈ st.views, ∀ w ∈ st.views, ∀ x, v.Shows x → ¬ w.TokenWrites x

/-- Before a shard read, no permit writes the cells that it will show; before a
gated write, no shard read shows its cells. -/
def Careful (st : ShardState T) : Call → Prop
  | .read span => ∀ w ∈ st.views, ∀ x, span.Has x → ¬ w.TokenWrites x
  | .access access => access.kind = .exclusive → ∀ places ∈ access.views, ∀ x ∈ places,
      ∀ v ∈ st.views, ¬ v.Shows x
  | .other => True

end ShardState

/-! ## The loans of a run -/

variable {self : WriterShard} {owner : Owner} {st st' : ShardState T} {call : ShardState.Call}

open ShardState

theorem mem_shard_loans {l : Loan Resource} : l ∈ st.loans ↔
    (∃ p ∈ st.permits, p.loan = l) ∨ ∃ v ∈ st.views, l ∈ v.loans := by
  simp [ShardState.loans]

/-- Every loan of the state is one of `live`. -/
theorem loans_subset {live : List (Loan Resource)} (hp : ∀ p ∈ st.permits, p.loan ∈ live)
    (hv : ∀ v ∈ st.views, ∀ l ∈ v.loans, l ∈ live) : ∀ l ∈ st.loans, l ∈ live := by
  intro l hl
  rcases mem_shard_loans.mp hl with ⟨p, hmem, rfl⟩ | ⟨v, hmem, hl⟩
  · exact hp p hmem
  · exact hv v hmem l hl

theorem permit_loan {p : Permit Resource} (hp : p ∈ st.permits) : p.loan ∈ st.loans :=
  mem_shard_loans.mpr (.inl ⟨p, hp, rfl⟩)

theorem view_loan {v : ShardView} (hv : v ∈ st.views) : ∀ l ∈ v.loans, l ∈ st.loans :=
  fun _ hl => mem_shard_loans.mpr (.inr ⟨v, hv, hl⟩)

/-- A view over one new loan that the rule admits. -/
theorem lawful_view {v : ShardView} {l : Loan Resource} {next : Nat} (h : Lawful st.loans)
    (ha : Admits st.loans l.of l.kind) (hl : v.loans = [l]) :
    Lawful { st with views := v :: st.views, next }.loans := by
  refine lawful_of_subset (lawful_open h ha) (loans_subset (fun p hp => ?_) fun w hw m hm => ?_)
  · exact List.mem_cons_of_mem _ (permit_loan hp)
  · rcases List.mem_cons.mp hw with rfl | hw
    · rw [hl, List.mem_singleton] at hm
      exact hm ▸ List.mem_cons_self
    · exact List.mem_cons_of_mem _ (view_loan hw m hm)

/-- The views of a gated call hold loans that were live: of its cells, and of its permit. -/
theorem access_loans {id : Nat} {access : Access Nat} {p : Permit Resource}
    (hv : .cells id ∈ st.views) (hp : p ∈ st.permits) {w : ShardView}
    (hw : w ∈ access.views.map (.token id p.loan access.kind)) : ∀ l ∈ w.loans, l ∈ st.loans := by
  obtain ⟨places, -, rfl⟩ := List.mem_map.mp hw
  intro l hl
  rcases List.mem_cons.mp hl with rfl | hl
  · exact view_loan hv _ (List.mem_singleton_self _)
  · exact List.mem_singleton.mp hl ▸ permit_loan hp

theorem lawful_step (h : Lawful st.loans) (hs : Step self owner st call st') :
    Lawful st'.loans := by
  cases hs with
  | borrow_owner hl ha => exact lawful_open h ha
  | shared hc ha => exact lawful_view h ha rfl
  | as_cells ha => exact lawful_view h ha rfl
  | exclusive hc ha => exact lawful_view h ha rfl
  | write value hv hw => exact h
  | @copy_permit p hp hc =>
    refine lawful_of_subset h (loans_subset (fun q hq => ?_) fun v hv => view_loan hv)
    rcases List.mem_cons.mp hq with rfl | hq
    · exact permit_loan hp
    · exact permit_loan hq
  | drop_permit hp =>
    refine lawful_of_subset h (loans_subset (fun q hq => ?_) fun v hv => view_loan hv)
    exact permit_loan (hp.mem_iff.mpr (List.mem_cons_of_mem _ hq))
  | access hv hr ho hp ha =>
    refine lawful_of_subset h (loans_subset (fun q hq => ?_) fun w hw => ?_)
    · exact permit_loan (hp.mem_iff.mpr (List.mem_cons_of_mem _ hq))
    · rcases List.mem_append.mp hw with hw | hw
      · exact access_loans hv (hp.mem_iff.mpr List.mem_cons_self) hw
      · exact view_loan hw
  | copy_view hv hc =>
    refine lawful_of_subset h (loans_subset (fun q hq => permit_loan hq) fun w hw => ?_)
    rcases List.mem_cons.mp hw with rfl | hw
    · exact view_loan hv
    · exact view_loan hw
  | drop_view hv =>
    refine lawful_of_subset h (loans_subset (fun q hq => permit_loan hq) fun w hw => ?_)
    exact view_loan (hv.mem_iff.mpr (List.mem_cons_of_mem _ hw))

/-! ## Careful runs -/

/-- Only a read of the shard and a gated write can bring two such views together. -/
theorem separate_cons {v : ShardView} {next : Nat} {permits : List (Permit Resource)}
    (h : st.Separate) : Separate { st with permits, views := v :: st.views, next } ↔
      (∀ w ∈ st.views, ∀ x, v.Shows x → ¬ w.TokenWrites x) ∧
      (∀ w ∈ st.views, ∀ x, w.Shows x → ¬ v.TokenWrites x) := by
  have hself : ∀ x, v.Shows x → ¬ v.TokenWrites x := by
    intro x hs ht
    cases v with
    | read => exact ht
    | cells => exact hs
    | token => exact hs
    | write => exact hs
  constructor
  · intro hall
    exact ⟨fun w hw => hall v List.mem_cons_self w (List.mem_cons_of_mem _ hw),
      fun w hw => hall w (List.mem_cons_of_mem _ hw) v List.mem_cons_self⟩
  · intro ⟨hshow, hwrite⟩ a ha b hb
    rcases List.mem_cons.mp ha with rfl | hold <;> rcases List.mem_cons.mp hb with rfl | hold'
    · exact hself
    · exact hshow b hold'
    · exact hwrite a hold
    · exact h a hold b hold'

/-- A step from a separate state keeps it separate exactly if it is careful. -/
theorem separate_step (h : st.Separate) (hs : Step self owner st call st') :
    st'.Separate ↔ st.Careful call := by
  cases hs with
  | borrow_owner hl ha => exact iff_of_true h trivial
  | copy_permit hp hc => exact iff_of_true h trivial
  | drop_permit hp => exact iff_of_true h trivial
  | write value hv hw => exact iff_of_true h trivial
  | as_cells ha => exact iff_of_true ((separate_cons h).mpr ⟨fun _ _ _ hf => hf.elim,
      fun _ _ _ _ hf => hf⟩) trivial
  | exclusive hc ha => exact iff_of_true ((separate_cons h).mpr ⟨fun _ _ _ hf => hf.elim,
      fun _ _ _ _ hf => hf⟩) trivial
  | copy_view hv hc => exact iff_of_true ((separate_cons h).mpr ⟨fun w hw => h _ hv w hw,
      fun w hw => h w hw _ hv⟩) trivial
  | drop_view hv =>
    refine iff_of_true (fun a ha b hb => h a ?_ b ?_) trivial
    · exact hv.mem_iff.mpr (List.mem_cons_of_mem _ ha)
    · exact hv.mem_iff.mpr (List.mem_cons_of_mem _ hb)
  | shared hc ha =>
    exact (separate_cons h).trans ⟨fun hall => hall.1, fun hread => ⟨hread, fun _ _ _ _ hf => hf⟩⟩
  | @access id shape access p rest hv hr ho hp ha =>
    constructor
    · intro hall hk places hplaces x hx v hv hshows
      exact hall v (List.mem_append_right _ hv) (.token id p.loan access.kind places)
        (List.mem_append_left _ (List.mem_map_of_mem hplaces)) x hshows ⟨hk, hx⟩
    · intro hcareful a ha b hb x hshows hwrites
      have hold : a ∈ st.views := by
        refine (List.mem_append.mp ha).resolve_left fun hnew => ?_
        obtain ⟨places, -, rfl⟩ := List.mem_map.mp hnew
        exact hshows
      rcases List.mem_append.mp hb with hnew | hold'
      · obtain ⟨places, hplaces, rfl⟩ := List.mem_map.mp hnew
        exact hcareful hwrites.1 places hplaces x hwrites.2 a hold hshows
      · exact h a hold b hold' x hshows hwrites

/-- Any step that the borrow checker admits. -/
def SafeStep (self : WriterShard) (owner : Owner) (st st' : ShardState T) : Prop :=
  ∃ call, Step self owner st call st'

/-- A step of a careful run. -/
def CarefulStep (self : WriterShard) (owner : Owner) (st st' : ShardState T) : Prop :=
  ∃ call, Step self owner st call st' ∧ st.Careful call

/-- The loans obey the rule, and the two guards have not met. -/
structure Guarded (st : ShardState T) : Prop where
  lawful : Lawful st.loans
  separate : st.Separate

theorem guarded_of_run {mem : List T} (h : Reaches (CarefulStep self owner) (init mem) st) :
    Guarded st := by
  refine inv_of_reaches h ⟨lawful_nil, fun v hv => by cases hv⟩ fun a b ha hab => ?_
  obtain ⟨call, hs, hcareful⟩ := hab
  exact ⟨lawful_step ha.lawful hs, (separate_step ha.separate hs).mpr hcareful⟩

/-- No live view writes a cell that a shard read shows. -/
theorem not_writes (h : Guarded st) {v w : ShardView} (hv : v ∈ st.views) (hw : w ∈ st.views)
    {x : Nat} (hs : v.Shows x) : ¬ w.Writes x := by
  intro hwrites
  cases v with
  | read id span =>
    cases w with
    | token id' permit kind places => exact h.separate _ hv _ hw x hs hwrites
    | write id' span' =>
      -- the one loan of the shard is shared, the other exclusive
      exact not_shared_of_exclusive h.lawful (view_loan hw _ (List.mem_singleton_self _))
        (view_loan hv _ (List.mem_singleton_self _)) rfl rfl rfl
    | read => exact hwrites
    | cells => exact hwrites
  | cells => exact hs
  | token => exact hs
  | write => exact hs

theorem step_mem (h : Guarded st) (hs : Step self owner st call st') {v : ShardView}
    (hv : v ∈ st.views) {x : Nat} (hshows : v.Shows x) : st'.mem[x]? = st.mem[x]? := by
  cases hs with
  | @write w y value hw hwrites =>
    apply List.getElem?_set_ne
    intro heq
    subst heq
    exact not_writes h hv hw hshows hwrites
  | _ => rfl

/-- While the view lives, a careful run leaves the cells that it shows. -/
theorem read_stable (h : Guarded st) {id : Nat} {span : Span} (hv : .read id span ∈ st.views)
    (hrun : Reaches (fun a b => CarefulStep self owner a b ∧ .read id span ∈ b.views) st st') :
    span.cut st'.mem = span.cut st.mem := by
  have hall : Guarded st' ∧ .read id span ∈ st'.views ∧ span.cut st'.mem = span.cut st.mem := by
    refine inv_of_reaches (I := fun u => Guarded u ∧ .read id span ∈ u.views ∧
      span.cut u.mem = span.cut st.mem) hrun ⟨h, hv, rfl⟩ ?_
    intro a b ⟨hg, ha, hcut⟩ ⟨⟨call, hs, hcareful⟩, hb⟩
    refine ⟨⟨lawful_step hg.lawful hs, (separate_step hg.separate hs).mpr hcareful⟩, hb, ?_⟩
    exact (Span.cut_congr fun x hx => step_mem hg hs ha hx).trans hcut
  exact hall.2.2

/-- Shard reads next to the owner token. A run keeps the views of `as_slice`, `get`
and `iter` apart from what permits write through `as_cells` as long as its steps
are careful, and the first step that is not brings two together; in a careful run
every read through one live view gives the same values. -/
theorem shard_reads_are_stable_in_careful_runs (self : WriterShard) (owner : Owner) (mem : List T)
    {st : ShardState T} (h : Reaches (CarefulStep self owner) (init mem) st) :
    st.Separate ∧
    (∀ call st', Step self owner st call st' → (st'.Separate ↔ st.Careful call)) ∧
    ∀ id span st', .read id span ∈ st.views →
      Reaches (fun a b => CarefulStep self owner a b ∧ .read id span ∈ b.views) st st' →
      span.cut st'.mem = span.cut st.mem := by
  have hg := guarded_of_run h
  exact ⟨hg.separate, fun call st' hs => separate_step hg.separate hs,
    fun id span st' hv hrun => read_stable hg hv hrun⟩

/-! ## A shard of two cells, next to its owner token -/

def two_cells : WriterShard := ⟨⟨0, 2⟩⟩

def mut_permit : Permit Resource := ⟨.mut_ref, ⟨2, .token, .exclusive⟩, rfl⟩

def token_owner : Owner := ⟨.ExclusiveFamily, 0⟩

/-- With a view of the shard live, `as_cells` and `&mut token` are both admitted. -/
theorem cells_and_permit (span : Span) :
    Step two_cells token_owner (⟨[7, 8], [], [.read 0 span], 1⟩ : ShardState Nat) .other
      ⟨[7, 8], [], [.cells 1, .read 0 span], 2⟩ ∧
    Step two_cells token_owner (⟨[7, 8], [], [.cells 1, .read 0 span], 2⟩ : ShardState Nat) .other
      ⟨[7, 8], [mut_permit], [.cells 1, .read 0 span], 3⟩ :=
  ⟨.as_cells (by simp [Admits, ShardState.loans, ShardView.loans]),
    .borrow_owner rfl (by simp [Admits, ShardState.loans, ShardView.loans])⟩

/-- So is `borrow_mut` of a cell of the shard, and a write through it. -/
theorem gated_write (span : Span) (x value : Nat) (hx : ⟨{x}⟩ ∈ two_cells.as_cells) :
    Step two_cells token_owner
      (⟨[7, 8], [mut_permit], [.cells 1, .read 0 span], 3⟩ : ShardState Nat)
      (.access (MelinoeCell.borrow_mut ⟨{x}⟩)) ⟨[7, 8], [],
        [.token 1 mut_permit.loan .exclusive {x}, .cells 1, .read 0 span], 3⟩ ∧
    Step two_cells token_owner (⟨[7, 8], [],
        [.token 1 mut_permit.loan .exclusive {x}, .cells 1, .read 0 span], 3⟩ : ShardState Nat)
      .other ⟨[7, 8].set x value, [],
        [.token 1 mut_permit.loan .exclusive {x}, .cells 1, .read 0 span], 3⟩ := by
  constructor
  · exact @Step.access _ _ _ _ 1 (.cell ⟨{x}⟩) (MelinoeCell.borrow_mut ⟨{x}⟩) mut_permit []
      (by simp) hx (.borrow_mut _) (.refl _) rfl
  · exact @Step.write _ _ _ _ (.token 1 mut_permit.loan .exclusive {x}) x value (by simp)
      ⟨rfl, Finset.mem_singleton_self x⟩

/-- `get(0)` is live while a permit writes 9 to the other cell, and reads the same. -/
theorem a_gated_write_beside_a_live_get : ∃ st st' : ShardState Nat,
    Reaches (CarefulStep two_cells token_owner) (init [7, 8]) st ∧
    .read 0 ⟨0, 1⟩ ∈ st.views ∧ st'.mem = [7, 9] ∧
    (Span.mk 0 1).cut st'.mem = (Span.mk 0 1).cut st.mem ∧
    two_cells.reads st'.mem (.get 0) = two_cells.reads st.mem (.get 0) := by
  have hget : CarefulStep two_cells token_owner (init [7, 8])
      ⟨[7, 8], [], [.read 0 ⟨0, 1⟩], 1⟩ :=
    ⟨_, @Step.shared _ _ _ _ (.get 0) _ rfl (by decide), fun w hw => by cases hw⟩
  obtain ⟨hcells, hborrow⟩ := cells_and_permit ⟨0, 1⟩
  obtain ⟨hcall, hwrite⟩ := gated_write ⟨0, 1⟩ 1 9 (by decide)
  have hapart : (⟨[7, 8], [mut_permit], [.cells 1, .read 0 ⟨0, 1⟩], 3⟩ : ShardState Nat).Careful
      (.access (MelinoeCell.borrow_mut ⟨{1}⟩)) := by
    intro _ places hplaces x hx v hv hshows
    obtain rfl : places = {1} := List.mem_singleton.mp hplaces
    obtain rfl : x = 1 := Finset.mem_singleton.mp hx
    simp only [List.mem_cons, List.not_mem_nil, or_false] at hv
    rcases hv with rfl | rfl
    · exact hshows
    · exact absurd hshows (show ¬ (Span.mk 0 1).Has 1 by decide)
  have hrun := Relation.ReflTransGen.refl.tail hget
  have hlive := Relation.ReflTransGen.refl (r := fun a b => CarefulStep two_cells token_owner a b ∧
    ShardView.read 0 ⟨0, 1⟩ ∈ b.views) |>.tail ⟨⟨_, hcells, trivial⟩, by simp⟩ |>.tail
    ⟨⟨_, hborrow, trivial⟩, by simp⟩ |>.tail ⟨⟨_, hcall, hapart⟩, by simp⟩ |>.tail
    ⟨⟨_, hwrite, trivial⟩, by simp⟩
  have hstable := (shard_reads_are_stable_in_careful_runs _ _ _ hrun).2.2 0 ⟨0, 1⟩ _ (by simp) hlive
  have hplace : two_cells.shared (.get 0) = some ⟨0, 1⟩ := rfl
  refine ⟨_, _, hrun, by simp, rfl, hstable, ?_⟩
  rw [← WriterShard.shared_cut hplace, ← WriterShard.shared_cut hplace, hstable]

/-- `as_slice` is live while a permit writes 9 to the first cell. -/
theorem a_gated_write_under_a_live_as_slice :
    ¬ (∀ st : ShardState Nat, Reaches (SafeStep two_cells token_owner) (init [7, 8]) st →
      st.Separate) ∧
    ¬ ∀ (st st' : ShardState Nat) (id : Nat) (span : Span),
      Reaches (SafeStep two_cells token_owner) (init [7, 8]) st → .read id span ∈ st.views →
      Reaches (fun a b => SafeStep two_cells token_owner a b ∧ .read id span ∈ b.views) st st' →
      span.cut st'.mem = span.cut st.mem := by
  have hslice : SafeStep two_cells token_owner (init [7, 8])
      ⟨[7, 8], [], [.read 0 ⟨0, 2⟩], 1⟩ :=
    ⟨_, @Step.shared _ _ _ _ .as_slice _ rfl (by decide)⟩
  obtain ⟨hcells, hborrow⟩ := cells_and_permit ⟨0, 2⟩
  obtain ⟨hcall, hwrite⟩ := gated_write ⟨0, 2⟩ 0 9 (by decide)
  have hrun := Relation.ReflTransGen.refl.tail hslice |>.tail ⟨_, hcells⟩ |>.tail ⟨_, hborrow⟩
    |>.tail ⟨_, hcall⟩
  refine ⟨fun hall => ?_, fun hall => ?_⟩
  · refine hall _ hrun (.read 0 ⟨0, 2⟩) (by simp) (.token 1 mut_permit.loan .exclusive {0})
      (by simp) 0 ?_ ⟨rfl, Finset.mem_singleton_self 0⟩
    exact show (Span.mk 0 2).Has 0 by decide
  · have hsame := hall _ _ 0 ⟨0, 2⟩ hrun (by simp) (.single ⟨⟨_, hwrite⟩, by simp⟩)
    exact absurd hsame (by decide)

end melinoe.region
