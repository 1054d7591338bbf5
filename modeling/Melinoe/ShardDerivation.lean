-- What a region's exclusive borrow can become: shards, chunk iterators and
-- indexed views, in any nesting, with writes in between. No cell is ever reached
-- by two live pieces, and none is lost unless a piece is dropped.
import Melinoe.Region
import Melinoe.Runs

open tiles runs

namespace melinoe.region

variable {T : Type}

/-! ## The pieces of a region -/

/-- A live value that carries the exclusive borrow of some cells. `requested`
are the indices that an indexed view has handed out, each at most once. -/
inductive Piece
  | shard (s : WriterShard)
  | chunks (it : ShardChunks)
  | par (p : ParChunks) (requested : List Nat)
  /-- The `&mut [T]` of `into_mut_slice`. -/
  | slice (cells : Span)

/-- The ranges of cells that a piece can still reach. -/
def Piece.spans : Piece → List Span
  | .shard s => [s.cells]
  | .chunks it => it.rest.toList
  | .par p requested =>
    ((List.range p.len).filter (· ∉ requested)).map fun i => (p.get_unchecked_chunk i).cells
  | .slice cells => [cells]

/-- The region after a write of `value` to place `index` of the piece, for the
pieces that give out `&mut T`. -/
def Piece.write (mem : List T) (index : Nat) (value : T) : Piece → Option (List T)
  | .shard s => some (s.get_mut mem index value)
  | .slice cells => some ((WriterShard.new cells).get_mut mem index value)
  | .chunks _ => none
  | .par _ _ => none

/-- One call on a piece, and the pieces that take its place. -/
inductive Derive : Piece → List Piece → Prop
  | split_at {s a b : WriterShard} {mid : Nat} (h : s.split_at mid = some (a, b)) :
      Derive (.shard s) [.shard a, .shard b]
  | chunks (s : WriterShard) (chunk_size : Usize) :
      Derive (.shard s) [.chunks (s.chunks chunk_size)]
  | next {it it' : ShardChunks} {s : WriterShard} (h : it.next = (some s, it')) :
      Derive (.chunks it) [.shard s, .chunks it']
  | exhausted {it it' : ShardChunks} (h : it.next = (none, it')) :
      Derive (.chunks it) [.chunks it']
  | par_chunks (s : WriterShard) (chunk_size : Usize) :
      Derive (.shard s) [.par (s.par_chunks chunk_size) []]
  | get_unchecked_chunk {p : ParChunks} {requested : List Nat} {index : Nat} (hi : index < p.len)
      (hr : index ∉ requested) : Derive (.par p requested)
        [.shard (p.get_unchecked_chunk index), .par p (index :: requested)]
  | into_mut_slice (s : WriterShard) : Derive (.shard s) [.slice s.cells]

structure State (T : Type) where
  mem : List T
  pieces : List Piece
  dropped : Bool

namespace State

/-- `WriterShard::new` over the whole region. -/
def init (mem : List T) : State T := ⟨mem, [.shard (WriterShard.new ⟨0, mem.length⟩)], false⟩

def spans (st : State T) : List Span := st.pieces.flatMap Piece.spans

inductive Step : State T → State T → Prop
  | derive {st : State T} {pre post new : List Piece} {p : Piece}
      (hp : st.pieces = pre ++ p :: post) (h : Derive p new) :
      Step st { st with pieces := pre ++ new ++ post }
  | write {st : State T} {p : Piece} {index : Nat} {value : T} {mem : List T}
      (hp : p ∈ st.pieces) (h : p.write st.mem index value = some mem) : Step st { st with mem }
  | drop {st : State T} {pre post : List Piece} {p : Piece} (hp : st.pieces = pre ++ p :: post) :
      Step st { st with pieces := pre ++ post, dropped := true }

end State

/-! ## One call neither duplicates nor loses a cell -/

/-- The fields are those of a view that was made on a region of `n` cells. -/
def Piece.Fits (n : Nat) : Piece → Prop
  | .shard s => s.cells.stop ≤ n
  | .chunks it => ∀ s ∈ it.rest, s.stop ≤ n
  | .par p _ => p.base + p.region_len ≤ n ∧ p.chunk ≤ usizeMax
  | .slice cells => cells.stop ≤ n

variable {n : Nat}

theorem par_spans {p : ParChunks} (hl : p.region_len ≤ isizeMax) (hc : p.chunk ≤ usizeMax)
    {index : Nat} (hi : index < p.len) :
    (p.get_unchecked_chunk index).cells = (spanAt p.region_len p.chunk index).shift p.base := by
  rw [ParChunks.get_unchecked_chunk_eq hl hc hi]
  rfl

/-- A view that has handed out nothing reaches its region, each cell once. -/
theorem par_holds {p : ParChunks} (hl : p.region_len ≤ isizeMax) (hc : p.chunk ≤ usizeMax)
    (x : Nat) : holds (Piece.par p []).spans x =
      if p.base ≤ x ∧ x < p.base + p.region_len then 1 else 0 := by
  have hspans : (Piece.par p []).spans =
      (spansOf p.region_len p.chunk).map (Span.shift p.base) := by
    simp only [Piece.spans, spansOf, List.map_map]
    have hlen : p.len = count p.region_len p.chunk := partition_count_eq p.chunk_pos
    rw [hlen, List.filter_eq_self.mpr (by simp)]
    apply List.map_congr_left
    intro i hi
    rw [List.mem_range, ← hlen] at hi
    exact par_spans hl hc hi
  rw [hspans, chain_holds (chain_shift (chain_spansOf p.region_len p.chunk_pos) p.base)]
  simp

/-- Handing out an index takes its chunk from what the view still reaches. -/
theorem request_holds {p : ParChunks} {requested : List Nat} {index : Nat} (hi : index < p.len)
    (hr : index ∉ requested) (x : Nat) : holds (Piece.par p requested).spans x =
      holds [(p.get_unchecked_chunk index).cells] x +
        holds (Piece.par p (index :: requested)).spans x := by
  have hperm : ((List.range p.len).filter (· ∉ requested)).Perm
      (index :: (List.range p.len).filter (· ∉ index :: requested)) := by
    refine (List.perm_ext_iff_of_nodup (List.nodup_range.filter _) ?_).mpr fun i => ?_
    · exact List.nodup_cons.mpr ⟨by simp, List.nodup_range.filter _⟩
    · simp only [List.mem_filter, List.mem_range, List.mem_cons, decide_eq_true_eq, not_or]
      by_cases hii : i = index
      · subst hii
        simp [hi, hr]
      · simp [hii]
  rw [← holds_cons]
  exact holds_perm (hperm.map _) x

/-- The new pieces fit the region, and reach the cells that `p` did, each as often. -/
def Kept (n : Nat) (p : Piece) (new : List Piece) : Prop :=
  (∀ q ∈ new, q.Fits n) ∧ ∀ x, holds (new.flatMap Piece.spans) x = holds p.spans x

theorem kept_split_at {s a b : WriterShard} {mid : Nat} (h : s.split_at mid = some (a, b))
    (hf : (Piece.shard s).Fits n) : Kept n (.shard s) [.shard a, .shard b] := by
  unfold WriterShard.split_at at h
  split at h
  · rename_i hmid
    simp only [Option.some.injEq, Prod.mk.injEq] at h
    obtain ⟨rfl, rfl⟩ := h
    simp only [Piece.Fits, Span.stop] at hf
    refine ⟨?_, fun x => holds_adjacent hmid x⟩
    simp only [List.mem_cons, List.not_mem_nil, or_false, forall_eq_or_imp, forall_eq,
      Piece.Fits, WriterShard.new, Span.stop]
    omega
  · cases h

theorem kept_next {it it' : ShardChunks} {s : WriterShard} (h : it.next = (some s, it'))
    (hf : (Piece.chunks it).Fits n) : Kept n (.chunks it) [.shard s, .chunks it'] := by
  obtain ⟨-, ⟨-, ho, -⟩ | ⟨_, -, -, ho, -⟩ | ⟨cells, hrest, hpos, ho, hrest'⟩⟩ :=
    ShardChunks.next_cases h
  · cases ho
  · cases ho
  · cases ho
    simp only [Piece.Fits, hrest, Option.mem_def, Option.some.injEq, forall_eq', Span.stop] at hf
    refine ⟨?_, fun x => ?_⟩
    · simp only [List.mem_cons, List.not_mem_nil, or_false, forall_eq_or_imp, forall_eq,
        Piece.Fits, hrest', Option.mem_def, Option.some.injEq, forall_eq', Span.stop]
      omega
    · simp only [List.flatMap_cons, List.flatMap_nil, Piece.spans, hrest, hrest',
        Option.toList_some, List.append_nil]
      exact holds_adjacent (Nat.min_le_right _ _) x

/-- The remainder that `next` finds empty reaches nothing. -/
theorem kept_exhausted {it it' : ShardChunks} (h : it.next = (none, it')) :
    Kept n (.chunks it) [.chunks it'] := by
  obtain ⟨-, ⟨hrest, -, hrest'⟩ | ⟨cells, hrest, hzero, -, hrest'⟩ | ⟨_, -, -, ho, -⟩⟩ :=
    ShardChunks.next_cases h
  · refine ⟨by simp [Piece.Fits, hrest'], fun x => ?_⟩
    simp [Piece.spans, hrest, hrest']
  · refine ⟨by simp [Piece.Fits, hrest'], fun x => ?_⟩
    simp only [List.flatMap_cons, List.flatMap_nil, Piece.spans, hrest, hrest',
      Option.toList_some, Option.toList_none, List.append_nil]
    exact (holds_empty hzero x).symm
  · cases ho

theorem kept_par_chunks (s : WriterShard) (chunk_size : Usize) (hf : (Piece.shard s).Fits n)
    (hn : n ≤ isizeMax) : Kept n (.shard s) [.par (s.par_chunks chunk_size) []] := by
  have hfit : s.cells.stop ≤ n := hf
  have hmax : max chunk_size.val 1 ≤ usizeMax := by
    have := chunk_size.property
    unfold usizeMax at *
    omega
  unfold Span.stop at hfit
  refine ⟨?_, fun x => ?_⟩
  · rw [List.forall_mem_singleton]
    exact ⟨hfit, hmax⟩
  · rw [List.flatMap_singleton, par_holds (by show s.cells.len ≤ _; omega) hmax]
    exact (holds_singleton s.cells x).symm

theorem kept_get_unchecked_chunk {p : ParChunks} {requested : List Nat} {index : Nat}
    (hi : index < p.len) (hr : index ∉ requested) (hf : (Piece.par p requested).Fits n)
    (hn : n ≤ isizeMax) : Kept n (.par p requested)
      [.shard (p.get_unchecked_chunk index), .par p (index :: requested)] := by
  obtain ⟨hfit, hmax⟩ := hf
  have hl : p.region_len ≤ isizeMax := by omega
  have hlt := (ParChunks.lt_len p index).mp hi
  refine ⟨?_, fun x => ?_⟩
  · simp only [List.mem_cons, List.not_mem_nil, or_false, forall_eq_or_imp, forall_eq,
      Piece.Fits, par_spans hl hmax hi, Span.shift, spanAt, Span.stop]
    exact ⟨by omega, hfit, hmax⟩
  · rw [request_holds hi hr x]
    simp only [List.flatMap_cons, List.flatMap_nil, List.append_nil, holds_append]
    rfl

theorem derive_kept {p : Piece} {new : List Piece} (h : Derive p new) (hf : p.Fits n)
    (hn : n ≤ isizeMax) : Kept n p new := by
  cases h with
  | split_at hsplit => exact kept_split_at hsplit hf
  | chunks s chunk_size =>
    refine ⟨?_, fun x => rfl⟩
    simpa [Piece.Fits, WriterShard.chunks] using hf
  | next hnext => exact kept_next hnext hf
  | exhausted hnext => exact kept_exhausted hnext
  | par_chunks s chunk_size => exact kept_par_chunks s chunk_size hf hn
  | get_unchecked_chunk hi hr => exact kept_get_unchecked_chunk hi hr hf hn
  | into_mut_slice s => exact ⟨by simpa [Piece.Fits] using hf, fun x => rfl⟩

theorem fits_spans {p : Piece} (hf : p.Fits n) (hn : n ≤ isizeMax) : ∀ s ∈ p.spans, s.stop ≤ n := by
  intro s hs
  cases p with
  | shard sh => exact List.mem_singleton.mp hs ▸ hf
  | slice cells => exact List.mem_singleton.mp hs ▸ hf
  | chunks it => exact hf s (Option.mem_toList.mp hs)
  | par p requested =>
    obtain ⟨i, hi, rfl⟩ := List.mem_map.mp hs
    obtain ⟨hfit, hmax⟩ := hf
    have hlt : i < p.len := List.mem_range.mp (List.mem_filter.mp hi).1
    have hbound := (ParChunks.lt_len p i).mp hlt
    rw [par_spans (by omega) hmax hlt]
    simp only [Span.shift, spanAt, Span.stop]
    omega

/-! ## Every state that a run reaches -/

/-- No cell is reached twice, none outside the region, and, while nothing was
dropped, each cell of the region is reached. -/
structure Inv (n : Nat) (st : State T) : Prop where
  length : st.mem.length = n
  fits : ∀ p ∈ st.pieces, p.Fits n
  once : ∀ x, holds st.spans x ≤ if x < n then 1 else 0
  all : st.dropped = false → ∀ x, holds st.spans x = if x < n then 1 else 0

theorem inv_init (mem : List T) : Inv mem.length (State.init mem) := by
  have hholds : ∀ x, holds (State.init mem).spans x = if x < mem.length then 1 else 0 := by
    intro x
    show holds [⟨0, mem.length⟩] x = _
    rw [holds_singleton]
    simp [Span.stop]
  exact ⟨rfl, by simp [State.init, Piece.Fits, WriterShard.new, Span.stop],
    fun x => (hholds x).le, fun _ => hholds⟩

theorem write_length {p : Piece} {mem mem' : List T} {index : Nat} {value : T}
    (h : p.write mem index value = some mem') : mem'.length = mem.length := by
  have hget : ∀ s : WriterShard, (s.get_mut mem index value).length = mem.length := fun s => by
    unfold WriterShard.get_mut
    split <;> simp
  cases p with
  | shard s => cases h; exact hget s
  | slice cells => cases h; exact hget _
  | chunks it => cases h
  | par p requested => cases h

/-- A write changes a cell of the piece's own range only. -/
theorem write_frame {p : Piece} {mem mem' : List T} {index : Nat} {value : T}
    (h : p.write mem index value = some mem') {x : Nat} (hx : ∀ s ∈ p.spans, ¬ s.Has x) :
    mem'[x]? = mem[x]? := by
  have hget : ∀ s : WriterShard, ¬ s.cells.Has x → (s.get_mut mem index value)[x]? = mem[x]? := by
    intro s hs
    unfold WriterShard.get_mut
    split
    · refine List.getElem?_set_ne fun heq => hs ⟨by omega, ?_⟩
      unfold Span.stop
      omega
    · rfl
  cases p with
  | shard s => cases h; exact hget s (hx _ (by simp [Piece.spans]))
  | slice cells => cases h; exact hget _ (hx cells (by simp [Piece.spans]))
  | chunks it => cases h
  | par p requested => cases h

theorem holds_at {st : State T} {pre post : List Piece} {p : Piece}
    (hp : st.pieces = pre ++ p :: post) (x : Nat) : holds st.spans x =
      holds (pre.flatMap Piece.spans) x + holds p.spans x + holds (post.flatMap Piece.spans) x := by
  unfold State.spans
  rw [hp, List.flatMap_append, List.flatMap_cons, holds_append, holds_append, Nat.add_assoc]

theorem inv_step (hn : n ≤ isizeMax) {st st' : State T} (h : Inv n st)
    (hs : State.Step st st') : Inv n st' := by
  cases hs with
  | @derive pre post new p hp hd =>
    have hmem : ∀ q ∈ pre ++ post, q ∈ st.pieces := by
      intro q hq
      rw [hp]
      simp only [List.mem_append, List.mem_cons] at hq ⊢
      tauto
    obtain ⟨hfits, hholds⟩ := derive_kept hd (h.fits p (by simp [hp])) hn
    have hsame : ∀ x, holds (pre ++ new ++ post |>.flatMap Piece.spans) x = holds st.spans x := by
      intro x
      rw [holds_at hp, List.flatMap_append, List.flatMap_append, holds_append, holds_append, hholds]
    refine ⟨h.length, fun q hq => ?_, fun x => ?_, fun hnd x => ?_⟩
    · simp only [List.mem_append] at hq
      rcases hq with (hq | hq) | hq
      · exact h.fits q (hmem q (by simp [hq]))
      · exact hfits q hq
      · exact h.fits q (hmem q (by simp [hq]))
    · exact (hsame x).trans_le (h.once x)
    · exact (hsame x).trans (h.all hnd x)
  | write hp hw => exact ⟨(write_length hw).trans h.length, h.fits, h.once, h.all⟩
  | @drop pre post p hp =>
    refine ⟨h.length, fun q hq => h.fits q ?_, fun x => ?_, fun hd => ?_⟩
    · rw [hp]
      simp only [List.mem_append, List.mem_cons] at hq ⊢
      tauto
    · have hle := h.once x
      rw [holds_at hp] at hle
      show holds ((pre ++ post).flatMap Piece.spans) x ≤ _
      rw [List.flatMap_append, holds_append]
      omega
    · cases hd

theorem inv_of_run {mem : List T} (hn : mem.length ≤ isizeMax) {st : State T}
    (h : Reaches State.Step (State.init mem) st) : Inv mem.length st :=
  inv_of_reaches h (inv_init mem) fun _ _ => inv_step hn

/-- The others keep what they read when one piece writes. -/
theorem write_others {st : State T} (h : Inv n st) {pre post : List Piece} {p : Piece}
    (hp : st.pieces = pre ++ p :: post) {index : Nat} {value : T} {mem : List T}
    (hw : p.write st.mem index value = some mem) {q : Piece} (hq : q ∈ pre ++ post) {s : Span}
    (hs : s ∈ q.spans) : s.cut mem = s.cut st.mem := by
  refine Span.cut_congr fun x hx => write_frame hw fun t ht htx => ?_
  -- the place would be reached by `q` and by `p`
  have hone : holds st.spans x ≤ 1 := (h.once x).trans (by split <;> omega)
  have hmine : 0 < holds p.spans x := holds_pos.mpr ⟨t, ht, htx⟩
  have hother : 0 < holds ((pre ++ post).flatMap Piece.spans) x :=
    holds_pos.mpr ⟨s, List.mem_flatMap.mpr ⟨q, hq, hs⟩, hx⟩
  rw [List.flatMap_append, holds_append] at hother
  rw [holds_at hp] at hone
  omega

/-- In every state that splits, chunk iterators, indexed views, drops and writes
reach from the whole region, the live pieces reach disjoint ranges of it, all of
it while none was dropped, and a write reaches no other piece. -/
theorem shard_derivation_neither_duplicates_nor_loses_a_cell {mem : List T}
    (hn : mem.length ≤ isizeMax) {st : State T} (h : Reaches State.Step (State.init mem) st) :
    (∀ s ∈ st.spans, s.stop ≤ mem.length) ∧
    st.spans.Pairwise (fun s t => ∀ x, s.Has x → ¬ t.Has x) ∧
    (st.dropped = false → ∀ x < mem.length, ∃ s ∈ st.spans, s.Has x) ∧
    ∀ (pre : List Piece) (p : Piece) (post : List Piece) (index : Nat) (value : T) (mem' : List T),
      st.pieces = pre ++ p :: post → p.write st.mem index value = some mem' →
      mem'.length = mem.length ∧
      (∀ x, (∀ s ∈ p.spans, ¬ s.Has x) → mem'[x]? = st.mem[x]?) ∧
      ∀ q ∈ pre ++ post, ∀ s ∈ q.spans, s.cut mem' = s.cut st.mem := by
  have hinv := inv_of_run hn h
  refine ⟨fun s hs => ?_, pairwise_of_holds fun x => ?_, fun hd x hx => ?_, ?_⟩
  · obtain ⟨p, hp, hsp⟩ := List.mem_flatMap.mp hs
    exact fits_spans (hinv.fits p hp) hn s hsp
  · exact (hinv.once x).trans (by split <;> omega)
  · apply holds_pos.mp
    rw [hinv.all hd x, if_pos hx]
    exact Nat.one_pos
  · intro pre p post index value mem' hp hw
    exact ⟨(write_length hw).trans hinv.length, fun x hx => write_frame hw hx,
      fun q hq s hs => write_others hinv hp hw hq hs⟩

/-- A region of five cells: a split at 2, an indexed view in chunks of 2 over the
tail with index 1 handed out, a write through the head, which then becomes an iterator
and gives its first cell, and at last the drop of the chunk that the view handed out. -/
theorem split_par_chunks_and_write : ∃ st dropped : State Nat,
    Reaches State.Step (State.init [10, 20, 30, 40, 50]) st ∧
    Reaches State.Step st dropped ∧ st.dropped = false ∧ dropped.dropped = true ∧
    st.mem = [10, 21, 30, 40, 50] ∧ st.spans = [⟨0, 1⟩, ⟨1, 1⟩, ⟨4, 1⟩, ⟨2, 2⟩] ∧
    dropped.spans = [⟨0, 1⟩, ⟨1, 1⟩, ⟨2, 2⟩] ∧
    (∀ x < 5, ∃ s ∈ st.spans, s.Has x) ∧
    dropped.spans.Pairwise (fun s t => ∀ x, s.Has x → ¬ t.Has x) ∧
    (Span.mk 2 2).cut [99, 21, 30, 40, 50] = (Span.mk 2 2).cut dropped.mem := by
  let view : Piece := .par (ParChunks.new ⟨2, 3⟩ 2) [1]
  let ones : ShardChunks := (WriterShard.new ⟨0, 2⟩).chunks 1
  let next : ShardChunks := { ones with rest := some ⟨1, 1⟩ }
  have hsplit : State.Step (State.init [10, 20, 30, 40, 50])
      ⟨[10, 20, 30, 40, 50], [.shard ⟨⟨0, 2⟩⟩, .shard ⟨⟨2, 3⟩⟩], false⟩ :=
    @State.Step.derive _ _ [] [] _ _ rfl (@Derive.split_at _ _ _ 2 rfl)
  have hview : State.Step ⟨[10, 20, 30, 40, 50], [.shard ⟨⟨0, 2⟩⟩, .shard ⟨⟨2, 3⟩⟩], false⟩
      ⟨[10, 20, 30, 40, 50], [.shard ⟨⟨0, 2⟩⟩, .par (ParChunks.new ⟨2, 3⟩ 2) []], false⟩ :=
    @State.Step.derive _ _ [.shard ⟨⟨0, 2⟩⟩] [] _ _ rfl (.par_chunks _ ⟨2, by decide⟩)
  have hchunk : State.Step
      ⟨[10, 20, 30, 40, 50], [.shard ⟨⟨0, 2⟩⟩, .par (ParChunks.new ⟨2, 3⟩ 2) []], false⟩
      ⟨[10, 20, 30, 40, 50], [.shard ⟨⟨0, 2⟩⟩, .shard ⟨⟨4, 1⟩⟩, view], false⟩ :=
    @State.Step.derive _ _ [.shard ⟨⟨0, 2⟩⟩] [] _ _ rfl
      (@Derive.get_unchecked_chunk (ParChunks.new ⟨2, 3⟩ 2) [] 1 (by decide) (by decide))
  have hwrite : State.Step
      ⟨[10, 20, 30, 40, 50], [.shard ⟨⟨0, 2⟩⟩, .shard ⟨⟨4, 1⟩⟩, view], false⟩
      ⟨[10, 21, 30, 40, 50], [.shard ⟨⟨0, 2⟩⟩, .shard ⟨⟨4, 1⟩⟩, view], false⟩ :=
    @State.Step.write _ _ (.shard ⟨⟨0, 2⟩⟩) 1 21 _ (by simp) rfl
  have hiter : State.Step
      ⟨[10, 21, 30, 40, 50], [.shard ⟨⟨0, 2⟩⟩, .shard ⟨⟨4, 1⟩⟩, view], false⟩
      ⟨[10, 21, 30, 40, 50], [.chunks ones, .shard ⟨⟨4, 1⟩⟩, view], false⟩ :=
    @State.Step.derive _ _ [] [.shard ⟨⟨4, 1⟩⟩, view] _ _ rfl (.chunks _ ⟨1, by decide⟩)
  have hnext : State.Step ⟨[10, 21, 30, 40, 50], [.chunks ones, .shard ⟨⟨4, 1⟩⟩, view], false⟩
      ⟨[10, 21, 30, 40, 50], [.shard ⟨⟨0, 1⟩⟩, .chunks next, .shard ⟨⟨4, 1⟩⟩, view], false⟩ :=
    @State.Step.derive _ _ [] [.shard ⟨⟨4, 1⟩⟩, view] _ _ rfl (@Derive.next ones next _ rfl)
  have hdrop : State.Step
      ⟨[10, 21, 30, 40, 50], [.shard ⟨⟨0, 1⟩⟩, .chunks next, .shard ⟨⟨4, 1⟩⟩, view], false⟩
      ⟨[10, 21, 30, 40, 50], [.shard ⟨⟨0, 1⟩⟩, .chunks next, view], true⟩ :=
    @State.Step.drop _ _ [.shard ⟨⟨0, 1⟩⟩, .chunks next] [view] _ rfl
  have hrun := Relation.ReflTransGen.refl.tail hsplit |>.tail hview |>.tail hchunk |>.tail hwrite
    |>.tail hiter |>.tail hnext
  have hst := shard_derivation_neither_duplicates_nor_loses_a_cell (by decide) hrun
  have hdropped :=
    shard_derivation_neither_duplicates_nor_loses_a_cell (by decide) (hrun.tail hdrop)
  obtain ⟨-, -, hothers⟩ :=
    hdropped.2.2.2 [] (.shard ⟨⟨0, 1⟩⟩) [.chunks next, view] 0 99 [99, 21, 30, 40, 50] rfl rfl
  exact ⟨_, _, hrun, .single hdrop, rfl, rfl, rfl, by decide, by decide, hst.2.2.1 rfl,
    hdropped.2.1, hothers view (by simp) ⟨2, 2⟩ (by decide)⟩

end melinoe.region
