import Ctadl.Cil.Layout

/-! # What the passes over the blocks leave

Each pass over the blocks adds to one part of them and leaves the rest, so the finished blocks span the same
bytes, and their edges are what the last record of the block and the clauses around its start ask for.
-/

namespace Ctadl.Cil

open Graph

/-- The bytes a block spans. -/
def Block.span (block : Block) : ℕ × ℕ := (block.start, block.stop)

/-- What a block holds beside its predecessors and its mark. -/
def Block.core (block : Block) : (ℕ × ℕ) × List ℕ × List ℕ := (block.span, block.succs, block.excSuccs)

variable {blocks blocks' : List Block} {m : Method}

/-- A block is found by the bytes the blocks span. -/
theorem blockOfRecord_congr (same : blocks'.map Block.span = blocks.map Block.span) :
    blockOfRecord blocks' = blockOfRecord blocks := by
  have points : ∀ (blocks : List Block) (offset : ℕ), partitionPoint (fun block : Block => decide (block.start ≤ offset)) blocks =
      partitionPoint (fun span : ℕ × ℕ => decide (span.1 ≤ offset)) (blocks.map Block.span) := fun blocks offset => by
    rw [partitionPoint, partitionPoint, List.takeWhile_map, List.length_map]
    rfl
  have inside : ∀ (blocks : List Block) (i offset : ℕ), blocks[i]?.any (fun block : Block => decide (offset < block.stop)) =
      (blocks.map Block.span)[i]?.any fun span => decide (offset < span.2) := fun blocks i offset => by
    rw [List.getElem?_map, Option.any_map]
    rfl
  funext offset
  simp only [blockOfRecord, points, inside, same]

theorem map_modify {α β : Type*} {f : α → α} {g : α → β} (same : ∀ a, g (f a) = g a) (l : List α) (i : ℕ) :
    (l.modify i f).map g = l.map g := by
  refine List.ext_getElem? fun k => ?_
  rw [List.getElem?_map, List.getElem?_map, List.getElem?_modify]
  split_ifs
  · cases l[k]? <;> simp [same]
  · simp

theorem map_foldl_modify {α β γ : Type*} {f : γ → α → α} {g : α → β} (same : ∀ c a, g (f c a) = g a) (at' : γ → ℕ)
    (l : List α) (cs : List γ) : (cs.foldl (fun l c => l.modify (at' c) (f c)) l).map g = l.map g := by
  induction cs generalizing l with
  | nil => rfl
  | cons c cs ih => rw [List.foldl_cons, ih, map_modify (same c)]

theorem markEntries_core (handlers : List Handler) (blocks : List Block) :
    (markEntries handlers blocks).map Block.core = blocks.map Block.core := by
  unfold markEntries
  induction handlers.zipIdx generalizing blocks with
  | nil => rfl
  | cons h hs ih =>
    rw [List.foldl_cons, ih]
    exact map_foldl_modify (f := fun _ => markEntry h.2) (fun _ _ => rfl) id blocks _

theorem addPreds_core (blocks : List Block) : (addPreds blocks).map Block.core = blocks.map Block.core := by
  unfold addPreds
  induction List.range blocks.length generalizing blocks with
  | nil => rfl
  | cons b bs ih =>
    rw [List.foldl_cons, ih]
    refine map_foldl_modify (f := fun _ block => if b ∈ block.preds then block else { block with preds := block.preds ++ [b] })
      (fun _ block => ?_) id blocks _
    split_ifs <;> rfl

theorem span_of_core (same : blocks'.map Block.core = blocks.map Block.core) : blocks'.map Block.span = blocks.map Block.span := by
  have first : ∀ blocks : List Block, blocks.map Block.span = (blocks.map Block.core).map Prod.fst := fun blocks => by
    rw [List.map_map]
    rfl
  rw [first, first, same]

/-- The exception edges of one block. -/
def addException (block : Block) (h : Handler) : Block :=
  match h.entry with
  | none => block
  | some entry =>
    if h.tryContains block.start ∧ entry ∉ block.excSuccs then { block with excSuccs := block.excSuccs ++ [entry] }
    else block

theorem addExceptions_eq (handlers : List Handler) (blocks : List Block) :
    addExceptions handlers blocks = blocks.map fun block => handlers.foldl addException block := by
  unfold addExceptions
  induction handlers generalizing blocks with
  | nil => simp
  | cons h handlers ih =>
    rw [List.foldl_cons, ih]
    cases entry : h.entry with
    | none => simp [addException, entry]
    | some b =>
      simp only [List.map_map, List.foldl_cons]
      refine List.map_congr_left fun block _ => ?_
      simp [addException, entry]

theorem addException_keeps (block : Block) (h : Handler) :
    (addException block h).span = block.span ∧ (addException block h).succs = block.succs ∧
      ∀ t, t ∈ (addException block h).excSuccs ↔ t ∈ block.excSuccs ∨ (h.entry = some t ∧ h.tryContains block.start = true) := by
  unfold addException
  cases h.entry with
  | none => simp
  | some entry =>
    dsimp only
    split_ifs with new
    · refine ⟨rfl, rfl, fun t => ?_⟩
      simp [new.1, eq_comm]
    · refine ⟨rfl, rfl, fun t => ?_⟩
      constructor
      · exact .inl
      · rintro (old | ⟨same, inside⟩)
        · exact old
        · obtain rfl := Option.some.inj same
          by_contra fresh
          exact new ⟨inside, fresh⟩

theorem foldl_addException (handlers : List Handler) (block : Block) :
    (handlers.foldl addException block).span = block.span ∧ (handlers.foldl addException block).succs = block.succs ∧
      ∀ t, t ∈ (handlers.foldl addException block).excSuccs ↔
        t ∈ block.excSuccs ∨ ∃ h ∈ handlers, h.entry = some t ∧ h.tryContains block.start = true := by
  induction handlers generalizing block with
  | nil => simp
  | cons h handlers ih =>
    obtain ⟨span, succs, exc⟩ := addException_keeps block h
    obtain ⟨span', succs', exc'⟩ := ih (addException block h)
    have start : (addException block h).start = block.start := congrArg Prod.fst span
    refine ⟨span'.trans span, succs'.trans succs, fun t => (exc' t).trans ?_⟩
    rw [exc, List.exists_mem_cons_iff, start, or_assoc]

namespace Method

/-- The clauses with the blocks where they start. -/
def clauses (m : Method) : List Handler := m.handlers.map (Handler.resolve m.blocks)

/-- The ways out of the finallys, over all leaves. -/
def exits (m : Method) : List (ℕ × ℕ) :=
  (m.blocks.map m.lastRecord).flatMap fun last => last.toList.flatMap (m.finallyExits m.clauses m.blocks)

/-- The successors a block gets from its last record. -/
def outs (m : Method) (last : Option InsFlow) : List ℕ :=
  last.toList.flatMap fun last => m.successors m.clauses m.blocks last ++ resumptions m.clauses m.exits last

/-- The blocks before the exception edges are added. -/
theorem flow_snd_core : ∃ base : List Block, m.flow.2 = base.map (fun block => m.clauses.foldl addException block) ∧
    base.map Block.core = m.blocks.map fun block => (block.span, (m.outs (m.lastRecord block)).eraseDups, []) := by
  let marked := markEntries m.clauses m.blocks
  have core : marked.map Block.core = m.blocks.map Block.core := markEntries_core _ _
  have found : blockOfRecord marked = blockOfRecord m.blocks := blockOfRecord_congr (span_of_core core)
  have exits : m.finallyExits m.clauses marked = m.finallyExits m.clauses m.blocks := by
    unfold finallyExits
    rw [found]
  have succs : m.successors m.clauses marked = m.successors m.clauses m.blocks := by
    unfold successors
    rw [found]
  -- the last record depends on the bytes a block spans
  let last := fun c : (ℕ × ℕ) × List ℕ × List ℕ => m.records[partitionPoint (fun r : InsFlow => decide (r.offset < c.1.2)) m.records - 1]?
  have lasts : ∀ blocks : List Block, blocks.map m.lastRecord = (blocks.map Block.core).map last := fun blocks => by
    rw [List.map_map]
    rfl
  have all : (marked.map m.lastRecord).flatMap (fun last => last.toList.flatMap (m.finallyExits m.clauses marked)) = m.exits := by
    rw [lasts, core, ← lasts, exits, Method.exits]
  let base := marked.map fun block => { block with succs := (m.outs (m.lastRecord block)).eraseDups }
  refine ⟨addPreds base, ?_, ?_⟩
  · have zipped : List.zipWith (fun (block : Block) (out : List ℕ) => { block with succs := out.eraseDups }) marked
        ((marked.map m.lastRecord).map m.outs) = base := by
      rw [List.map_map, List.zipWith_map_right, List.zipWith_self]
      rfl
    have passes : m.flow.2 = addExceptions m.clauses (addPreds (List.zipWith
        (fun (block : Block) (out : List ℕ) => { block with succs := out.eraseDups }) marked
        ((marked.map m.lastRecord).map fun last => last.toList.flatMap fun last =>
          m.successors m.clauses marked last ++ resumptions m.clauses ((marked.map m.lastRecord).flatMap fun last =>
            last.toList.flatMap (m.finallyExits m.clauses marked)) last))) := rfl
    rw [passes, succs, all, ← addExceptions_eq, ← zipped]
    rfl
  · have step : ∀ blocks : List Block, (blocks.map fun block =>
        { block with succs := (m.outs (m.lastRecord block)).eraseDups }).map Block.core =
        (blocks.map Block.core).map fun c => (c.1, (m.outs (last c)).eraseDups, c.2.2) := fun blocks => by
      rw [List.map_map, List.map_map]
      rfl
    have fresh : ∀ block ∈ m.blocks, block.excSuccs = [] := fun block member => by
      obtain ⟨piece, -, rfl⟩ := List.mem_map.mp member
      rfl
    rw [addPreds_core, step, core, List.map_map]
    refine List.map_congr_left fun block member => ?_
    have none := fresh block member
    simp only [Function.comp_apply, Block.core, none]
    rfl

variable {b s e : ℕ}

/-- A finished block spans the bytes it did, and its edges are what its last record and the clauses ask for. -/
theorem Piece.flow (decoded : m.Decoded) (piece : m.Piece b s e) : ∃ block, m.flow.2[b]? = some block ∧
    block.start = m.offsetOf s ∧ block.stop = m.endOf (e - 1) ∧ (∀ t, t ∈ block.succs ↔ t ∈ m.outs m.records[e - 1]?) ∧
    ∀ t, t ∈ block.excSuccs ↔ ∃ h ∈ m.clauses, h.entry = some t ∧ h.tryContains (m.offsetOf s) = true := by
  obtain ⟨base, flow, core⟩ := m.flow_snd_core
  have here := congrArg (·[b]?) core
  simp only [List.getElem?_map, piece.block, Option.map_some] at here
  obtain ⟨block, found, same⟩ := Option.map_eq_some_iff.mp here
  have last : m.lastRecord { start := m.offsetOf s, stop := m.endOf (e - 1) } = m.records[e - 1]? :=
    piece.lastRecord decoded rfl
  rw [last] at same
  have span : block.span = (m.offsetOf s, m.endOf (e - 1)) := congrArg Prod.fst same
  have succs : block.succs = (m.outs m.records[e - 1]?).eraseDups := congrArg (·.2.1) same
  have none : block.excSuccs = [] := congrArg (·.2.2) same
  obtain ⟨span', succs', exc⟩ := foldl_addException m.clauses block
  have start : block.start = m.offsetOf s := congrArg Prod.fst span
  refine ⟨m.clauses.foldl addException block, ?_, ?_, ?_, fun t => ?_, fun t => ?_⟩
  · rw [flow, List.getElem?_map, found, Option.map_some]
  · exact congrArg Prod.fst (span'.trans span)
  · exact congrArg Prod.snd (span'.trans span)
  · rw [succs', succs, List.mem_eraseDups]
  · rw [exc, none, start]
    simp

theorem exists_piece_of_flow {block : Block} (found : m.flow.2[b]? = some block) : ∃ s e, m.Piece b s e := by
  obtain ⟨base, flow, core⟩ := m.flow_snd_core
  have length : m.flow.2.length = m.blocks.length := by
    rw [flow, List.length_map, ← List.length_map (f := Block.core), core, List.length_map]
  have short : b < m.blocks.length := length ▸ (List.getElem?_eq_some_iff.mp found).1
  obtain ⟨s, e, piece, -⟩ := exists_piece_of_block (List.getElem?_eq_getElem short)
  exact ⟨s, e, piece⟩

/-- The ways out come from the leaves. -/
theorem mem_exits (decoded : m.Decoded) {exit : ℕ × ℕ} : exit ∈ m.exits ↔ ∃ (b s e : ℕ) (last : InsFlow),
    m.Piece b s e ∧ m.records[e - 1]? = some last ∧ exit ∈ m.finallyExits m.clauses m.blocks last := by
  simp only [exits, List.mem_flatMap, List.mem_map, Option.mem_toList]
  constructor
  · rintro ⟨_, ⟨block, member, rfl⟩, last, found, inside⟩
    obtain ⟨b, at'⟩ := List.getElem?_of_mem member
    obtain ⟨s, e, piece, rfl⟩ := exists_piece_of_block at'
    rw [piece.lastRecord decoded rfl] at found
    exact ⟨b, s, e, last, piece, found, inside⟩
  · rintro ⟨b, s, e, last, piece, found, inside⟩
    have block := List.mem_of_getElem? piece.block
    exact ⟨_, ⟨_, block, rfl⟩, last, by rw [piece.lastRecord decoded rfl]; exact found, inside⟩

end Method

end Ctadl.Cil
