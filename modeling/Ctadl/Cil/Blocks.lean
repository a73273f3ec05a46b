import Ctadl.Graph.Cuts
import Mathlib.Data.List.MinMax

/-! # Blocks and edges of a CIL body

The records of a body are cut into blocks at branch targets, behind whatever does not go on to the next
record, and at the bounds of the exception clauses. A leave goes to its target and through every finally it
exits; an endfinally goes on to wherever the leaves through its clause go.
-/

namespace Ctadl.Cil

open Graph

/-- Where control goes after an instruction. -/
inductive Control
  | next
  | goto (target : ℕ)
  /-- A conditional branch, or else the next instruction. -/
  | cond (taken : List ℕ)
  /-- One of the targets, or else the next instruction. -/
  | switch (targets : List ℕ)
  | leave (target : ℕ)
  | endFinally
  | endFilter
  | ret
  | throw
  | jump
deriving DecidableEq, Repr

namespace Control

def fallsThrough : Control → Bool
  | next | cond _ | switch _ => true
  | _ => false

/-- Explicit branch targets. -/
def targets : Control → List ℕ
  | goto t | leave t => [t]
  | cond taken | switch taken => taken
  | _ => []

end Control

/-- An instruction with its prefixes. -/
structure InsFlow where
  offset : ℕ
  size : ℕ
  /-- Whether one of its effects is a call or a throw. -/
  throws : Bool
  control : Control
deriving DecidableEq, Repr

def InsFlow.endOffset (r : InsFlow) : ℕ := r.offset + r.size

inductive HandlerKind
  | onCatch
  | onFilter
  | onFinally
  | onFault
deriving DecidableEq, Repr

/-- An exception clause, with the blocks where it starts. -/
structure Handler where
  kind : HandlerKind
  tryStart : ℕ
  tryEnd : ℕ
  handlerStart : ℕ
  handlerEnd : ℕ
  filterStart : Option ℕ := none
  /-- Where an exception of the try range goes: the filter if there is one, else the handler. -/
  entry : Option ℕ := none
  handlerBlock : Option ℕ := none
deriving DecidableEq, Repr

namespace Handler

def tryContains (h : Handler) (offset : ℕ) : Bool := h.tryStart ≤ offset && offset < h.tryEnd

def handlerContains (h : Handler) (offset : ℕ) : Bool := h.handlerStart ≤ offset && offset < h.handlerEnd

def filterContains (h : Handler) (offset : ℕ) : Bool :=
  h.filterStart.any fun start => start ≤ offset && offset < h.handlerStart

def entryOffset (h : Handler) : ℕ := h.filterStart.getD h.handlerStart

/-- The bounds of a clause. -/
def bounds (h : Handler) : List ℕ := [h.tryStart, h.tryEnd, h.handlerStart, h.handlerEnd] ++ h.filterStart.toList

end Handler

structure Block where
  start : ℕ
  stop : ℕ
  succs : List ℕ := []
  preds : List ℕ := []
  excSuccs : List ℕ := []
  /-- The clause this is the first block of. -/
  handlerEntry : Option ℕ := none
deriving DecidableEq, Repr

/-- The decoded records of a method and its exception clauses. -/
structure Method where
  records : List InsFlow
  handlers : List Handler
  splitAfterThrowingInTry : Bool := false

/-- How many elements stand before the first that does not satisfy `p`. -/
def partitionPoint {α : Type*} (p : α → Bool) (l : List α) : ℕ := (l.takeWhile p).length

namespace Method

/-- The index of the record whose bytes hold `offset`. -/
def recordAt (m : Method) (offset : ℕ) : Option ℕ :=
  let i := partitionPoint (·.offset ≤ offset) m.records
  if i = 0 then none
  else if m.records[i - 1]?.any (offset < ·.endOffset) then some (i - 1) else none

/-- The block starts a record asks for: its branch targets, and the next record unless it only goes on. -/
def controlLeaders (m : Method) (i : ℕ) (r : InsFlow) : List ℕ :=
  let split := m.splitAfterThrowingInTry && r.throws && m.handlers.any (·.tryContains r.offset)
  r.control.targets.filterMap m.recordAt ++ if r.control ≠ .next ∨ split then [i + 1] else []

/-- The bounds of a clause that are record starts. -/
def boundLeaders (m : Method) (h : Handler) : List ℕ :=
  h.bounds.filterMap fun b => (m.recordAt b).filter fun r => m.records[r]?.any (·.offset = b)

/-- The first records of the blocks, in order. -/
def leaders (m : Method) : List ℕ :=
  let inserted := 0 :: ((m.records.zipIdx.flatMap fun r => m.controlLeaders r.2 r.1) ++ m.handlers.flatMap m.boundLeaders)
  (List.range m.records.length).filter (· ∈ inserted)

def offsetOf (m : Method) (i : ℕ) : ℕ := m.records[i]?.elim 0 InsFlow.offset

def endOf (m : Method) (i : ℕ) : ℕ := m.records[i]?.elim 0 InsFlow.endOffset

/-- The blocks, without edges. -/
def blocks (m : Method) : List Block :=
  (pieces m.records.length m.leaders).map fun piece => { start := m.offsetOf piece.1, stop := m.endOf (piece.2 - 1) }

/-- The last record of a block. -/
def lastRecord (m : Method) (block : Block) : Option InsFlow :=
  m.records[partitionPoint (·.offset < block.stop) m.records - 1]?

end Method

/-- The block that holds `offset`. -/
def blockOfRecord (blocks : List Block) (offset : ℕ) : Option ℕ :=
  let i := partitionPoint (·.start ≤ offset) blocks
  if i = 0 then none
  else if blocks[i - 1]?.any (offset < ·.stop) then some (i - 1) else none

/-- The block that starts at `offset`. -/
def blockAt (blocks : List Block) (offset : ℕ) : Option ℕ :=
  (blockOfRecord blocks offset).filter fun b => blocks[b]?.any (·.start = offset)

/-- A clause with the blocks where it starts. -/
def Handler.resolve (blocks : List Block) (h : Handler) : Handler :=
  { h with entry := blockAt blocks h.entryOffset, handlerBlock := blockAt blocks h.handlerStart }

def markEntry (index : ℕ) (block : Block) : Block := { block with handlerEntry := block.handlerEntry.or (some index) }

/-- Marks the blocks where clauses start, each with the first clause that does. -/
def markEntries (handlers : List Handler) (blocks : List Block) : List Block :=
  handlers.zipIdx.foldl (fun blocks h =>
    (h.1.entry.toList ++ h.1.handlerBlock.toList).foldl (fun blocks b => blocks.modify b (markEntry h.2)) blocks) blocks

/-- Whether a leave at `offset` to `target` exits the clause, a finally. -/
def Handler.exits (h : Handler) (offset target : ℕ) : Bool :=
  h.kind = .onFinally && h.tryContains offset && !h.tryContains target

/-- The finallys a leave exits, innermost first, with their places in the table. -/
def exited (handlers : List Handler) (offset target : ℕ) : List (Handler × ℕ) :=
  (handlers.zipIdx.filter (·.1.exits offset target)).mergeSort fun f g =>
    f.1.tryEnd - f.1.tryStart ≤ g.1.tryEnd - g.1.tryStart

/-- Where each finally of a leave goes on: to the next one, and the last to the target. -/
def continuations (target : Option ℕ) : List (Handler × ℕ) → List (ℕ × ℕ)
  | [] => []
  | [f] => target.toList.map (f.2, ·)
  | f :: g :: exited => g.1.handlerBlock.toList.map (f.2, ·) ++ continuations target (g :: exited)

namespace Method

/-- What the last record of a block adds to the block's successors. -/
def successors (m : Method) (handlers : List Handler) (blocks : List Block) (last : InsFlow) : List ℕ :=
  let blockOf := fun t => (m.recordAt t).bind fun r => blockOfRecord blocks (m.offsetOf r)
  last.control.targets.filterMap blockOf ++
    (if last.control.fallsThrough then (blockOfRecord blocks last.endOffset).toList else []) ++
    match last.control with
    | .leave target => (exited handlers last.offset target).filterMap (·.1.handlerBlock)
    | .endFilter => (handlers.find? (·.filterContains last.offset)).toList.filterMap Handler.handlerBlock
    | _ => []

/-- What the last record of a block adds to the ways out of the finallys. -/
def finallyExits (m : Method) (handlers : List Handler) (blocks : List Block) (last : InsFlow) : List (ℕ × ℕ) :=
  match last.control with
  | .leave target =>
    continuations ((m.recordAt target).bind fun r => blockOfRecord blocks (m.offsetOf r)) (exited handlers last.offset target)
  | _ => []

/-- The finally or fault clause an endfinally ends: the one with the smallest handler around it. -/
def innermost (handlers : List Handler) (offset : ℕ) : Option (Handler × ℕ) :=
  (handlers.zipIdx.filter fun h =>
    (h.1.kind = .onFinally ∨ h.1.kind = .onFault) && h.1.handlerContains offset).argmin
      fun h => h.1.handlerEnd - h.1.handlerStart

/-- Where an endfinally goes: where the leaves through its clause go on. -/
def resumptions (handlers : List Handler) (exits : List (ℕ × ℕ)) (last : InsFlow) : List ℕ :=
  if last.control = .endFinally then
    match innermost handlers last.offset with
    | some h => if h.1.kind = .onFinally then (exits.filter (·.1 = h.2)).map Prod.snd else []
    | none => []
  else []

end Method

/-- Adds the predecessors. -/
def addPreds (blocks : List Block) : List Block :=
  (List.range blocks.length).foldl (fun blocks b =>
    (blocks[b]?.elim [] Block.succs).foldl (fun blocks s => blocks.modify s fun block =>
      if b ∈ block.preds then block else { block with preds := block.preds ++ [b] }) blocks) blocks

/-- Adds the exception edges: every block of a try range to its clause. -/
def addExceptions (handlers : List Handler) (blocks : List Block) : List Block :=
  handlers.foldl (fun blocks h => match h.entry with
    | none => blocks
    | some entry => blocks.map fun block =>
      if h.tryContains block.start ∧ entry ∉ block.excSuccs then { block with excSuccs := block.excSuccs ++ [entry] }
      else block) blocks

/-- The clauses with their blocks, and the blocks with their edges. -/
def Method.edges (m : Method) (blocks : List Block) : List Handler × List Block :=
  let handlers := m.handlers.map (Handler.resolve blocks)
  let blocks := markEntries handlers blocks
  let lasts := blocks.map m.lastRecord
  let exits := lasts.flatMap fun last => last.toList.flatMap (m.finallyExits handlers blocks)
  let succs := lasts.map fun last => last.toList.flatMap fun last =>
    m.successors handlers blocks last ++ Method.resumptions handlers exits last
  let blocks := List.zipWith (fun block out => { block with succs := out.eraseDups }) blocks succs
  (handlers, addExceptions handlers (addPreds blocks))

/-- The flow graph of a method. -/
def Method.flow (m : Method) : List Handler × List Block := m.edges m.blocks

end Ctadl.Cil
