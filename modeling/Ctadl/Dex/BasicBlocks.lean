import Ctadl.Dex.Code
import Ctadl.Graph.Cuts
import Mathlib.Algebra.Group.Int.Defs

/-! # Basic blocks of a Dex instruction stream

Blocks start at the entry, at branch targets and handlers, and behind the instructions that may go on
elsewhere. A block's successors are those of its last instruction.
-/

namespace Ctadl.Dex

open Graph

namespace Instruction

/-- The opcodes of the instructions that are known not to throw. -/
def safe (opcode : ℕ) : Bool :=
  opcode ≤ 0x19 || 0x28 ≤ opcode && opcode ≤ 0x43 || opcode = 0x73 || 0x79 ≤ opcode && opcode ≤ 0x92 ||
  0x95 ≤ opcode && opcode ≤ 0x9d || 0xa0 ≤ opcode && opcode ≤ 0xb2 || 0xb5 ≤ opcode && opcode ≤ 0xbd ||
  0xc0 ≤ opcode && opcode ≤ 0xd2 || 0xd5 ≤ opcode && opcode ≤ 0xda || 0xdd ≤ opcode && opcode ≤ 0xf9

def canThrow : Instruction → Bool
  | throw => true
  | plain opcode => !safe opcode
  | _ => false

end Instruction

/-- Where a branch at `pc` goes. `add_target` computes the same. -/
def resolveTarget (pc : ℕ) (offset : ℤ) : Option ℕ :=
  let t := (pc : ℤ) + offset
  if pc < 2 ^ 31 ∧ -2 ^ 31 ≤ t ∧ t < 2 ^ 31 then
    if 0 ≤ t then some t.toNat else none
  else none

/-- The offset of a switch's payload. A negative one becomes a huge number. -/
def payloadOffset (pc : ℕ) (tgt : BitVec 32) : ℕ := ((BitVec.ofNat 32 pc + tgt).signExtend 64).toNat

/-- The targets in the payload of a switch at `pc`. -/
def switchTargets (items : List DecodedCodeItem) (pc : ℕ) (tgt : BitVec 32) : List ℕ :=
  match items.find? (·.offset = payloadOffset pc tgt) with
  | some (.payload _ p) => p.targets.filterMap fun rel => resolveTarget pc rel.toInt
  | _ => []

def TryItem.contains (t : TryItem) (pc : ℕ) : Bool :=
  let pc := BitVec.ofNat 32 pc
  t.startAddr ≤ pc && pc < t.startAddr + t.insnCount.setWidth 32

def EncodedCatchHandler.targets (h : EncodedCatchHandler) : List ℕ :=
  h.pairs.map (·.addr.toNat) ++ h.catchAllAddr.toList.map BitVec.toNat

/-- The handlers of the try ranges around `pc`. -/
def protectedHandlerTargets (code : CodeItem) (pc : ℕ) : List ℕ :=
  match code.handlers with
  | none => []
  | some handlers =>
    sorted ((code.tries.filter (·.contains pc)).flatMap fun t =>
      (handlers.getByOff t.handlerOff).elim [] EncodedCatchHandler.targets)

/-- The block starts the item with index `i` asks for. -/
def startsOf (code : CodeItem) (items : List DecodedCodeItem) (i : ℕ) : DecodedCodeItem → List ℕ
  | .payload _ _ => []
  | .instruction pc inst =>
    let fallThrough := (items[i + 1]?.map DecodedCodeItem.offset).toList
    let handlers := protectedHandlerTargets code pc
    handlers ++ (if handlers ≠ [] ∧ inst.canThrow then fallThrough else []) ++
      match inst with
      | .goto off => (resolveTarget pc off.toInt).toList
      | .goto16 off => (resolveTarget pc off.toInt).toList
      | .goto32 off => (resolveTarget pc off.toInt).toList
      | .ifTest _ tgt => (resolveTarget pc tgt.toInt).toList ++ fallThrough
      | .ifTestz _ tgt => (resolveTarget pc tgt.toInt).toList ++ fallThrough
      | .packedSwitch tgt | .sparseSwitch tgt => fallThrough ++ switchTargets items pc tgt
      | .throw | .ret _ | .plain _ => []

/-- The offsets where blocks start, in order. -/
def controlFlowTargets (code : CodeItem) (items : List DecodedCodeItem) : List ℕ :=
  sorted (0 :: items.zipIdx.flatMap fun item => startsOf code items item.2 item.1)

/-- A run of items, by index. -/
structure BasicBlock where
  start : ℕ
  stop : ℕ
deriving DecidableEq, Repr

/-- The index of the first item at or behind `offset`. -/
def position (items : List DecodedCodeItem) (offset : ℕ) : ℕ := items.findIdx fun item => offset ≤ item.offset

def basicBlocks (code : CodeItem) (items : List DecodedCodeItem) : List BasicBlock :=
  ((pieces (2 ^ 64 - 1) (controlFlowTargets code items)).map fun piece =>
    { start := position items piece.1, stop := position items piece.2 }).filter fun block => block.start < block.stop

/-- The block that starts at `offset`. No two start at one item. -/
def offsetToBlock (items : List DecodedCodeItem) (blocks : List BasicBlock) (offset : ℕ) : Option ℕ :=
  blocks.findIdx? fun block => items[block.start]?.any (·.offset = offset)

/-- The last instruction from index `start` up to `stop`, with its index and offset. -/
def terminator (items : List DecodedCodeItem) (start : ℕ) : ℕ → Option (ℕ × ℕ × Instruction)
  | 0 => none
  | stop + 1 =>
    if stop < start then none
    else match items[stop]? with
      | some (.instruction pc inst) => some (stop, pc, inst)
      | _ => terminator items start stop

/-- The successors of the block with index `b`. -/
def successors (code : CodeItem) (items : List DecodedCodeItem) (blocks : List BasicBlock) (b : ℕ) (block : BasicBlock) :
    List ℕ :=
  match terminator items block.start block.stop with
  | none => if b + 1 < blocks.length then [b + 1] else []
  | some (i, pc, inst) =>
    let blockAt := offsetToBlock items blocks
    let fallThrough := (items[i + 1]?.bind fun item => blockAt item.offset).toList
    let succs := match inst with
      | .throw | .ret _ => []
      | .goto off => ((resolveTarget pc off.toInt).bind blockAt).toList
      | .goto16 off => ((resolveTarget pc off.toInt).bind blockAt).toList
      | .goto32 off => ((resolveTarget pc off.toInt).bind blockAt).toList
      | .ifTest _ tgt => ((resolveTarget pc tgt.toInt).bind blockAt).toList ++ fallThrough
      | .ifTestz _ tgt => ((resolveTarget pc tgt.toInt).bind blockAt).toList ++ fallThrough
      | .packedSwitch tgt | .sparseSwitch tgt => ((switchTargets items pc tgt).filterMap blockAt).foldl pushNew fallThrough
      | .plain _ => fallThrough
    if inst.canThrow then ((protectedHandlerTargets code pc).filterMap blockAt).foldl pushNew succs else succs

/-- The successors of each block. -/
def blockSuccessors (code : CodeItem) (items : List DecodedCodeItem) : List (List ℕ) :=
  let blocks := basicBlocks code items
  blocks.zipIdx.map fun block => successors code items blocks block.2 block.1

end Ctadl.Dex
