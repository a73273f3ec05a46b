import Ctadl.Graph.Cuts
import Ctadl.Jvm.Call

/-! # Basic blocks of a JVM method

A first pass decodes the instructions, with where each may branch and whether the next one may follow. Blocks
start at the leaders: the entry, the handlers, the branch targets, and behind conditional branches. A block's
successors come from its last instruction and from the exception table.
-/

namespace Ctadl.Jvm

open Graph

structure ExceptionTableEntry where
  startPc : UInt16
  endPc : UInt16
  handlerPc : UInt16
deriving DecidableEq, Repr

/-- The code of a method. Its length is read from four bytes. -/
structure CodeAttribute where
  code : List UInt8
  exceptionTable : List ExceptionTableEntry := []
  short : code.length < 2 ^ 32

/-! ## Instructions -/

def readI32Be (data : List UInt8) (offset : ℕ) : ClassFileResult (BitVec 32) :=
  match data[offset]?, data[offset + 1]?, data[offset + 2]?, data[offset + 3]? with
  | some a, some b, some c, some d => .ok (a.toBitVec ++ b.toBitVec ++ c.toBitVec ++ d.toBitVec)
  | _, _, _, _ => .error (.outOfBounds offset 4 data.length)

/-- A count read from the code. A negative one becomes a huge number. -/
def asUsize (n : BitVec 32) : ℕ := (n.signExtend 64).toNat

/-- Where the operands of a switch start. -/
def align (pc : ℕ) : ℕ := (pc + 1 + 3) / 4 * 4

def operandByteCount (opcode : ℕ) : ℕ :=
  if opcode ∈ [0x10, 0x12, 0xa9, 0xbc] ∨ 0x15 ≤ opcode ∧ opcode ≤ 0x19 ∨ 0x36 ≤ opcode ∧ opcode ≤ 0x3a then 1
  else if opcode ∈ [0x11, 0x13, 0x14, 0x84, 0xbb, 0xbd, 0xc0, 0xc1, 0xc6, 0xc7] ∨ 0xb2 ≤ opcode ∧ opcode ≤ 0xb8 ∨
    0x99 ≤ opcode ∧ opcode ≤ 0xa8 then 2
  else if opcode = 0xc5 then 3
  else if opcode ∈ [0xb9, 0xba, 0xc8, 0xc9] then 4
  else 0

def wideOperands (subop : ℕ) : ℕ :=
  if subop = 0x84 then 4
  else if subop = 0xa9 ∨ 0x15 ≤ subop ∧ subop ≤ 0x19 ∨ 0x36 ≤ subop ∧ subop ≤ 0x3a then 2
  else 0

/-- The number of entries of a `tableswitch`, in 32 bits. -/
def tableCount (low high : BitVec 32) : BitVec 32 := high - low + 1

def instructionLength (code : List UInt8) (pc opcode : ℕ) : ClassFileResult ℕ :=
  if opcode = 0xaa then
    if align pc + 12 > code.length then .error (.invalidClassFile "tableswitch truncated")
    else do
      let low ← readI32Be code (align pc + 4)
      let high ← readI32Be code (align pc + 8)
      return align pc + 12 + asUsize (tableCount low high) * 4 - pc
  else if opcode = 0xab then
    if align pc + 8 > code.length then .error (.invalidClassFile "lookupswitch truncated")
    else do
      let npairs ← readI32Be code (align pc + 4)
      return align pc + 8 + asUsize npairs * 8 - pc
  else if opcode = 0xc4 then
    match code[pc + 1]? with
    | none => .error (.invalidClassFile "wide truncated")
    | some subop => .ok (2 + wideOperands subop.toNat)
  else .ok (1 + operandByteCount opcode)

/-- The opcode of an instruction, behind a `wide` prefix. -/
def logicalOpcode (code : List UInt8) (pc opcode : ℕ) : ℕ :=
  if opcode = 0xc4 then (code.getD (pc + 1) 0).toNat else opcode

/-- `if*`, `ifnull` and `ifnonnull`. -/
def isConditional (opcode : ℕ) : Bool := 0x99 ≤ opcode && opcode ≤ 0xa6 || opcode = 0xc6 || opcode = 0xc7

/-- Where a branch at `pc` goes, in 32 bits. -/
def branchTarget (pc : ℕ) (offset : BitVec 32) : ℕ := (BitVec.ofNat 32 pc + offset).toNat

/-- A branch offset of two bytes. -/
def readOffset16 (code : List UInt8) (offset : ℕ) : ClassFileResult (BitVec 32) :=
  (readU16Be code offset).map fun n => (BitVec.ofNat 16 n).signExtend 32

/-- The default of a switch, and `count` offsets that are `stride` bytes apart. -/
def readTable (code : List UInt8) (pc count stride : ℕ) : ClassFileResult (List (BitVec 32)) := do
  let default ← readI32Be code (align pc)
  let offsets ← (List.range count).mapM fun i => readI32Be code (align pc + 12 + i * stride)
  return default :: offsets

/-- Where the instruction may branch. -/
def branchTargets (code : List UInt8) (pc opcode : ℕ) : ClassFileResult (List ℕ) :=
  if isConditional opcode ∨ opcode = 0xa7 ∨ opcode = 0xa8 then
    if pc + 2 ≤ code.length then do
      let offset ← readOffset16 code (pc + 1)
      return [branchTarget pc offset]
    else .ok []
  else if opcode = 0xc8 ∨ opcode = 0xc9 then
    if pc + 4 ≤ code.length then do
      let offset ← readI32Be code (pc + 1)
      return [branchTarget pc offset]
    else .ok []
  else if opcode = 0xaa then do
    let low ← readI32Be code (align pc + 4)
    let high ← readI32Be code (align pc + 8)
    let offsets ← readTable code pc (asUsize (tableCount low high)) 4
    return sorted (offsets.map (branchTarget pc))
  else if opcode = 0xab then do
    let npairs ← readI32Be code (align pc + 4)
    let offsets ← readTable code pc (asUsize npairs) 8
    return sorted (offsets.map (branchTarget pc))
  else .ok []

/-- Gotos, `jsr`, `ret`, switches, returns and `athrow`. -/
def endsFlow (opcode : ℕ) : Bool :=
  0xa7 ≤ opcode && opcode ≤ 0xb1 || opcode = 0xbf || opcode = 0xc8 || opcode = 0xc9

structure InstrCtrl where
  pc : ℕ
  nextPc : ℕ
  opcode : ℕ
  branchTargets : List ℕ
  fallsThrough : Bool
deriving DecidableEq, Repr

/-- The instruction at `pc`. -/
def decodeInstr (code : List UInt8) (pc : ℕ) : ClassFileResult InstrCtrl :=
  match code[pc]? with
  | none => .error (.invalidClassFile "pc past code")
  | some byte => do
    let length ← instructionLength code pc byte.toNat
    let opcode := logicalOpcode code pc byte.toNat
    let targets ← branchTargets code pc opcode
    return ⟨pc, pc + length, opcode, targets, !endsFlow opcode && pc + length < code.length⟩

/-- The instructions in the last `left` bytes from `pc` on, of which `skip` still belong to the one before. -/
def decodeFrom (code : List UInt8) : ℕ → ℕ → ℕ → ClassFileResult (List InstrCtrl)
  | 0, _, _ => .ok []
  | left + 1, pc, skip + 1 => decodeFrom code left (pc + 1) skip
  | left + 1, pc, 0 => do
    let m ← decodeInstr code pc
    let ctrl ← decodeFrom code left (pc + 1) (m.nextPc - pc - 1)
    return m :: ctrl

def decodeCtrl (code : List UInt8) : ClassFileResult (List InstrCtrl) := decodeFrom code code.length 0 0

/-! ## Blocks -/

/-- The leaders an instruction asks for. -/
def leadersOf (len : ℕ) (m : InstrCtrl) : List ℕ :=
  m.branchTargets.filter (· < len) ++
    if m.branchTargets ≠ [] ∧ m.fallsThrough ∧ m.nextPc < len then [m.nextPc] else []

def leaders (attr : CodeAttribute) (ctrl : List InstrCtrl) : List ℕ :=
  sorted (0 :: attr.exceptionTable.map (·.handlerPc.toNat) ++ ctrl.flatMap (leadersOf attr.code.length))

structure BasicBlock where
  startPc : ℕ
  endPc : ℕ
  /-- Its instructions, by index: from `first` up to `stop`. -/
  first : ℕ
  stop : ℕ
deriving DecidableEq, Repr

/-- The index of the first instruction from `current` on that does not start before `endPc`. -/
def advance (ctrl : List InstrCtrl) (endPc current : ℕ) : ℕ :=
  current + ((ctrl.drop current).takeWhile (·.pc < endPc)).length

/-- One block for each leader, from the instruction `current` on. -/
def blocksFrom (ctrl : List InstrCtrl) : ℕ → List (ℕ × ℕ) → List BasicBlock
  | _, [] => []
  | current, (startPc, endPc) :: pieces =>
    let stop := advance ctrl endPc current
    ⟨startPc, endPc, current, stop⟩ :: blocksFrom ctrl stop pieces

def basicBlocks (attr : CodeAttribute) (ctrl : List InstrCtrl) : List BasicBlock :=
  blocksFrom ctrl 0 (pieces attr.code.length (leaders attr ctrl))

def pcToBlockIndex (blocks : List BasicBlock) (pc : ℕ) : Option ℕ := blocks.findIdx? (·.startPc = pc)

/-- The successors by the last instruction of a block. -/
def normalSuccessors (len : ℕ) (ctrl : List InstrCtrl) (blocks : List BasicBlock) (block : BasicBlock) : List ℕ :=
  if block.stop ≤ block.first then []
  else match ctrl[block.stop - 1]? with
    | none => []
    | some m =>
      let branches := (m.branchTargets.filterMap (pcToBlockIndex blocks)).foldl pushNew []
      if m.fallsThrough ∧ block.endPc < len then
        (pcToBlockIndex blocks block.endPc).toList.foldl pushNew branches
      else branches

/-- Whether the instructions of a block reach into the range of an exception entry. -/
def inRange (ctrl : List InstrCtrl) (block : BasicBlock) (ex : ExceptionTableEntry) : Bool :=
  block.first < block.stop && ctrl[block.stop - 1]?.any (ex.startPc.toNat ≤ ·.pc) &&
    ctrl[block.first]?.any (·.pc < ex.endPc.toNat)

/-- The handler blocks of a block. -/
def exceptionSuccessors (table : List ExceptionTableEntry) (ctrl : List InstrCtrl) (blocks : List BasicBlock)
    (block : BasicBlock) : List ℕ :=
  (table.filter (inRange ctrl block)).filterMap fun ex => pcToBlockIndex blocks ex.handlerPc.toNat

/-- The successors of each block. -/
def blockSuccessors (attr : CodeAttribute) (ctrl : List InstrCtrl) : List (List ℕ) :=
  let blocks := basicBlocks attr ctrl
  blocks.map fun block => (exceptionSuccessors attr.exceptionTable ctrl blocks block).foldl pushNew
    (normalSuccessors attr.code.length ctrl blocks block)

end Ctadl.Jvm
