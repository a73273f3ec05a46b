import Ctadl.Jvm.Blocks

/-! # The data flow of JVM instructions

The reader decodes an instruction other than a call into the locations it reads and writes, one entry per
destination. Operands on the stack are depths below the top; the simulation of a block then puts the slots in
their place, by the height of the stack before the instruction.
-/

namespace Ctadl.Jvm

/-- A constant, as the reader resolves it. -/
inductive ConstantValue where
  | integer (n : Int32)
  | long (n : Int64)
  | float (bits : ℕ)
  | double (bits : ℕ)
  | string (s : String)
  | classRef (name : String)
  | methodType (descriptor : String)
  | methodHandle (referenceKind : ℕ) (className name descriptor : String)
  | dynamic (name descriptor : String)
  | null
deriving DecidableEq, Repr

structure FieldRef where
  className : String
  fieldName : String
  descriptor : String
deriving DecidableEq, Repr

/-- Where an operand of the data flow lives. -/
inductive FlowLocation where
  | register (slot : ℕ)
  | parameter (ordinal : ℕ)
  | constant (value : ConstantValue)
  | stackSlot (id : ℕ)
  /-- Depth 0 is the top of the stack. -/
  | stackInput (depth : ℕ)
  | stackOutput
  | fieldRef (field : FieldRef)
  | arrayElement (base offset : FlowLocation)
  | allocation (cls : String)
deriving DecidableEq, Repr

structure DataflowInfo where
  sources : List FlowLocation
  destination : FlowLocation
deriving DecidableEq, Repr

inductive InstructionKind where
  | dataflow
  | call
  | other
deriving DecidableEq, Repr

/-- What the reader resolves in the constant pool, by index. -/
structure ResolvedPool where
  constant : ℕ → ClassFileResult ConstantValue
  fieldRef : ℕ → ClassFileResult FieldRef
  className : ℕ → ClassFileResult String

def opcodeKind (opcode : ℕ) : InstructionKind :=
  if 0x01 ≤ opcode ∧ opcode ≤ 0x56 then .dataflow
  else if 0x59 ≤ opcode ∧ opcode ≤ 0x98 then .dataflow
  else if 0xb2 ≤ opcode ∧ opcode ≤ 0xb5 then .dataflow
  else if 0xb6 ≤ opcode ∧ opcode ≤ 0xba then .call
  else if 0xbb ≤ opcode ∧ opcode ≤ 0xbd ∨ opcode = 0xc5 then .dataflow
  else .other

def localSlotToLocation (slot : ℕ) (params : ParameterSlotMap) : FlowLocation :=
  match params.ordinalForSlot slot with
  | some ordinal => .parameter ordinal
  | none => .register slot

def constForConstOp (opcode : ℕ) : ConstantValue :=
  if opcode = 0x02 then .integer (-1)
  else if 0x03 ≤ opcode ∧ opcode ≤ 0x08 then .integer (Int32.ofNat (opcode - 0x03))
  else if opcode ∈ [0x09, 0x0a] then .long (Int64.ofNat (opcode - 0x09))
  else if 0x0b ≤ opcode ∧ opcode ≤ 0x0d then .float (opcode - 0x0b)
  else if opcode ∈ [0x0e, 0x0f] then .double (opcode - 0x0e)
  else .integer 0

/-- The operand slots an arithmetic instruction pops and pushes. -/
def stackEffect (opcode : ℕ) : ℕ × ℕ :=
  if opcode ∈ [0x60, 0x64, 0x68, 0x6c, 0x70] then (2, 1)
  else if opcode ∈ [0x61, 0x65, 0x69, 0x6d, 0x71] then (4, 2)
  else if opcode ∈ [0x62, 0x66, 0x6a, 0x6e, 0x72] then (2, 1)
  else if opcode ∈ [0x63, 0x67, 0x6b, 0x6f, 0x73] then (4, 2)
  -- negations
  else if opcode ∈ [0x74, 0x76] then (1, 1)
  else if opcode ∈ [0x75, 0x77] then (2, 2)
  -- shifts: the distance is an int
  else if opcode ∈ [0x78, 0x7a, 0x7c] then (2, 1)
  else if opcode ∈ [0x79, 0x7b, 0x7d] then (3, 2)
  -- `and`, `or` and `xor`
  else if opcode ∈ [0x7e, 0x80, 0x82] then (2, 1)
  else if opcode ∈ [0x7f, 0x81, 0x83] then (4, 2)
  -- comparisons
  else if opcode = 0x94 then (4, 1)
  else if opcode ∈ [0x95, 0x96] then (2, 1)
  else if opcode ∈ [0x97, 0x98] then (4, 1)
  else (0, 0)

def fieldSlotWidth (descriptor : String) : ℕ :=
  match descriptor.toList with
  | 'J' :: _ | 'D' :: _ => 2
  | _ => 1

def primitiveArrayDescriptor (atype : ℕ) : String :=
  match atype with
  | 4 => "[Z"
  | 5 => "[C"
  | 6 => "[F"
  | 7 => "[D"
  | 8 => "[B"
  | 9 => "[S"
  | 10 => "[I"
  | 11 => "[J"
  | _ => "[?"

/-- The top operands of the stack, from the top down. -/
def stackInputs (count : ℕ) : List FlowLocation := (List.range count).map .stackInput

def stackOutputs (count : ℕ) : List FlowLocation := List.replicate count .stackOutput

/-- The local slot an instruction names. -/
def readSlot (code : List UInt8) (operandStart : ℕ) (wide : Bool) : ClassFileResult ℕ :=
  if wide then readU16Be code operandStart else readU8 code operandStart

section Decode

variable (code : List UInt8) (pc : ℕ) (cf : ResolvedPool)

/-- Conversions and comparisons: what they pop and push. -/
def conversionEffect (opcode : ℕ) : Option (ℕ × ℕ) :=
  if opcode ∈ [0x85, 0x87, 0x8c, 0x8d] then some (1, 2)
  else if opcode ∈ [0x88, 0x89, 0x8e, 0x90] then some (2, 1)
  else if opcode ∈ [0x8a, 0x8f] then some (2, 2)
  else if opcode ∈ [0x86, 0x8b, 0x91, 0x92, 0x93] then some (1, 1)
  else if opcode = 0x94 then some (4, 1)
  else if opcode ∈ [0x95, 0x96] then some (2, 1)
  else if opcode ∈ [0x97, 0x98] then some (4, 1)
  else none

/-- The sources and destinations of an instruction. -/
def decodeDataflow (opcode : ℕ) (params : ParameterSlotMap) (wide : Bool) :
    ClassFileResult (List FlowLocation × List FlowLocation) :=
  let operandStart := if wide then pc + 2 else pc + 1
  if opcode = 0x01 then .ok ([.constant .null], [.stackOutput])
  else if 0x02 ≤ opcode ∧ opcode ≤ 0x0f then
    .ok ([.constant (constForConstOp opcode)], stackOutputs (if opcode ∈ [0x09, 0x0a, 0x0e, 0x0f] then 2 else 1))
  else if opcode = 0x10 then do
    let b ← readU8 code (pc + 1)
    return ([.constant (.integer (Int32.ofInt (BitVec.ofNat 8 b).toInt))], [.stackOutput])
  else if opcode = 0x11 then do
    let s ← readU16Be code (pc + 1)
    return ([.constant (.integer (Int32.ofInt (BitVec.ofNat 16 s).toInt))], [.stackOutput])
  else if opcode = 0x12 ∨ opcode = 0x13 then do
    let idx ← if opcode = 0x12 then readU8 code (pc + 1) else readU16Be code (pc + 1)
    let c ← cf.constant idx
    return ([.constant c], [.stackOutput])
  else if opcode = 0x14 then do
    let idx ← readU16Be code (pc + 1)
    let c ← cf.constant idx
    return ([.constant c], [.stackOutput, .stackOutput])
  else if 0x15 ≤ opcode ∧ opcode ≤ 0x19 then do
    let slot ← readSlot code operandStart wide
    return ([localSlotToLocation slot params], stackOutputs (if opcode ∈ [0x16, 0x18] then 2 else 1))
  else if 0x1a ≤ opcode ∧ opcode ≤ 0x2d then
    let slot :=
      if opcode ≤ 0x1d then opcode - 0x1a
      else if opcode ≤ 0x21 then opcode - 0x1e
      else if opcode ≤ 0x25 then opcode - 0x22
      else if opcode ≤ 0x29 then opcode - 0x26
      else opcode - 0x2a
    .ok ([localSlotToLocation slot params],
      stackOutputs (if 0x1e ≤ opcode ∧ opcode ≤ 0x21 ∨ 0x26 ≤ opcode ∧ opcode ≤ 0x29 then 2 else 1))
  else if 0x2e ≤ opcode ∧ opcode ≤ 0x35 then
    .ok ([.arrayElement (.stackInput 1) (.stackInput 0)], stackOutputs (if opcode ∈ [0x2f, 0x31] then 2 else 1))
  else if 0x36 ≤ opcode ∧ opcode ≤ 0x3a then do
    let slot ← readSlot code operandStart wide
    return (stackInputs (if opcode ∈ [0x37, 0x39] then 2 else 1), [localSlotToLocation slot params])
  else if 0x3b ≤ opcode ∧ opcode ≤ 0x4e then
    let slot :=
      if opcode ≤ 0x3e then opcode - 0x3b
      else if opcode ≤ 0x42 then opcode - 0x3f
      else if opcode ≤ 0x46 then opcode - 0x43
      else if opcode ≤ 0x4a then opcode - 0x47
      else opcode - 0x4b
    .ok (stackInputs (if 0x3f ≤ opcode ∧ opcode ≤ 0x42 ∨ 0x47 ≤ opcode ∧ opcode ≤ 0x4a then 2 else 1),
      [localSlotToLocation slot params])
  else if 0x4f ≤ opcode ∧ opcode ≤ 0x56 then
    if opcode = 0x50 ∨ opcode = 0x52 then
      .ok (stackInputs 2, [.arrayElement (.stackInput 3) (.stackInput 2)])
    else .ok (stackInputs 1, [.arrayElement (.stackInput 2) (.stackInput 1)])
  else if opcode = 0xbb then do
    let idx ← readU16Be code (pc + 1)
    let name ← cf.className idx
    return ([.allocation name], [.stackOutput])
  else if opcode = 0xbc then do
    let atype ← readU8 code (pc + 1)
    return ([.stackInput 0, .allocation (primitiveArrayDescriptor atype)], [.stackOutput])
  else if opcode = 0xbd then do
    let idx ← readU16Be code (pc + 1)
    let name ← cf.className idx
    -- an array class is named by its descriptor
    let element := if name.toList.head? = some '[' then name else "L" ++ name ++ ";"
    return ([.stackInput 0, .allocation ("[" ++ element)], [.stackOutput])
  else if opcode = 0xc5 then do
    let idx ← readU16Be code (pc + 1)
    let dimensions ← readU8 code (pc + 3)
    let name ← cf.className idx
    return (stackInputs dimensions ++ [.allocation name], [.stackOutput])
  else if 0x60 ≤ opcode ∧ opcode ≤ 0x83 then
    .ok (stackInputs (stackEffect opcode).1, stackOutputs (stackEffect opcode).2)
  else if opcode = 0x84 then do
    let idx ← readSlot code operandStart wide
    -- the constant of a wide `iinc` must be there, and is not used
    if wide then let _ ← readU16Be code (operandStart + 2)
    return ([localSlotToLocation idx params], [localSlotToLocation idx params])
  else if 0x85 ≤ opcode ∧ opcode ≤ 0x98 then
    match conversionEffect opcode with
    | some (pops, pushes) => .ok (stackInputs pops, stackOutputs pushes)
    | none => .ok ([], [])
  else if opcode = 0xb2 then do
    let idx ← readU16Be code (pc + 1)
    let field ← cf.fieldRef idx
    return ([.fieldRef field], stackOutputs (fieldSlotWidth field.descriptor))
  else if opcode = 0xb3 then do
    let idx ← readU16Be code (pc + 1)
    let field ← cf.fieldRef idx
    return (stackInputs (fieldSlotWidth field.descriptor), [.fieldRef field])
  else if opcode = 0xb4 then do
    let idx ← readU16Be code (pc + 1)
    let field ← cf.fieldRef idx
    return ([.stackInput 0, .fieldRef field], stackOutputs (fieldSlotWidth field.descriptor))
  else if opcode = 0xb5 then do
    let idx ← readU16Be code (pc + 1)
    let field ← cf.fieldRef idx
    return (stackInputs (fieldSlotWidth field.descriptor + 1), [.fieldRef field])
  else .ok ([], [])

/-- One entry per destination. -/
def splitDataflowInfos (flow : List FlowLocation × List FlowLocation) : List DataflowInfo :=
  flow.2.map fun destination => ⟨flow.1, destination⟩

/-- The depth each output of `dup*` or `swap` copies, the deepest output first. -/
def stackShuffle (opcode : ℕ) : Option (List ℕ) :=
  if opcode = 0x59 then some [0, 0]
  else if opcode = 0x5a then some [0, 1, 0]
  else if opcode = 0x5b then some [0, 2, 1, 0]
  else if opcode = 0x5c then some [1, 0, 1, 0]
  else if opcode = 0x5d then some [1, 0, 2, 1, 0]
  else if opcode = 0x5e then some [1, 0, 3, 2, 1, 0]
  else if opcode = 0x5f then some [0, 1]
  else none

def stackShuffleDataflow (inputs : List ℕ) : List DataflowInfo :=
  inputs.map fun depth => ⟨[.stackInput depth], .stackOutput⟩

/-- A decoded instruction, without the call of an invoke. -/
structure InstructionFlowInfo where
  kind : InstructionKind
  opcode : ℕ
  dataflow : List DataflowInfo
deriving DecidableEq, Repr

/-- The instruction at `pc`; a `wide` prefix and the instruction behind it are one. -/
def decodeFlowInstruction (params : ParameterSlotMap) : ClassFileResult InstructionFlowInfo :=
  match code[pc]? with
  | none => .error (.invalidClassFile "pc past code")
  | some byte => do
    let _ ← instructionLength code pc byte.toNat
    let wide : Bool := byte.toNat = 0xc4
    let opcode := logicalOpcode code pc byte.toNat
    let dataflow ←
      match if wide then none else stackShuffle opcode with
      | some inputs => .ok (stackShuffleDataflow inputs)
      | none =>
        if opcodeKind opcode = .dataflow then (decodeDataflow code pc cf opcode params wide).map splitDataflowInfos
        else .ok []
    -- `athrow` reads the exception off the stack
    let dataflow := if opcode = 0xbf then [⟨[.stackInput 0], .stackInput 0⟩] else dataflow
    return ⟨opcodeKind opcode, opcode, dataflow⟩

end Decode

/-! ## Stack slots -/

namespace FlowLocation

/-- How many operands a location needs on the stack. -/
def depth : FlowLocation → ℕ
  | stackInput depth => depth + 1
  | arrayElement base offset => max base.depth offset.depth
  | _ => 0

end FlowLocation

/-- The stack effect of the instructions without data flow: pops, branches, switches, returns, `jsr`, `arraylength`,
`athrow`, casts and tests, and monitors. -/
def miscStackEffect (opcode : ℕ) : ℕ × ℕ :=
  if opcode = 0x57 then (1, 0)
  else if opcode = 0x58 then (2, 0)
  else if 0x99 ≤ opcode ∧ opcode ≤ 0x9e ∨ opcode = 0xc6 ∨ opcode = 0xc7 then (1, 0)
  else if 0x9f ≤ opcode ∧ opcode ≤ 0xa6 then (2, 0)
  else if opcode = 0xaa ∨ opcode = 0xab then (1, 0)
  else if opcode ∈ [0xac, 0xae, 0xb0] then (1, 0)
  else if opcode = 0xad ∨ opcode = 0xaf then (2, 0)
  else if opcode = 0xa8 ∨ opcode = 0xc9 then (0, 1)
  else if opcode = 0xbe then (1, 1)
  else if opcode = 0xbf then (1, 0)
  else if opcode = 0xc0 ∨ opcode = 0xc1 then (1, 1)
  else if opcode = 0xc2 ∨ opcode = 0xc3 then (1, 0)
  else (0, 0)

/-- The operands an instruction other than a call pops. -/
def InstructionFlowInfo.consume (inst : InstructionFlowInfo) : ℕ :=
  let deepest := inst.dataflow.foldl
    (fun consume df => max ((df.sources.map FlowLocation.depth).foldl max consume) df.destination.depth) 0
  if inst.dataflow.isEmpty then max deepest (miscStackEffect inst.opcode).1 else deepest

/-- The message of a source or destination below the bottom of the simulated stack. -/
def flowUnderflow (context : InstructionContext) (depth stackLen : ℕ) : String :=
  "stack underflow while rewriting StackInput: class=" ++ context.className ++ " method=" ++ context.methodName ++
    context.methodDesc ++ " pc=" ++ toString context.pc ++ " opcode=0x" ++ hexByte context.opcode ++ " mnem=" ++
    context.mnemonic ++ " depth=" ++ toString depth ++ " stack_len=" ++ toString stackLen

section Normalize

variable (context : InstructionContext) (stackLen : ℕ)

/-- Replaces depths by the stack slots at that depth. -/
def rewriteLocationStackInputs : FlowLocation → ClassFileResult FlowLocation
  | .stackInput depth =>
    if stackLen ≤ depth then .error (.invalidClassFileMessage (flowUnderflow context depth stackLen))
    else .ok (.stackSlot (stackLen - 1 - depth))
  | .arrayElement base offset => do
    let base ← rewriteLocationStackInputs base
    let offset ← rewriteLocationStackInputs offset
    return .arrayElement base offset
  | loc => .ok loc

def rewriteDataflow (df : DataflowInfo) : ClassFileResult DataflowInfo := do
  let sources ← df.sources.mapM (rewriteLocationStackInputs context stackLen)
  let destination ← rewriteLocationStackInputs context stackLen df.destination
  return ⟨sources, destination⟩

/-- Gives the outputs the slots from `next` on. -/
def numberOutputs : ℕ → List DataflowInfo → List DataflowInfo
  | _, [] => []
  | next, df :: rest =>
    if df.destination = .stackOutput then ⟨df.sources, .stackSlot next⟩ :: numberOutputs (next + 1) rest
    else df :: numberOutputs next rest

/-- The data flow of an instruction in a simulated block, where the stack has a height. -/
def simulateDataflow (inst : InstructionFlowInfo) : ClassFileResult (List DataflowInfo) := do
  let dataflow ← inst.dataflow.mapM (rewriteDataflow context stackLen)
  if stackLen < inst.consume then .error (.stackUnderflow context inst.consume stackLen)
  else return numberOutputs (stackLen - inst.consume) dataflow

end Normalize

end Ctadl.Jvm
