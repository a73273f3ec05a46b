import Ctadl.Collections.Fallible
import Ctadl.Jvm.Descriptor

/-! # Invoke instructions from bytes to a call statement

The reader decodes an invoke at a program counter against the constant pool, the stack simulation replaces depths
by stack slots, and the frontend lowers the call. Arguments are one entry per operand-stack slot throughout; the
lowered call has one argument per entry.
-/

namespace Ctadl.Jvm

open Cir

/-- The method a failure of the stack simulation happened in. -/
structure InstructionContext where
  className : String
  methodName : String
  methodDesc : String
  pc : ℕ
  opcode : ℕ
  mnemonic : String
deriving DecidableEq, Repr

inductive ClassFileError where
  | invalidClassFile (text : String)
  | invalidClassFileMessage (text : String)
  | outOfBounds (offset size len : ℕ)
  | unpairedSurrogate (cpIndex index codeUnit : ℕ)
  | stackUnderflow (method : InstructionContext) (consumed stackLen : ℕ)
deriving DecidableEq, Repr

abbrev ClassFileResult := Except ClassFileError

/-- A Utf8 constant: text, or where its first unpaired surrogate stands. -/
inductive JvmString where
  | text (s : String)
  | surrogate (index codeUnit : ℕ)
deriving DecidableEq, Repr

/-- The constants a call names; the others are read as one. -/
inductive CpEntry where
  | utf8 (s : JvmString)
  | cls (nameIndex : ℕ)
  | methodref (classIndex nameAndTypeIndex : ℕ)
  | interfaceMethodref (classIndex nameAndTypeIndex : ℕ)
  | nameAndType (nameIndex descriptorIndex : ℕ)
  | invokeDynamic (bootstrapMethodAttrIndex nameAndTypeIndex : ℕ)
  | other
deriving DecidableEq, Repr

/-- The constant pool; index `i` is at `i - 1`, and the slot after a long or double is empty. -/
structure ClassFile where
  constantPool : List (Option CpEntry)
deriving DecidableEq, Repr

namespace ClassFile

variable (cf : ClassFile)

def getCp (index : ℕ) : ClassFileResult CpEntry :=
  if index = 0 then .error (.invalidClassFile "cp index 0")
  else match cf.constantPool[index - 1]? with
    | some (some entry) => .ok entry
    | _ => .error (.invalidClassFile "invalid cp index")

def getUtf8 (index : ℕ) : ClassFileResult String := do
  match ← cf.getCp index with
  | .utf8 (.text s) => .ok s
  | .utf8 (.surrogate at_unit unit) => .error (.unpairedSurrogate index at_unit unit)
  | _ => .error (.invalidClassFile "expected Utf8")

def getClassName (index : ℕ) : ClassFileResult String := do
  match ← cf.getCp index with
  | .cls nameIndex => cf.getUtf8 nameIndex
  | _ => .error (.invalidClassFile "expected Class")

def getNameAndType (index : ℕ) : ClassFileResult (String × String) := do
  match ← cf.getCp index with
  | .nameAndType nameIndex descriptorIndex => return (← cf.getUtf8 nameIndex, ← cf.getUtf8 descriptorIndex)
  | _ => .error (.invalidClassFile "expected NameAndType")

end ClassFile

def readU8 (data : List UInt8) (offset : ℕ) : ClassFileResult ℕ :=
  match data[offset]? with
  | some byte => .ok byte.toNat
  | none => .error (.outOfBounds offset 1 data.length)

def readU16Be (data : List UInt8) (offset : ℕ) : ClassFileResult ℕ :=
  match data[offset]?, data[offset + 1]? with
  | some high, some low => .ok (high.toNat * 256 + low.toNat)
  | _, _ => .error (.outOfBounds offset 2 data.length)

/-- Where an operand of a call lives. -/
inductive Location where
  | stackSlot (id : ℕ)
  /-- Depth 0 is the top of the stack. -/
  | stackInput (depth : ℕ)
  | stackOutput
deriving DecidableEq, Repr

inductive CallKind where
  | static
  | virtual
  | special
  | interface
  | dynamic
deriving DecidableEq, Repr

/-- The resolved method of an invoke other than `invokedynamic`. -/
structure MethodTarget where
  className : String
  methodName : String
  descriptor : String
deriving DecidableEq, Repr

structure CallInfo where
  target : Option MethodTarget := none
  dynamicBootstrap : Option ℕ := none
  dynamicName : Option String := none
  dynamicType : Option String := none
  callKind : CallKind
  stackSlotsConsumed : ℕ := 0
  receiver : Option Location := none
  /-- One entry per consumed argument stack slot, two for a long or double. -/
  arguments : List Location := []
  returnValue : Option Location := none
deriving DecidableEq, Repr

def resolveMethodTarget (cf : ClassFile) (cpIndex : ℕ) : ClassFileResult MethodTarget := do
  match ← cf.getCp cpIndex with
  | .methodref classIndex nameAndTypeIndex | .interfaceMethodref classIndex nameAndTypeIndex =>
    let className ← cf.getClassName classIndex
    let (methodName, descriptor) ← cf.getNameAndType nameAndTypeIndex
    return { className, methodName, descriptor }
  | _ => .error (.invalidClassFile "expected Methodref or InterfaceMethodref")

/-- The bootstrap index, name and type of an `InvokeDynamic` constant. -/
def resolveInvokeDynamic (cf : ClassFile) (cpIndex : ℕ) : ClassFileResult (ℕ × String × String) := do
  match ← cf.getCp cpIndex with
  | .invokeDynamic bootstrap nameAndTypeIndex =>
    let (name, descriptor) ← cf.getNameAndType nameAndTypeIndex
    return (bootstrap, name, descriptor)
  | _ => .error (.invalidClassFile "expected InvokeDynamic")

/-- One argument per slot, the bottom-most first. -/
def buildArgs (paramSlots : ℕ) : List Location :=
  (List.range paramSlots).map fun j => .stackInput (paramSlots - 1 - j)

def returnLocation (descriptor : String) : Option Location :=
  if descriptorReturnsValue descriptor then some .stackOutput else none

/-- The slot count of the parameters in a byte, as the reader keeps it. -/
def decodedParamSlots (descriptor : String) : ℕ := descriptorParamSlotCount descriptor % 256

/-- `invokevirtual` and `invokespecial`. -/
def decodeReceiverCall (callKind : CallKind) (target : MethodTarget) : CallInfo where
  target := some target
  callKind := callKind
  stackSlotsConsumed := (decodedParamSlots target.descriptor + 1) % 256
  receiver := some (.stackInput (decodedParamSlots target.descriptor))
  arguments := buildArgs (decodedParamSlots target.descriptor)
  returnValue := returnLocation target.descriptor

def decodeStaticCall (target : MethodTarget) : CallInfo where
  target := some target
  callKind := .static
  stackSlotsConsumed := decodedParamSlots target.descriptor
  arguments := buildArgs (decodedParamSlots target.descriptor)
  returnValue := returnLocation target.descriptor

/-- The count operand of `invokeinterface` includes the receiver. -/
def decodeInterfaceCall (count : ℕ) (target : Option MethodTarget) : CallInfo where
  target := target
  callKind := .interface
  stackSlotsConsumed := count
  receiver := some (.stackInput (count - 1))
  arguments := buildArgs (count - 1)
  returnValue := target.bind fun t => returnLocation t.descriptor

def decodeDynamicCall (bootstrap : ℕ) (name descriptor : String) : CallInfo where
  dynamicBootstrap := some bootstrap
  dynamicName := some name
  dynamicType := some descriptor
  callKind := .dynamic
  stackSlotsConsumed := decodedParamSlots descriptor
  arguments := buildArgs (decodedParamSlots descriptor)
  returnValue := returnLocation descriptor

def decodeCall (code : List UInt8) (pc : ℕ) (cf : ClassFile) (opcode : ℕ) : ClassFileResult CallInfo := do
  match opcode with
  | 0xb6 => return decodeReceiverCall .virtual (← resolveMethodTarget cf (← readU16Be code (pc + 1)))
  | 0xb7 => return decodeReceiverCall .special (← resolveMethodTarget cf (← readU16Be code (pc + 1)))
  | 0xb8 => return decodeStaticCall (← resolveMethodTarget cf (← readU16Be code (pc + 1)))
  | 0xb9 =>
    let idx ← readU16Be code (pc + 1)
    let count ← readU8 code (pc + 3)
    return decodeInterfaceCall count (resolveMethodTarget cf idx).toOption
  | 0xba =>
    let (bootstrap, name, descriptor) ← resolveInvokeDynamic cf (← readU16Be code (pc + 1))
    return decodeDynamicCall bootstrap name descriptor
  | _ => return { callKind := .static }

/-- The descriptor of the called method. -/
def CallInfo.descriptor (call : CallInfo) : Option String :=
  match call.callKind with
  | .dynamic => call.dynamicType
  | _ => call.target.map (·.descriptor)

/-- Two hexadecimal digits at least. -/
def hexByte (n : ℕ) : String := if n < 16 then "0" ++ String.ofList (Nat.toDigits 16 n) else String.ofList (Nat.toDigits 16 n)

/-- The message of an operand below the bottom of the simulated stack. -/
def stackInputUnderflow (what : String) (context : InstructionContext) (depth stackLen consumed : ℕ) : String :=
  "stack underflow while rewriting " ++ what ++ " StackInput: class=" ++ context.className ++ " method=" ++
    context.methodName ++ context.methodDesc ++ " pc=" ++ toString context.pc ++ " opcode=0x" ++
    hexByte context.opcode ++ " mnem=" ++ context.mnemonic ++ " depth=" ++ toString depth ++ " stack_len=" ++
    toString stackLen ++ " consumed=" ++ toString consumed

/-- Replaces a depth by the stack slot at that depth. -/
def rewriteOperand (what : String) (context : InstructionContext) (stackLen consumed : ℕ) :
    Location → ClassFileResult Location
  | .stackInput depth =>
    if stackLen ≤ depth then
      .error (.invalidClassFileMessage (stackInputUnderflow what context depth stackLen consumed))
    else .ok (.stackSlot (stackLen - 1 - depth))
  | loc => .ok loc

/-- The call in a simulated block, and the height of the stack behind it. -/
def simulateCall (context : InstructionContext) (stackLen : ℕ) (call : CallInfo) : ClassFileResult (CallInfo × ℕ) := do
  let receiver ← call.receiver.mapM (rewriteOperand "receiver" context stackLen call.stackSlotsConsumed)
  let arguments ← call.arguments.mapM (rewriteOperand "call argument" context stackLen call.stackSlotsConsumed)
  if stackLen < call.stackSlotsConsumed then
    .error (.stackUnderflow context call.stackSlotsConsumed stackLen)
  else
    let remaining := stackLen - call.stackSlotsConsumed
    let returnValue := call.returnValue.map fun
      | .stackOutput => .stackSlot remaining
      | loc => loc
    return ({ call with receiver, arguments, returnValue },
      remaining + (call.descriptor.map descriptorReturnSlotCount).getD 0)

/-- The class an `invokespecial` appears in. -/
structure EnclosingClass where
  name : String
  superclass : Option String
  interfaces : List String
deriving DecidableEq, Repr

/-- Where an `invokespecial` begins method lookup. -/
def superStart (enclosing : Option EnclosingClass) (cls name : String) : Option String :=
  enclosing.bind fun enclosing =>
    if name = "<init>" ∨ enclosing.name = cls ∨ cls ∈ enclosing.interfaces then some cls else enclosing.superclass

/-- A method declared because a call names it. -/
structure Extern where
  cls : String
  simpleName : String
  descriptor : String
  javaSig : String
  params : List ParameterType
  returnArity : ℕ
deriving DecidableEq, Repr

def declareExtern (javaSig className methodName descr : String) (isInstance : Bool) : Extern where
  cls := className
  simpleName := methodName
  descriptor := descr
  javaSig := javaSig
  params := jvmDescriptorToParams descr isInstance
  returnArity := 2

/-- The name of the local a location of a call lives in. -/
def localName : Location → String
  | .stackSlot n => "stack" ++ toString n
  | .stackInput _ | .stackOutput => "Stack Local?"

def convertLocationToVarRef (loc : Location) (locals : List String) : List String × VariableRef :=
  let (locals, idx) := internLocal locals (localName loc)
  (locals, .new (.localVar idx))

def convertLocations : List Location → List String → List String × List VariableRef
  | [], locals => (locals, [])
  | loc :: rest, locals =>
    let (locals, ref) := convertLocationToVarRef loc locals
    let (locals, refs) := convertLocations rest locals
    (locals, ref :: refs)

/-- A lowered call: the method it declares, the statement, and the locals of the function. -/
structure LoweredCall where
  ext : Option Extern
  statement : Statement
  locals : List String
deriving DecidableEq, Repr

/-- The call with its arguments, returning into the result and exception temporaries. -/
def callStatement (span : ℕ) (style : CallStyle) (ext : Option Extern) (call : CallInfo) (locals : List String) :
    LoweredCall :=
  let (locals, args) := convertLocations call.arguments locals
  let (locals, retval) := internLocal locals "retval"
  let (locals, throwval) := internLocal locals "throwval"
  { ext, locals
    statement := .callAssign span style [.new (.localVar retval), .new (.localVar throwval)]
      (args.map fun arg => .path (.ofRef arg)) }

def isMethodHandleInvoke (cls name : String) : Bool :=
  cls = "Ljava/lang/invoke/MethodHandle;" && (name = "invoke" || name = "invokeExact")

/-- Lowers a call; `none` where the source unwraps a target that is missing. -/
def lowerCall (enclosing : Option EnclosingClass) (span : ℕ) (call : CallInfo) (locals : List String) :
    Option LoweredCall :=
  match call.receiver with
  | none =>
    match call.callKind with
    | .dynamic => do
      let name ← call.dynamicName
      let descr ← call.dynamicType
      let javaSig := "L?unknown;" ++ "->" ++ name ++ descr
      return callStatement span (.directCall [javaSig])
        (some (declareExtern javaSig "L?unknown;" name descr false)) call locals
    | .interface | .special | .virtual => do
      let target ← call.target
      let className := "L" ++ target.className ++ ";"
      let javaSig := className ++ "->" ++ target.methodName ++ target.descriptor
      return callStatement span (.directCall [javaSig])
        (some (declareExtern javaSig className target.methodName target.descriptor true)) call locals
    | .static => do
      let target ← call.target
      let className := "L" ++ target.className ++ ";"
      let javaSig := className ++ "->" ++ target.methodName ++ target.descriptor
      return callStatement span (.directCall [javaSig])
        (some (declareExtern javaSig className target.methodName target.descriptor false)) call locals
  | some recv =>
    match call.callKind with
    | .dynamic => do
      let target ← call.target
      let descr ← call.dynamicType
      let className := "L" ++ target.className ++ ";"
      let javaSig := className ++ "->" ++ target.methodName ++ descr
      let (locals, receiver) := convertLocationToVarRef recv locals
      return callStatement span (.javaCall receiver className target.methodName descr .unknown none)
        (some (declareExtern javaSig className target.methodName descr true)) call locals
    | kind => do
      let target ← call.target
      let className := "L" ++ target.className ++ ";"
      let (locals, receiver) := convertLocationToVarRef recv locals
      if kind = .virtual ∧ isMethodHandleInvoke className target.methodName then
        -- the handle decides the callee; the arguments are passed straight through
        return callStatement span (.funcPtrCall (.ofRef receiver) none) none call locals
      else
        let javaSig := className ++ "->" ++ target.methodName ++ target.descriptor
        let dispatch := match kind with
          | .interface => JavaDispatch.interface
          | .special => .super
          | .virtual => .virtual
          | .dynamic | .static => .unknown
        let start := match kind with
          | .special => superStart enclosing className target.methodName
          | _ => none
        return callStatement span (.javaCall receiver className target.methodName target.descriptor dispatch start)
          (some (declareExtern javaSig className target.methodName target.descriptor true)) call locals

/-- An invoke instruction from its bytes to the lowered call, at a height of the operand stack. -/
def lowerInvoke (code : List UInt8) (cf : ClassFile) (context : InstructionContext) (enclosing : Option EnclosingClass)
    (span stackLen : ℕ) (locals : List String) : Option LoweredCall := do
  let call ← (decodeCall code context.pc cf context.opcode).toOption
  let (call, _) ← (simulateCall context stackLen call).toOption
  lowerCall enclosing span call locals

end Ctadl.Jvm
