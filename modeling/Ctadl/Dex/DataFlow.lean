import Ctadl.Cir.Names

/-! # Lowering the data flow of a dex instruction

`dataFlow` lists the registers an instruction reads and writes; `dataflowToAssign` turns it into assignments.
Constants and new objects, lengths, field and element accesses and throws have an arm each; every other instruction
assigns all its sources to each destination, and the moves behind a call read its result. The results of a call
wait in the context, which outlives the method.
-/

namespace Ctadl.Dex

open Cir

/-- An instruction other than an invoke, by its opcode, with the operands its format has. `lit` is the decoded
literal, sign-extended. -/
structure Operands where
  opcode : ℕ
  a : ℕ := 0
  b : ℕ := 0
  c : ℕ := 0
  idx : ℕ := 0
  lit : Int64 := 0
  args : List ℕ := []
  byte : opcode < 256 := by decide
  notInvoke : ¬ (0x6e ≤ opcode ∧ opcode ≤ 0x72 ∨ 0x74 ≤ opcode ∧ opcode ≤ 0x78 ∨ 0xfa ≤ opcode ∧ opcode ≤ 0xfd) := by
    decide

structure DataFlow where
  source : List ℕ
  dest : List ℕ
deriving DecidableEq, Repr

/-- The registers an instruction reads and writes. -/
def Operands.dataFlow (inst : Operands) : DataFlow :=
  let ⟨op, a, b, c, _, _, args, _, _⟩ := inst
  -- `Move*` and `MoveObject*`
  if op ∈ [0x01, 0x02, 0x03, 0x07, 0x08, 0x09] then ⟨[b], [a]⟩
  -- `MoveWide*`
  else if op ∈ [0x04, 0x05, 0x06] then ⟨[b, b + 1], [a, a + 1]⟩
  -- `MoveResult`, `MoveResultObject`, `MoveException`
  else if op ∈ [0x0a, 0x0c, 0x0d] then ⟨[], [a]⟩
  else if op = 0x0b then ⟨[], [a, a + 1]⟩
  -- `Return`, `ReturnObject`, `MonitorEnter`, `MonitorExit`, `Throw`
  else if op ∈ [0x0f, 0x11, 0x1d, 0x1e, 0x27] then ⟨[a], []⟩
  else if op = 0x10 then ⟨[a, a + 1], []⟩
  -- `Const4` to `ConstHigh16`
  else if op ∈ [0x12, 0x13, 0x14, 0x15] then ⟨[], [a]⟩
  -- `ConstWide16` to `ConstWideHigh16`
  else if op ∈ [0x16, 0x17, 0x18, 0x19] then ⟨[], [a, a + 1]⟩
  -- `ConstString`, `ConstStringJumbo`, `ConstClass`, `NewInstance`
  else if op ∈ [0x1a, 0x1b, 0x1c, 0x22] then ⟨[], [a]⟩
  -- `CheckCast`
  else if op = 0x1f then ⟨[a], [a]⟩
  -- `SGet*`, `SPut*`
  else if op = 0x61 then ⟨[], [a, a + 1]⟩
  else if 0x60 ≤ op ∧ op ≤ 0x66 then ⟨[], [a]⟩
  else if op = 0x68 then ⟨[a, a + 1], []⟩
  else if 0x67 ≤ op ∧ op ≤ 0x6d then ⟨[a], []⟩
  -- `InstanceOf`, `NewArray`
  else if op ∈ [0x20, 0x23] then ⟨[b], [a]⟩
  -- `IGet*`, `IPut*`
  else if op = 0x53 then ⟨[b], [a, a + 1]⟩
  else if 0x52 ≤ op ∧ op ≤ 0x58 then ⟨[b], [a]⟩
  else if op = 0x5a then ⟨[a, a + 1, b], []⟩
  else if 0x59 ≤ op ∧ op ≤ 0x5f then ⟨[a, b], []⟩
  -- `FilledNewArray`, `FilledNewArrayRange`
  else if op ∈ [0x24, 0x25] then ⟨args, []⟩
  -- `ConstMethodHandle`, `ConstMethodType`
  else if op ∈ [0xfe, 0xff] then ⟨[], [a]⟩
  -- `FillArrayData`, `PackedSwitch`, `SparseSwitch`
  else if op ∈ [0x26, 0x2b, 0x2c] then ⟨[a], []⟩
  -- `IfEq` to `IfLe`, `IfEqz` to `IfLez`
  else if 0x32 ≤ op ∧ op ≤ 0x37 then ⟨[a, b], []⟩
  else if 0x38 ≤ op ∧ op ≤ 0x3d then ⟨[a], []⟩
  -- `ArrayLength`, `NegInt`, `NotInt`, `IntToByte`, `IntToChar`, `IntToShort`, `NegFloat`, `IntToFloat`, `FloatToInt`
  else if op ∈ [0x21, 0x7b, 0x7c, 0x8d, 0x8e, 0x8f, 0x7f, 0x82, 0x87] then ⟨[b], [a]⟩
  -- `IntToLong`, `IntToDouble`, `FloatToLong`, `FloatToDouble`
  else if op ∈ [0x81, 0x83, 0x88, 0x89] then ⟨[b], [a, a + 1]⟩
  -- `LongToInt`, `LongToFloat`, `DoubleToInt`, `DoubleToFloat`
  else if op ∈ [0x84, 0x85, 0x8a, 0x8c] then ⟨[b, b + 1], [a]⟩
  -- `NegLong`, `NotLong`, `NegDouble`, `LongToDouble`, `DoubleToLong`
  else if op ∈ [0x7d, 0x7e, 0x80, 0x86, 0x8b] then ⟨[b, b + 1], [a, a + 1]⟩
  -- `AddInt2Addr` to `UshrInt2Addr`
  else if 0xb0 ≤ op ∧ op ≤ 0xba then ⟨[a, b], [a]⟩
  -- `AddLong2Addr` to `XorLong2Addr`
  else if 0xbb ≤ op ∧ op ≤ 0xc2 then ⟨[a, a + 1, b, b + 1], [a, a + 1]⟩
  -- `ShlLong2Addr` to `UshrLong2Addr`: the shift amount is an int
  else if 0xc3 ≤ op ∧ op ≤ 0xc5 then ⟨[a, a + 1, b], [a, a + 1]⟩
  -- `AddFloat2Addr` to `RemFloat2Addr`
  else if 0xc6 ≤ op ∧ op ≤ 0xca then ⟨[a, b], [a]⟩
  -- `AddDouble2Addr` to `RemDouble2Addr`
  else if 0xcb ≤ op ∧ op ≤ 0xcf then ⟨[a, a + 1, b, b + 1], [a, a + 1]⟩
  -- `AddIntLit16` to `UshrIntLit8`
  else if 0xd0 ≤ op ∧ op ≤ 0xe2 then ⟨[b], [a]⟩
  -- `AGet*`, `APut*`
  else if op = 0x45 then ⟨[b, c], [a, a + 1]⟩
  else if 0x44 ≤ op ∧ op ≤ 0x4a then ⟨[b, c], [a]⟩
  else if op = 0x4c then ⟨[a, a + 1, b, c], []⟩
  else if 0x4b ≤ op ∧ op ≤ 0x51 then ⟨[a, b, c], []⟩
  -- `CmplFloat`, `CmpgFloat`, `CmplDouble`, `CmpgDouble`, `CmpLong`
  else if op ∈ [0x2d, 0x2e] then ⟨[b, c], [a]⟩
  else if op ∈ [0x2f, 0x30, 0x31] then ⟨[b, b + 1, c, c + 1], [a]⟩
  -- `AddInt` to `UshrInt`
  else if 0x90 ≤ op ∧ op ≤ 0x9a then ⟨[b, c], [a]⟩
  -- `AddLong` to `XorLong`
  else if 0x9b ≤ op ∧ op ≤ 0xa2 then ⟨[b, b + 1, c, c + 1], [a, a + 1]⟩
  -- `ShlLong` to `UshrLong`: the shift amount is an int
  else if 0xa3 ≤ op ∧ op ≤ 0xa5 then ⟨[b, b + 1, c], [a, a + 1]⟩
  -- `AddFloat` to `RemFloat`
  else if 0xa6 ≤ op ∧ op ≤ 0xaa then ⟨[b, c], [a]⟩
  -- `AddDouble` to `RemDouble`
  else if 0xab ≤ op ∧ op ≤ 0xaf then ⟨[b, b + 1, c, c + 1], [a, a + 1]⟩
  else ⟨[], []⟩

/-! ## The context -/

/-- The registers of a method: the last `insSize` are its parameters. -/
structure Registers where
  registersSize : ℕ
  insSize : ℕ
deriving DecidableEq, Repr

namespace Registers

variable (code : Registers)

def firstParamReg : ℕ := code.registersSize - code.insSize

def isParamReg (reg : ℕ) : Bool := code.firstParamReg ≤ reg && reg < code.registersSize

/-- The parameter in a register. -/
def regToP (reg : ℕ) : Option ℕ := if code.isParamReg reg then some (reg - code.firstParamReg) else none

end Registers

def regToVar (code : Registers) (locals : NameTable) (reg : ℕ) : Variable :=
  match code.regToP reg with
  | some p => .paramVar p
  | none => locals.localVar (LocalName.v reg).text

structure MethodHandle where
  methodHandleType : ℕ
  fieldOrMethodId : ℕ
deriving DecidableEq, Repr

/-- What the lowering looks up in a dex file, by index. -/
structure DexParser where
  string : ℕ → Option String
  typeDescriptor : ℕ → Option String
  /-- `Lcls;->name:type`. -/
  fieldName : ℕ → Option String
  methodHandle : ℕ → Option MethodHandle
  methodSignature : ℕ → Option String

/-- What the frontend keeps from one instruction to the next. -/
structure Context where
  counter : ℕ
  callResult : Option Variable
  catchResult : Option Variable
deriving DecidableEq, Repr

/-- What stays the same in a method: its file, registers and names, and the classes split off for its allocations. -/
structure MethodContext where
  parser : DexParser
  code : Registers
  locals : NameTable
  globals : NameTable
  retag : ℕ → Option String

/-- The first occurrence of `sep` splits a text. -/
def splitOnce (sep : List Char) : List Char → Option (List Char × List Char)
  | [] => if sep = [] then some ([], []) else none
  | c :: text =>
    if sep.isPrefixOf (c :: text) then some ([], (c :: text).drop sep.length)
    else (splitOnce sep text).map fun (before, behind) => (c :: before, behind)

/-- A text up to its last `sep`, or all of it. -/
def beforeLast (sep : Char) (text : List Char) : List Char :=
  if sep ∈ text then ((text.reverse.dropWhile (· ≠ sep)).drop 1).reverse else text

/-- The class global and the field a pretty name of a static field stands for. -/
def staticField (globals : NameTable) (pretty : String) : Option (Variable × PathSegment) := do
  let (cls, rest) ← splitOnce ['-', '>'] pretty.toList
  return (globals.globalVar (String.ofList cls), .field (String.ofList (beforeLast ':' rest)))

namespace MethodContext

variable (method : MethodContext)

def reg (reg : ℕ) : Variable := regToVar method.code method.locals reg

def ret : Variable := method.locals.localVar LocalName.retval.text

def except : Variable := method.locals.localVar LocalName.throwval.text

def temp (count : ℕ) : Variable := method.locals.localVar (LocalName.t count).text

def javaObject (descriptor : String) : Exp := .objectRef (.javaObject descriptor)

def allocationExp (idx : ℕ) : Option Exp := (method.parser.typeDescriptor idx).map javaObject

/-- A method handle that invokes a known method: `invoke-static`, `invoke-instance`, `invoke-direct` and
`invoke-interface` handles. -/
def methodHandleExp (idx : ℕ) : Option Exp := do
  let handle ← method.parser.methodHandle idx
  if handle.methodHandleType ∈ [0x04, 0x05, 0x07, 0x08] then
    let name ← method.parser.methodSignature handle.fieldOrMethodId
    return .objectRef (.functionPtr name)
  else none

/-- The constant or new object of an instruction at `pc`. -/
def constExp (pc : ℕ) (inst : Operands) : Option Exp :=
  if inst.opcode ∈ [0x12, 0x13, 0x14, 0x16, 0x17, 0x18] then some (.int inst.lit)
  else if inst.opcode = 0x15 then some (.int (inst.lit.toInt32 <<< 16).toInt64)
  else if inst.opcode = 0x19 then some (.int (inst.lit <<< 48))
  else if inst.opcode ∈ [0x1a, 0x1b] then (method.parser.string inst.idx).map .str
  else if inst.opcode = 0x1c then (method.parser.typeDescriptor inst.idx).map .str
  else if inst.opcode = 0x22 then
    match method.retag pc with
    | some split => some (javaObject split)
    | none => method.allocationExp inst.idx
  else if inst.opcode = 0x23 then method.allocationExp inst.idx
  else if inst.opcode = 0xfe then
    some ((method.methodHandleExp inst.idx).getD (javaObject "Ljava/lang/invoke/MethodHandle;"))
  else if inst.opcode = 0xff then some (javaObject "Ljava/lang/invoke/MethodType;")
  else none

end MethodContext

/-! ## Statements -/

/-- Whether an instruction computes its result from the values of its operands. -/
def isValueOnly (opcode : ℕ) : Bool :=
  opcode = 0x20 || 0x2d ≤ opcode && opcode ≤ 0x31 || 0x7b ≤ opcode && opcode ≤ 0x80 ||
    0x90 ≤ opcode && opcode ≤ 0xe2

def storedValueRegs (a : ℕ) (wide : Bool) : List ℕ := if wide then [a, a + 1] else [a]

def isMoveResult (opcode : ℕ) : Bool := 0x0a ≤ opcode && opcode ≤ 0x0c

namespace MethodContext

variable (method : MethodContext)

/-- The destinations of a move that takes a result of the last call. -/
def takeResult (dest : List ℕ) (result : Variable) : List Statement :=
  dest.map fun d => assign (method.reg d) [pathOf result]

/-- The instructions without an arm of their own. They leave no result of a call behind. -/
def defaultAssign (ctx : Context) (inst : Operands) : List Statement × Context :=
  let ⟨source, dest⟩ := inst.dataFlow
  let operand := if isValueOnly inst.opcode then valueOf else pathOf
  let stmts :=
    if source ≠ [] then dest.map fun d => assign (method.reg d) (source.map fun s => operand (method.reg s)) else []
  let results := if isMoveResult inst.opcode then method.takeResult dest (ctx.callResult.getD method.ret) else []
  let exceptions := if inst.opcode = 0x0d then method.takeResult dest (ctx.catchResult.getD method.except) else []
  (stmts ++ results ++ exceptions, { ctx with callResult := none, catchResult := none })

/-- A store whose value goes through a temporary. -/
def storeThrough (ctx : Context) (value : List ℕ) (dest : Variable) (segment : PathSegment) :
    List Statement × Context :=
  let temp := method.temp ctx.counter
  ([assign temp (value.map fun r => pathOf (method.reg r)), store dest segment (pathOf temp)],
    { ctx with counter := ctx.counter + 1 })

/-- The assignments of an instruction at `pc`; nothing where a field cannot be read. -/
def dataflowToAssign (ctx : Context) (pc : ℕ) (inst : Operands) : Option (List Statement × Context) :=
  let ⟨source, dest⟩ := inst.dataFlow
  match method.constExp pc inst with
  | some const => some (dest.map fun d => assign (method.reg d) [const], ctx)
  | none =>
    -- `ArrayLength`
    if inst.opcode = 0x21 then some ([load (method.reg inst.a) (method.reg inst.b) (.field "length")], ctx)
    -- `SPut*`
    else if 0x67 ≤ inst.opcode ∧ inst.opcode ≤ 0x6d then do
      let pretty ← method.parser.fieldName inst.idx
      let (global, field) ← staticField method.globals pretty
      return method.storeThrough ctx source global field
    -- `SGet*`
    else if 0x60 ≤ inst.opcode ∧ inst.opcode ≤ 0x66 then do
      let pretty ← method.parser.fieldName inst.idx
      let (global, field) ← staticField method.globals pretty
      return (dest.map fun d => load (method.reg d) global field, ctx)
    -- `IPut*`
    else if 0x59 ≤ inst.opcode ∧ inst.opcode ≤ 0x5f then do
      let pretty ← method.parser.fieldName inst.idx
      return method.storeThrough ctx (storedValueRegs inst.a (inst.opcode = 0x5a)) (method.reg inst.b)
        (.field ("<" ++ pretty ++ ">"))
    -- `IGet*`
    else if 0x52 ≤ inst.opcode ∧ inst.opcode ≤ 0x58 then do
      let pretty ← method.parser.fieldName inst.idx
      return (dest.map fun d => load (method.reg d) (method.reg inst.b) (.field ("<" ++ pretty ++ ">")), ctx)
    -- `AGet*`
    else if 0x44 ≤ inst.opcode ∧ inst.opcode ≤ 0x4a then
      some (dest.map fun d => load (method.reg d) (method.reg inst.b) (.field "[]"), ctx)
    -- `APut*`
    else if 0x4b ≤ inst.opcode ∧ inst.opcode ≤ 0x51 then
      some (method.storeThrough ctx (storedValueRegs inst.a (inst.opcode = 0x4c)) (method.reg inst.b) (.field "[]"))
    -- `Throw`
    else if inst.opcode = 0x27 then some ([assign method.except [pathOf (method.reg inst.a)]], ctx)
    else some (method.defaultAssign ctx inst)

end MethodContext

end Ctadl.Dex
