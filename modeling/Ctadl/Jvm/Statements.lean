import Ctadl.Cir.Names
import Ctadl.Jvm.Dataflow

/-! # Lowering the data flow of a JVM instruction

Each entry of the data flow becomes one statement, by the opcode: allocations, field and array accesses and
`athrow` have an arm each, and every other opcode assigns all sources to the destination. The entries of `dup*` and
`swap` are lowered together, since their outputs land on their inputs.
-/

namespace Ctadl.Jvm

open Cir Graph

/-- The names of a method's locals, and of the classes as globals. -/
structure FrontendNames where
  locals : NameTable
  globals : NameTable

namespace FrontendNames

variable (names : FrontendNames)

def localVar (name : LocalName) : Variable := names.locals.localVar name.text

def except : Variable := names.localVar .throwval

/-- Where a location lives. Field and element accesses are lowered by their own arms. -/
def convertLocationToVarRef : FlowLocation → Variable
  | .stackSlot n => names.localVar (.stack n)
  | .stackInput _ | .stackOutput => names.localVar .stackLocal
  | .register n => names.localVar (.reg n)
  | .parameter n => .paramVar n
  | .fieldRef _ => names.localVar .unknownFieldBase
  | .arrayElement base _ => convertLocationToVarRef base
  | .constant _ | .allocation _ => names.localVar .unknownLocationType

def allocationExp (className : String) : Exp :=
  .objectRef (.javaObject
    (if className.toList.head? = some 'L' ∨ className.toList.head? = some '[' then className
      else "L" ++ className ++ ";"))

/-- A method handle that invokes a known method: `invokeStatic`, `invokeVirtual`, `invokeSpecial` and
`invokeInterface`. -/
def methodHandleExp (referenceKind : ℕ) (className name descriptor : String) : Option Exp :=
  if referenceKind ∈ [5, 6, 7, 9] then
    some (.objectRef (.functionPtr ("L" ++ className ++ ";" ++ "->" ++ name ++ descriptor)))
  else none

def convertLocationToExp : FlowLocation → Exp
  | .constant (.integer n) => .int n.toInt64
  | .constant (.long n) => .int n
  | .constant (.string s) => .str s
  | .constant (.methodHandle referenceKind className name descriptor) =>
    (methodHandleExp referenceKind className name descriptor).getD (allocationExp "java/lang/invoke/MethodHandle")
  | .constant (.methodType _) => allocationExp "java/lang/invoke/MethodType"
  | .constant (.dynamic name descriptor) =>
    if descriptor.toList.head? = some 'L' ∨ descriptor.toList.head? = some '[' then allocationExp descriptor
    else pathOf (names.convertLocationToVarRef (.constant (.dynamic name descriptor)))
  | .allocation className => allocationExp className
  | loc => pathOf (names.convertLocationToVarRef loc)

/-- The class global and the field of a static field. -/
def staticField (f : FieldRef) : Variable × PathSegment :=
  (names.globals.globalVar ("L" ++ f.className ++ ";"), .field f.fieldName)

def jvmFieldSymbol (f : FieldRef) : PathSegment :=
  .field ("<" ++ "L" ++ f.className ++ ";" ++ "->" ++ f.fieldName ++ ":" ++ f.descriptor ++ ">")

end FrontendNames

/-! ## The locations of an entry -/

def fieldRefIn (locs : List FlowLocation) : Option FieldRef :=
  locs.findSome? fun
    | .fieldRef f => some f
    | _ => none

def stackSources (locs : List FlowLocation) : List FlowLocation :=
  locs.filter fun
    | .stackSlot _ | .stackInput _ => true
    | _ => false

def arrayBase (locs : List FlowLocation) : Option FlowLocation :=
  locs.findSome? fun
    | .arrayElement base _ => some base
    | _ => none

def allocationIn (locs : List FlowLocation) : Option String :=
  locs.findSome? fun
    | .allocation cls => some cls
    | _ => none

def isArrayElement : FlowLocation → Bool
  | .arrayElement _ _ => true
  | _ => false

def stackSlotIndex : FlowLocation → Option ℕ
  | .stackSlot n => some n
  | _ => none

/-- Opcodes whose result is computed from the values of the operands: arithmetic, `iinc`, comparisons and
`instanceof`. -/
def isValueOnlyOpcode (opcode : ℕ) : Bool :=
  0x60 ≤ opcode && opcode ≤ 0x84 || 0x94 ≤ opcode && opcode ≤ 0x98 || opcode = 0xc1

namespace FrontendNames

variable (names : FrontendNames)

/-- All sources to the destination. -/
def defaultStatement (valueOnly : Bool) (data : DataflowInfo) : Statement :=
  assign (names.convertLocationToVarRef data.destination) <|
    data.sources.map fun loc =>
      match names.convertLocationToExp loc with
      | .path ap => if valueOnly then .value ap else .path ap
      | source => source

/-- The statement of one entry of the data flow; nothing where the frontend would stop. -/
def dataflowToStatements (opcode : ℕ) (data : DataflowInfo) : Option Statement :=
  -- `new`, `newarray`, `anewarray`
  if 0xbb ≤ opcode ∧ opcode ≤ 0xbd then do
    let className ← allocationIn data.sources
    return assign (names.convertLocationToVarRef data.destination) [allocationExp className]
  -- `getstatic`
  else if opcode = 0xb2 then do
    let field ← fieldRefIn data.sources
    let (global, field) := names.staticField field
    return load (names.convertLocationToVarRef data.destination) global field
  -- `putstatic`
  else if opcode = 0xb3 then
    match data.destination with
    | .fieldRef field => do
      let value ← (stackSources data.sources).head?
      let (global, field) := names.staticField field
      return store global field (pathOf (names.convertLocationToVarRef value))
    | _ => none
  -- `getfield`
  else if opcode = 0xb4 then do
    let field ← fieldRefIn data.sources
    let object ← (stackSources data.sources).head?
    return load (names.convertLocationToVarRef data.destination) (names.convertLocationToVarRef object)
      (jvmFieldSymbol field)
  -- `putfield`: the value is on top, the object below it
  else if opcode = 0xb5 then
    match data.destination with
    | .fieldRef field => do
      let value ← (stackSources data.sources).head?
      let object ← (stackSources data.sources).tail.getLast?
      return store (names.convertLocationToVarRef object) (jvmFieldSymbol field)
        (pathOf (names.convertLocationToVarRef value))
    | _ => none
  -- `athrow`
  else if opcode = 0xbf then do
    let thrown ← (stackSources data.sources).head?
    return assign names.except [pathOf (names.convertLocationToVarRef thrown)]
  -- `*aload`
  else if 0x2e ≤ opcode ∧ opcode ≤ 0x35 ∧ (arrayBase data.sources).isSome then do
    let base ← arrayBase data.sources
    return load (names.convertLocationToVarRef data.destination) (names.convertLocationToVarRef base) (.field "[]")
  -- `*astore`, up to `castore`
  else if 0x4f ≤ opcode ∧ opcode ≤ 0x55 ∧ isArrayElement data.destination then
    match data.destination with
    | .arrayElement base _ => do
      let value ← (stackSources data.sources).head?
      return store (names.convertLocationToVarRef base) (.field "[]") (pathOf (names.convertLocationToVarRef value))
    | _ => none
  else some (names.defaultStatement (isValueOnlyOpcode opcode) data)

/-- The entries of a shuffle that move something. -/
def shuffleMoves (dataflow : List DataflowInfo) : List DataflowInfo :=
  dataflow.filter fun df => df.sources ≠ [df.destination]

/-- The slots a shuffle reads that it also overwrites, each once. -/
def savedSlots (moves : List DataflowInfo) : List ℕ :=
  let overwritten := moves.filterMap fun df => stackSlotIndex df.destination
  ((moves.flatMap fun df => df.sources.filterMap stackSlotIndex).filter (· ∈ overwritten)).foldl pushNew []

/-- An operand of a shuffle, from its temporary if the slot is saved. -/
def shuffleOperand (saved : List ℕ) (loc : FlowLocation) : Exp :=
  match stackSlotIndex loc with
  | some n => if n ∈ saved then pathOf (names.localVar (.shuffle n)) else names.convertLocationToExp loc
  | none => names.convertLocationToExp loc

/-- `dup*` and `swap`: slots that are overwritten are copied to temporaries first. -/
def stackShuffleStatements (dataflow : List DataflowInfo) : List Statement :=
  let moves := shuffleMoves dataflow
  let saved := savedSlots moves
  (saved.map fun n => assign (names.localVar (.shuffle n)) [pathOf (names.convertLocationToVarRef (.stackSlot n))]) ++
    moves.map fun df =>
      assign (names.convertLocationToVarRef df.destination) (df.sources.map (names.shuffleOperand saved))

def isStackShuffleOpcode (opcode : ℕ) : Bool := 0x59 ≤ opcode && opcode ≤ 0x5f

/-- The statements of an instruction other than a call, by its data flow. -/
def instructionStatements (opcode : ℕ) (dataflow : List DataflowInfo) : Option (List Statement) :=
  if isStackShuffleOpcode opcode then some (names.stackShuffleStatements dataflow)
  else dataflow.mapM (names.dataflowToStatements opcode)

end FrontendNames

end Ctadl.Jvm
