import Ctadl.Jvm.Statements
import Ctadl.Moves.Statements

/-! # What JVM instructions do with labels

The instructions by what the virtual machine computes, in families that are ordered by type: int, long, float,
double, reference. A long or double is two slots of the operand stack, and each carries the labels of the value.
An instruction reads its operands before it pushes results, so its effect is a list of moves at once. Sizes and
indices do not flow into arrays. A local variable of two slots is known by its first one.
-/

namespace Ctadl.Jvm

open Cir Moves

/-- What an instruction does. -/
inductive Operation where
  /-- Pushes a value without labels. -/
  | constant (width : ℕ)
  /-- Pushes a constant of the pool. -/
  | literal (width : ℕ) (value : ConstantValue)
  | load (width slot : ℕ)
  | store (width slot : ℕ)
  /-- An element of an array of some type: int, long, float, double, reference, byte, char, short. -/
  | arrayLoad (type : ℕ)
  | arrayStore (type : ℕ)
  /-- Pops as many values as it reads, and pushes the values at these depths. -/
  | shuffle (pops : ℕ) (depths : List ℕ)
  /-- Pops operands and pushes what it computes from them. -/
  | compute (pops width : ℕ)
  | increment (slot : ℕ)
  | getStatic (field : FieldRef)
  | putStatic (field : FieldRef)
  | getField (field : FieldRef)
  | putField (field : FieldRef)
  | newObject (cls : String)
  | newArray (descriptor : String)
  | newMultiArray (dimensions : ℕ) (descriptor : String)
  | throw
  | other
deriving DecidableEq, Repr

/-- The slots of a value, by its type: int, long, float, double, and the others. -/
def typeWidth (type : ℕ) : ℕ := if type = 1 ∨ type = 3 then 2 else 1

/-- The widths behind a conversion: to long, float, double; to int, float, double; to int, long, double; to int,
long, float; and to byte, char, short. -/
def convertedWidth (k : ℕ) : ℕ := [2, 1, 2, 1, 1, 2, 1, 2, 2, 1, 2, 1].getD k 1

/-- The instructions whose operands and results are known from the opcode. -/
def plainOperation (op : ℕ) : Option Operation :=
  -- `null`, seven ints, two longs, three floats, two doubles
  if 0x01 ≤ op ∧ op ≤ 0x0f then some (.constant (if op ∈ [0x09, 0x0a, 0x0e, 0x0f] then 2 else 1))
  -- four loads and stores of each type, from the slots 0 to 3
  else if 0x1a ≤ op ∧ op ≤ 0x2d then some (.load (typeWidth ((op - 0x1a) / 4)) ((op - 0x1a) % 4))
  else if 0x2e ≤ op ∧ op ≤ 0x35 then some (.arrayLoad (op - 0x2e))
  else if 0x3b ≤ op ∧ op ≤ 0x4e then some (.store (typeWidth ((op - 0x3b) / 4)) ((op - 0x3b) % 4))
  else if 0x4f ≤ op ∧ op ≤ 0x56 then some (.arrayStore (op - 0x4f))
  -- one or two values on top are pushed again, below none, one or two values
  else if 0x59 ≤ op ∧ op ≤ 0x5e then
    let top := (op - 0x59) / 3 + 1
    let below := (op - 0x59) % 3
    some (.shuffle (top + below) ((List.range top).reverse ++ (List.range (top + below)).reverse))
  else if op = 0x5f then some (.shuffle 2 [0, 1])
  -- five operations of each type
  else if 0x60 ≤ op ∧ op ≤ 0x73 then
    let width := typeWidth ((op - 0x60) % 4)
    some (.compute (width + width) width)
  else if 0x74 ≤ op ∧ op ≤ 0x77 then some (.compute (typeWidth (op - 0x74)) (typeWidth (op - 0x74)))
  -- shifts by an int, and `and`, `or`, `xor`, of ints and longs in turn
  else if 0x78 ≤ op ∧ op ≤ 0x7d then
    let width := typeWidth ((op - 0x78) % 2)
    some (.compute (width + 1) width)
  else if 0x7e ≤ op ∧ op ≤ 0x83 then
    let width := typeWidth ((op - 0x7e) % 2)
    some (.compute (width + width) width)
  -- conversions: three from each of int, long, float, double, and three more from int
  else if 0x85 ≤ op ∧ op ≤ 0x93 then
    some (.compute (typeWidth ((op - 0x85) / 3)) (convertedWidth (op - 0x85)))
  -- comparisons of longs, of floats twice, of doubles twice
  else if 0x94 ≤ op ∧ op ≤ 0x98 then
    let width := if op = 0x95 ∨ op = 0x96 then 1 else 2
    some (.compute (width + width) 1)
  -- `arraylength`, `checkcast` and `instanceof`
  else if op = 0xbe ∨ op = 0xc0 ∨ op = 0xc1 then some (.compute 1 1)
  else if op = 0xbf then some .throw
  else none

section Operation

variable (code : List UInt8) (pc : ℕ) (cf : ResolvedPool)

/-- The instructions behind a `wide` prefix: loads, stores, `iinc` and `ret`. -/
def wideOperation (op : ℕ) : Option Operation :=
  let slot := (readU16Be code (pc + 2)).toOption
  if 0x15 ≤ op ∧ op ≤ 0x19 then slot.map (.load (typeWidth (op - 0x15)))
  else if 0x36 ≤ op ∧ op ≤ 0x3a then slot.map (.store (typeWidth (op - 0x36)))
  else if op = 0x84 then slot.map .increment
  else if op = 0xa9 then some .other
  else none

/-- The instructions without a prefix, where their operands can be read. -/
def narrowOperation (op : ℕ) : Option Operation :=
  let index := (readU16Be code (pc + 1)).toOption
  let small := (readU8 code (pc + 1)).toOption
  let field := index.bind fun idx => (cf.fieldRef idx).toOption
  let cls := index.bind fun idx => (cf.className idx).toOption
  if op = 0x10 ∨ op = 0x11 then some (.constant 1)
  else if op = 0x12 then small.bind fun idx => (cf.constant idx).toOption.map (.literal 1)
  else if op = 0x13 ∨ op = 0x14 then
    index.bind fun idx => (cf.constant idx).toOption.map (.literal (if op = 0x13 then 1 else 2))
  else if 0x15 ≤ op ∧ op ≤ 0x19 then small.map (.load (typeWidth (op - 0x15)))
  else if 0x36 ≤ op ∧ op ≤ 0x3a then small.map (.store (typeWidth (op - 0x36)))
  else if op = 0x84 then small.map .increment
  else if op = 0xb2 then field.map .getStatic
  else if op = 0xb3 then field.map .putStatic
  else if op = 0xb4 then field.map .getField
  else if op = 0xb5 then field.map .putField
  else if op = 0xbb then cls.map .newObject
  else if op = 0xbc then small.map fun atype => .newArray (primitiveArrayDescriptor atype)
  else if op = 0xbd then
    cls.map fun name => .newArray ("[" ++ if name.toList.head? = some '[' then name else "L" ++ name ++ ";")
  else if op = 0xc5 then
    cls.bind fun name => (readU8 code (pc + 3)).toOption.map fun dimensions => .newMultiArray dimensions name
  else some ((plainOperation op).getD .other)

/-- What the instruction at `pc` does. -/
def operation : Option Operation :=
  code[pc]?.bind fun byte =>
    if byte.toNat = 0xc4 then code[pc + 1]?.bind fun subop => wideOperation code pc subop.toNat
    else narrowOperation code pc cf byte.toNat

end Operation

namespace FrontendNames

variable (names : FrontendNames) (params : ParameterSlotMap) (stackLen : ℕ)

def slot (n : ℕ) : Variable := names.localVar (.stack n)

def localAt (n : ℕ) : Variable := names.convertLocationToVarRef (localSlotToLocation n params)

/-- The operand at a depth. -/
def operandAt (depth : ℕ) : Source Variable PathSegment CallObject := .var (names.slot (stackLen - 1 - depth))

def operands (count : ℕ) : List (Source Variable PathSegment CallObject) :=
  (List.range count).map (names.operandAt stackLen)

/-- Pops operands and pushes a value of some width. -/
def pushes (pops width : ℕ) (sources : List (Source Variable PathSegment CallObject)) : List IrMove :=
  (List.range width).map fun i => ⟨.var (names.slot (stackLen - pops + i)), sources⟩

/-- The object a constant of the pool is. -/
def literalObject : ConstantValue → Option CallObject
  | .methodHandle referenceKind className name descriptor =>
    if referenceKind ∈ [5, 6, 7, 9] then
      some (.functionPtr ("L" ++ className ++ ";" ++ "->" ++ name ++ descriptor))
    else some (.javaObject "Ljava/lang/invoke/MethodHandle;")
  | .methodType _ => some (.javaObject "Ljava/lang/invoke/MethodType;")
  | .dynamic _ descriptor =>
    if descriptor.toList.head? = some 'L' ∨ descriptor.toList.head? = some '[' then some (.javaObject descriptor)
    else none
  | .integer _ | .long _ | .float _ | .double _ | .string _ | .classRef _ | .null => none

/-- The descriptor of a class named in internal form, or by its descriptor. -/
def classDescriptor (name : String) : String :=
  if name.toList.head? = some 'L' ∨ name.toList.head? = some '[' then name else "L" ++ name ++ ";"

/-- The effect of an operation on a stack of some height. -/
def effect : Operation → List IrMove
  | .constant width => names.pushes stackLen 0 width []
  | .literal width value => names.pushes stackLen 0 width ((literalObject value).toList.map .object)
  | .load width slot => names.pushes stackLen 0 width [.var (names.localAt params slot)]
  | .store width slot => [⟨.var (names.localAt params slot), names.operands stackLen width⟩]
  | .arrayLoad type =>
    names.pushes stackLen 2 (typeWidth type) [.field (names.slot (stackLen - 2)) (.field "[]")]
  | .arrayStore type =>
    [⟨.field (names.slot (stackLen - typeWidth type - 2)) (.field "[]"), names.operands stackLen (typeWidth type)⟩]
  | .shuffle pops depths =>
    depths.zipIdx.map fun (depth, i) => ⟨.var (names.slot (stackLen - pops + i)), [names.operandAt stackLen depth]⟩
  | .compute pops width => names.pushes stackLen pops width (names.operands stackLen pops)
  | .increment slot => [⟨.var (names.localAt params slot), [.var (names.localAt params slot)]⟩]
  | .getStatic f => names.pushes stackLen 0 (fieldSlotWidth f.descriptor) [.field (names.staticField f).1 (names.staticField f).2]
  | .putStatic f =>
    [⟨.field (names.staticField f).1 (names.staticField f).2, names.operands stackLen (fieldSlotWidth f.descriptor)⟩]
  | .getField f =>
    names.pushes stackLen 1 (fieldSlotWidth f.descriptor) [.field (names.slot (stackLen - 1)) (jvmFieldSymbol f)]
  | .putField f =>
    [⟨.field (names.slot (stackLen - fieldSlotWidth f.descriptor - 1)) (jvmFieldSymbol f),
      names.operands stackLen (fieldSlotWidth f.descriptor)⟩]
  | .newObject cls => names.pushes stackLen 0 1 [.object (.javaObject (classDescriptor cls))]
  | .newArray descriptor => names.pushes stackLen 1 1 [.object (.javaObject (classDescriptor descriptor))]
  | .newMultiArray dimensions descriptor =>
    names.pushes stackLen dimensions 1 [.object (.javaObject (classDescriptor descriptor))]
  | .throw => [⟨.var names.except, [names.operandAt stackLen 0]⟩]
  | .other => []

/-- The temporaries of the shuffles. -/
def temps : Set Variable := Set.range fun n => names.localVar (.shuffle n)

/-- The local that stands for values without a location. Nothing assigns it. -/
def clean : Set Variable := {names.localVar .unknownLocationType}

end FrontendNames

end Ctadl.Jvm
