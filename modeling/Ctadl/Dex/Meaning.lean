import Ctadl.Dex.DataFlow
import Ctadl.Moves.Statements

/-! # What dex instructions do with labels

The instructions by what Dalvik computes, in families: a value of two registers is a pair, and each register of a
pair carries the labels of the value. The operands of an instruction are read before its results are written, so
its effect is a list of moves at once. Sizes and indices do not flow into arrays, and `fill-array-data` writes
constants, which carry no labels. Between a call or `filled-new-array` and the move behind it, the result is in
`retval`, and the exception is in `throwval`.
-/

namespace Ctadl.Dex

open Cir Moves

/-- What an instruction does. Lists of registers are those of one value. -/
inductive Operation where
  /-- Every destination gets the labels of all sources. -/
  | copy (dest source : List ℕ)
  | moveResult (dest : List ℕ)
  | moveException (dest : ℕ)
  | constant (dest : List ℕ)
  | object (dest : ℕ) (object : Option CallObject)
  | load (dest : List ℕ) (object : ℕ) (field : PathSegment)
  | store (value : List ℕ) (object : ℕ) (field : PathSegment)
  | loadStatic (dest : List ℕ) (global : Variable) (field : PathSegment)
  | storeStatic (value : List ℕ) (global : Variable) (field : PathSegment)
  | newArray (elements : List ℕ) (object : Option CallObject)
  | throw (a : ℕ)
  | other
deriving DecidableEq, Repr

/-- The registers of a value of some width. -/
def regs (r width : ℕ) : List ℕ := (List.range width).map (r + ·)

/-- The widths behind a conversion: to long, float, double; to int, float, double; to int, long, double; to int,
long, float; and to byte, char, short. -/
def convertedWidth (k : ℕ) : ℕ := [2, 1, 2, 1, 1, 2, 1, 2, 2, 1, 2, 1].getD k 1

/-- The instructions that copy, by opcode: moves, casts, tests and arithmetic. -/
def copyOperation (op a b c : ℕ) : Option Operation :=
  -- moves: of a value, a pair and an object, with three encodings each
  if 0x01 ≤ op ∧ op ≤ 0x09 then
    let width := if (op - 0x01) / 3 = 1 then 2 else 1
    some (.copy (regs a width) (regs b width))
  else if op = 0x1f then some (.copy [a] [a])
  else if op = 0x20 then some (.copy [a] [b])
  -- comparisons: of floats twice, of doubles twice, of longs
  else if 0x2d ≤ op ∧ op ≤ 0x31 then
    let width := if op < 0x2f then 1 else 2
    some (.copy [a] (regs b width ++ regs c width))
  -- `neg` and `not` of int and long, `neg` of float and double
  else if 0x7b ≤ op ∧ op ≤ 0x80 then
    let width := if op ∈ [0x7d, 0x7e, 0x80] then 2 else 1
    some (.copy (regs a width) (regs b width))
  -- conversions: three from each of int, long, float, double, and three more from int
  else if 0x81 ≤ op ∧ op ≤ 0x8f then
    let width := if (op - 0x81) / 3 = 1 ∨ (op - 0x81) / 3 = 3 then 2 else 1
    some (.copy (regs a (convertedWidth (op - 0x81))) (regs b width))
  -- binary operations: eleven of ints, eleven of longs with three shifts at the end, five of floats, five of doubles;
  -- the same again from 0xb0 on, where the first operand is the result
  else if 0x90 ≤ op ∧ op ≤ 0xcf then
    let k := (op - 0x90) % 32
    let width := if 11 ≤ k ∧ k < 22 ∨ 27 ≤ k then 2 else 1
    let second := if 19 ≤ k ∧ k < 22 then 1 else width
    some (if op < 0xb0 then .copy (regs a width) (regs b width ++ regs c second)
      else .copy (regs a width) (regs a width ++ regs b second))
  -- operations with a literal
  else if 0xd0 ≤ op ∧ op ≤ 0xe2 then some (.copy [a] [b])
  else none

/-- Seven accesses in a row: of a value, a pair, an object, and four short values. -/
def accessWidth (k : ℕ) : ℕ := if k = 1 then 2 else 1

namespace MethodContext

variable (method : MethodContext)

/-- The object of a constant or an allocation, where its class can be read. -/
def objectOf : Exp → Option CallObject
  | .objectRef object => some object
  | _ => none

/-- What the instruction at `pc` does; nothing where it names a field that cannot be read. -/
def operation (pc : ℕ) (inst : Operands) : Option Operation :=
  let ⟨op, a, b, c, idx, _, args, _, _⟩ := inst
  match copyOperation op a b c with
  | some copy => some copy
  | none =>
    if 0x0a ≤ op ∧ op ≤ 0x0c then some (.moveResult (regs a (accessWidth (op - 0x0a))))
    else if op = 0x0d then some (.moveException a)
    else if 0x12 ≤ op ∧ op ≤ 0x15 then some (.constant [a])
    else if 0x16 ≤ op ∧ op ≤ 0x19 then some (.constant (regs a 2))
    else if 0x1a ≤ op ∧ op ≤ 0x1c then some (.constant [a])
    else if op = 0x21 then some (.load [a] b (.field "length"))
    else if op = 0x22 then
      some (.object a ((method.retag pc).orElse (fun _ => method.parser.typeDescriptor idx) |>.map .javaObject))
    else if op = 0x23 then some (.object a ((method.parser.typeDescriptor idx).map .javaObject))
    else if op = 0x24 ∨ op = 0x25 then some (.newArray args ((method.parser.typeDescriptor idx).map .javaObject))
    else if op = 0x27 then some (.throw a)
    else if 0x44 ≤ op ∧ op ≤ 0x4a then some (.load (regs a (accessWidth (op - 0x44))) b (.field "[]"))
    else if 0x4b ≤ op ∧ op ≤ 0x51 then some (.store (regs a (accessWidth (op - 0x4b))) b (.field "[]"))
    else if 0x52 ≤ op ∧ op ≤ 0x58 then
      (method.parser.fieldName idx).map fun name =>
        .load (regs a (accessWidth (op - 0x52))) b (.field ("<" ++ name ++ ">"))
    else if 0x59 ≤ op ∧ op ≤ 0x5f then
      (method.parser.fieldName idx).map fun name =>
        .store (regs a (accessWidth (op - 0x59))) b (.field ("<" ++ name ++ ">"))
    else if 0x60 ≤ op ∧ op ≤ 0x66 then
      ((method.parser.fieldName idx).bind (staticField method.globals)).map fun (global, field) =>
        .loadStatic (regs a (accessWidth (op - 0x60))) global field
    else if 0x67 ≤ op ∧ op ≤ 0x6d then
      ((method.parser.fieldName idx).bind (staticField method.globals)).map fun (global, field) =>
        .storeStatic (regs a (accessWidth (op - 0x67))) global field
    else if op = 0xfe then
      some (.object a (objectOf ((method.methodHandleExp idx).getD (javaObject "Ljava/lang/invoke/MethodHandle;"))))
    else if op = 0xff then some (.object a (some (.javaObject "Ljava/lang/invoke/MethodType;")))
    else some .other

/-- The effect of an operation. -/
def effect : Operation → List IrMove
  | .copy dest source => dest.map fun d => ⟨.var (method.reg d), source.map fun r => .var (method.reg r)⟩
  | .moveResult dest => dest.map fun d => ⟨.var (method.reg d), [.var method.ret]⟩
  | .moveException dest => [⟨.var (method.reg dest), [.var method.except]⟩]
  | .constant dest => dest.map fun d => ⟨.var (method.reg d), []⟩
  | .object dest object => [⟨.var (method.reg dest), object.toList.map .object⟩]
  | .load dest object field => dest.map fun d => ⟨.var (method.reg d), [.field (method.reg object) field]⟩
  | .store value object field => [⟨.field (method.reg object) field, value.map fun r => .var (method.reg r)⟩]
  | .loadStatic dest global field => dest.map fun d => ⟨.var (method.reg d), [.field global field]⟩
  | .storeStatic value global field => [⟨.field global field, value.map fun r => .var (method.reg r)⟩]
  | .newArray elements object =>
    ⟨.var method.ret, object.toList.map .object⟩ ::
      object.toList.map fun o => ⟨.objectField o (.field "[]"), elements.map fun r => .var (method.reg r)⟩
  | .throw a => [⟨.var method.except, [.var (method.reg a)]⟩]
  | .other => []

/-- The temporaries of the lowering. -/
def temps : Set Variable := Set.range method.temp

/-! ## Registers and names -/

variable {method}

theorem localVar_inj {a b : LocalName} (same : method.locals.localVar a.text = method.locals.localVar b.text) :
    a = b :=
  LocalName.text_injective (method.locals.index_injective (Variable.localVar.inj same))

theorem reg_eq_param_or_local (r : ℕ) :
    (method.code.isParamReg r = true ∧ method.reg r = .paramVar (r - method.code.firstParamReg)) ∨
      (method.code.isParamReg r = false ∧ method.reg r = method.locals.localVar (LocalName.v r).text) := by
  cases param : method.code.isParamReg r with
  | true => exact .inl ⟨rfl, by simp only [reg, regToVar, Registers.regToP, param, ↓reduceIte]⟩
  | false => exact .inr ⟨rfl, by simp only [reg, regToVar, Registers.regToP, param, Bool.false_eq_true, ↓reduceIte]⟩

theorem reg_injective : Function.Injective method.reg := by
  intro r q same
  rcases @reg_eq_param_or_local method r with ⟨param, shape⟩ | ⟨-, shape⟩ <;>
    rcases @reg_eq_param_or_local method q with ⟨param', shape'⟩ | ⟨-, shape'⟩ <;>
    rw [shape, shape'] at same
  · have offsets := Variable.paramVar.inj same
    simp only [Registers.isParamReg, Bool.and_eq_true, decide_eq_true_eq] at param param'
    omega
  · cases same
  · cases same
  · exact LocalName.v.inj (localVar_inj same)

/-- A register is none of the other locals. -/
theorem reg_ne_local {r : ℕ} {name : LocalName} (other : ∀ n, name ≠ .v n) :
    method.reg r ≠ method.locals.localVar name.text := by
  intro same
  rcases @reg_eq_param_or_local method r with ⟨-, shape⟩ | ⟨-, shape⟩ <;> rw [shape] at same
  · cases same
  · exact other r (localVar_inj same).symm

theorem reg_notMem_temps (r : ℕ) : method.reg r ∉ method.temps := by
  rintro ⟨count, same⟩
  exact reg_ne_local (by simp) same.symm

theorem global_notMem_temps (name : String) : method.globals.globalVar name ∉ method.temps := by
  rintro ⟨count, same⟩
  cases same

theorem ret_notMem_temps : method.ret ∉ method.temps := by
  rintro ⟨count, same⟩
  cases localVar_inj same

end MethodContext

end Ctadl.Dex
