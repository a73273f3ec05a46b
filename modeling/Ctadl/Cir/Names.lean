import Std.Data.String.ToNat
import Mathlib.Data.String.Defs
import Ctadl.Cir.Program

/-! # Names of locals and globals

A table interns names: a name gets an index at its first use and keeps it, so one name is one variable. The
frontends of Java write a register, a stack slot or a temporary as the local of a name; no two of these names are
the same text.
-/

namespace Ctadl.Cir

/-- The indices a table gives to names, in the end. -/
structure NameTable where
  index : String → ℕ
  index_injective : Function.Injective index

namespace NameTable

def localVar (locals : NameTable) (name : String) : Variable := .localVar (locals.index name)

def globalVar (globals : NameTable) (name : String) : Variable := .globalVar (globals.index name)

end NameTable

/-- The locals the frontends of Java ask for. -/
inductive LocalName where
  /-- A register of a dex method that is no parameter. -/
  | v (reg : ℕ)
  /-- A temporary of a dex method. -/
  | t (count : ℕ)
  /-- A local slot of a JVM method that is no parameter. -/
  | reg (slot : ℕ)
  /-- A slot of the operand stack. -/
  | stack (slot : ℕ)
  /-- The temporary of a stack slot. -/
  | shuffle (slot : ℕ)
  | retval
  | throwval
  | stackLocal
  | unknownFieldBase
  | unknownLocationType
deriving DecidableEq, Repr

namespace LocalName

def text : LocalName → String
  | v n => "v" ++ toString n
  | t count => "t" ++ toString count
  | reg slot => "reg" ++ toString slot
  | stack slot => "stack" ++ toString slot
  | shuffle slot => "shuffle" ++ toString slot
  | retval => "retval"
  | throwval => "throwval"
  | stackLocal => "Stack Local?"
  | unknownFieldBase => "unknownFieldBase"
  | unknownLocationType => "unknownLocationType"

/-- The name of a temporary goes on with digits. -/
theorem temp_ne_throwval (count : ℕ) : Nat.toDigits 10 count ≠ ['h', 'r', 'o', 'w', 'v', 'a', 'l'] := by
  intro same
  have digit := Nat.isDigit_of_mem_toDigits (b := 10) (n := count) (c := 'h') (by omega) (by omega)
    (same ▸ List.mem_cons_self)
  exact absurd digit (by decide)

theorem text_injective : Function.Injective text := by
  intro a b same
  have chars := congrArg String.toList same
  -- two kinds already differ in one of their first three letters, but for `t` and `throwval`
  cases a <;> cases b <;>
    simp [text, temp_ne_throwval, (temp_ne_throwval _).symm] at chars <;>
    simp_all [text, Nat.repr_inj]

end LocalName

/-! ## Building statements

The destination of a copy, a load or a store here never ends in an offset, so nothing about it is rewritten. -/

def pathOf (v : Variable) : Exp := .path (.ofRef (.new v))

def valueOf (v : Variable) : Exp := .value (.ofRef (.new v))

def assign (dest : Variable) (sources : List Exp) : Statement := .assign (.ofRef (.new dest)) sources

/-- The copy `dest = source.segment`. -/
def load (dest source : Variable) (segment : PathSegment) : Statement :=
  assign dest [.path ⟨.new source, [segment]⟩]

/-- The store `dest.segment = value`. -/
def store (dest : Variable) (segment : PathSegment) (value : Exp) : Statement :=
  .assign ⟨.new dest, [segment]⟩ [value]

end Ctadl.Cir
