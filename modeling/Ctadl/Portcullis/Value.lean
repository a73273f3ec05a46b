import Ctadl.Facts.Basic
import Ctadl.Portcullis.Syntax
import Std.Data.String.ToNat
import Mathlib.Data.String.Basic

/-! # The values of variables

A value is a string, a number, a truth value, or one of the program's own things: a call site, a call
signature, a local variable, a global. Comparison goes by the text a value is spelled with, where it
has one. A call site is spelled by its position, which `SiteId.parse` reads back.
-/

namespace Ctadl.Portcullis

open Facts

/-- A block's, statement's or local's index. -/
abbrev U32 := Fin (2 ^ 32)

/-- Which call site a row is: the function it sits in and the statement's position there. -/
structure SiteId where
  caller : Str
  block : U32
  stmt : U32
deriving DecidableEq

namespace SiteId

/-- `caller#block:statement`. -/
def display (site : SiteId) : String :=
  site.caller ++ "#" ++ site.block.val.repr ++ ":" ++ site.stmt.val.repr

/-- A decimal 32-bit number, with an optional sign. -/
def parseU32 (text : List Char) : Option U32 :=
  let digits := if text.head? = some '+' then text.tail else text
  if digits.isEmpty || !digits.all Char.isDigit then none
  else
    let n := Nat.ofDigitChars 10 digits 0
    if fits : n < 2 ^ 32 then some ⟨n, fits⟩ else none

/-- What stands before and after the first `c`. -/
def splitOnce (c : Char) (text : List Char) : Option (List Char × List Char) :=
  if c ∈ text then some (text.takeWhile (· != c), (text.dropWhile (· != c)).tail) else none

/-- What stands before and after the last `c`. -/
def rsplitOnce (c : Char) (text : List Char) : Option (List Char × List Char) :=
  (splitOnce c text.reverse).map fun parts => (parts.2.reverse, parts.1.reverse)

/-- Reads back a displayed id. A caller the program does not mention names no row. -/
def parse (text : String) : Option SiteId := do
  let (caller, pos) ← rsplitOnce '#' text.toList
  let (block, stmt) ← splitOnce ':' pos
  return { caller := String.ofList caller, block := ← parseU32 block, stmt := ← parseU32 stmt }

theorem splitOnce_append {c : Char} {before after : List Char} (clear : c ∉ before) :
    splitOnce c (before ++ c :: after) = some (before, after) := by
  have all : ∀ d ∈ before, (d != c) = true := fun d member => by
    simpa using fun eq : d = c => clear (eq ▸ member)
  have here : (c != c) = false := by simp
  unfold splitOnce
  rw [if_pos (by simp), List.takeWhile_append_of_pos all, List.dropWhile_append_of_pos all,
    List.takeWhile_cons_of_neg (by simp), List.dropWhile_cons_of_neg (by simp)]
  simp

theorem rsplitOnce_append {c : Char} {before after : List Char} (clear : c ∉ after) :
    rsplitOnce c (before ++ c :: after) = some (before, after) := by
  unfold rsplitOnce
  rw [List.reverse_append, List.reverse_cons, List.append_assoc, List.singleton_append,
    splitOnce_append (by simpa using clear)]
  simp

theorem isDigit_of_mem_repr {n : ℕ} {c : Char} (member : c ∈ n.repr.toList) : c.isDigit := by
  rw [Nat.toList_repr] at member
  exact Nat.isDigit_of_mem_toDigits (by omega) (by omega) member

theorem notMem_repr {n : ℕ} {c : Char} (other : c.isDigit = false) : c ∉ n.repr.toList := fun member => by
  simp [isDigit_of_mem_repr member] at other

theorem parseU32_repr (n : U32) : parseU32 n.val.repr.toList = some n := by
  have plus : n.val.repr.toList.head? ≠ some '+' := fun eq =>
    notMem_repr (by decide) (List.mem_of_head? eq)
  have digits : n.val.repr.toList.all Char.isDigit := List.all_eq_true.mpr fun c => isDigit_of_mem_repr
  have nonempty : n.val.repr.toList.isEmpty = false := by
    simp [Nat.toList_repr, Nat.toDigits_ne_nil]
  have value : Nat.ofDigitChars 10 n.val.repr.toList 0 = n.val := by
    rw [Nat.toList_repr]
    exact Nat.ofDigitChars_ten_toDigits
  simp only [parseU32, if_neg plus, nonempty, digits, value, Bool.not_true, Bool.or_false, Bool.false_eq_true,
    if_false, dif_pos n.isLt]

theorem parse_display (site : SiteId) : parse site.display = some site := by
  have spelled : site.display.toList = site.caller.toList ++ '#' ::
      (site.block.val.repr.toList ++ ':' :: site.stmt.val.repr.toList) := by
    simp [display]
  have position : '#' ∉ site.block.val.repr.toList ++ ':' :: site.stmt.val.repr.toList := by
    rw [List.mem_append, List.mem_cons, not_or, not_or]
    exact ⟨notMem_repr (by decide), by decide, notMem_repr (by decide)⟩
  unfold parse
  rw [spelled, rsplitOnce_append position]
  simp only [Option.bind_eq_bind, Option.bind_some, splitOnce_append (notMem_repr (c := ':') (by decide)),
    parseU32_repr, String.ofList_toList, Option.pure_def]

theorem display_injective : Function.Injective display := fun a b same =>
  Option.some.inj (by rw [← parse_display a, same, parse_display b])

end SiteId

/-- A value a variable can take. -/
inductive Value where
  | str (s : Str)
  | int (i : Int)
  | bool (b : Bool)
  /-- A call site, and the callee of the edge that bound it. -/
  | site (id : SiteId) (callee : Str)
  | callSig (id cls name desc : Str)
  /-- A local variable: its index in its function's declarations. -/
  | local (function : Str) (index : U32)
  | global (name : Str)
deriving DecidableEq

namespace Value

def asStr : Value → Option Str
  | str s => some s
  | callSig id _ _ _ => some id
  | global name => some name
  | int _ | bool _ | site _ _ | .local _ _ => none

def asInt : Value → Option Int
  | int i => some i
  | _ => none

/-- A value as text, for a string comparison. -/
def text : Value → Option String
  | site id _ => some id.display
  | v => v.asStr

/-- What an operator asks of the order of its operands. -/
def accepts : CmpOp → Ordering → Bool
  | .eq, o => o = .eq
  | .ne, o => o ≠ .eq
  | .lt, o => o = .lt
  | .le, o => o ≠ .gt
  | .gt, o => o = .gt
  | .ge, o => o ≠ .lt
  | .in, _ => false

/-- The order of two values, where they have one. -/
def order : Value → Value → Option Ordering
  | int a, int b => some (Ord.compare a b)
  | bool a, bool b => some (Ord.compare a b)
  | a, b => match a.text, b.text with
    | some a, some b => some (Ord.compare a b)
    | _, _ => none

/-- Comparison across the value domains: strings lexicographically, numbers numerically, `false` below
`true`. A cross-domain comparison is unequal. -/
protected def compare (lhs : Value) (op : CmpOp) (rhs : Value) : Bool :=
  match order lhs rhs with
  | some o => accepts op o
  | none => op = .ne

def ofLiteral : Literal → Value
  | .str s => str s
  | .int i => int i
  | .bool b => bool b

/-- Membership in a set of literals: a site or a signature is a member when its id is. -/
def inSet (v : Value) (set : List Value) : Bool :=
  match v with
  | int _ | bool _ | str _ => v ∈ set
  | v => match v.text with
    | some s => str s ∈ set
    | none => false

/-- Which call site a value is. -/
def asSite : Value → Option SiteId
  | site id _ => some id
  | _ => none

/-- A value with a name is ordered by its name. -/
theorem order_of_asStr {v : Value} {s : Str} (name : v.asStr = some s) (w : Value) :
    order v w = w.text.map (Ord.compare s) := by
  cases v <;> first | (cases name; cases w <;> rfl) | cases name

end Value

end Ctadl.Portcullis
