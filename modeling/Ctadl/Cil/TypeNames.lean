import Ctadl.Collections.Trees
import Mathlib.Data.Int.Notation
import Mathlib.Order.Basic

/-! # Reflection type names

The names of types that attributes spell out. A name has nested names and an arity, which is the sum of what stands behind
the backticks; a positive arity and a bracket open a list of so many arguments, each a name of its own, wrapped in
brackets if it says which assembly it is from. Behind the arguments stand the array, pointer and reference suffixes.

The parser keeps the types whose arguments it reads on a stack, and gives up on a name with too many arguments. Whatever
would make it panic is an error here.
-/

namespace Ctadl.Cil

open Collections

/-- What would end a parse besides its answer. -/
inductive Panic
  | overflow
  | outOfRange
deriving DecidableEq, Repr

/-- A suffix of a type. -/
inductive Spec
  | ptr
  | byRef
  | szArray
  | array (rank : ℕ)
deriving DecidableEq, Repr

/-- A type without its arguments. -/
structure TypeName where
  fullname : List Char
  nestedNames : List (List Char)
  /-- The sum of the arities of the names, which may be negative and wraps. -/
  arity : Int
  specs : List Spec := []
  assembly : Option (List Char) := none
deriving DecidableEq, Repr

/-- A type name over its generic arguments. -/
abbrev ParsedType := Collections.Tree TypeName

def backtick : Char := Char.ofNat 0x60

def backslash : Char := Char.ofNat 0x5c

def isDelimiter (c : Char) : Bool := ['+', ',', '[', ']', '*', '&'].contains c

/-- The characters with the Unicode property White_Space. -/
def isWhitespace (c : Char) : Bool :=
  let n := c.toNat
  (0x9 ≤ n && n ≤ 0xd) || [0x20, 0x85, 0xa0, 0x1680, 0x2028, 0x2029, 0x202f, 0x205f, 0x3000].contains n ||
    (0x2000 ≤ n && n ≤ 0x200a)

def checkI32 (n : Int) : Except Panic Int := if -0x80000000 ≤ n ∧ n < 0x80000000 then .ok n else .error .overflow

def checkI64 (n : Int) : Except Panic Int :=
  if -0x8000000000000000 ≤ n ∧ n < 0x8000000000000000 then .ok n else .error .overflow

def checkU32 (n : ℕ) : Except Panic ℕ := if n < 0x100000000 then .ok n else .error .overflow

section Integers

/-- White space around an integer. -/
def isWhite (c : Char) : Bool := (0x9 ≤ c.toNat && c.toNat ≤ 0xd) || c = ' '

def trimEnd (p : Char → Bool) (s : List Char) : List Char := (s.reverse.dropWhile p).reverse

def trim (p : Char → Bool) (s : List Char) : List Char := trimEnd p (s.dropWhile p)

/-- The sign and the digits of an integer. -/
def splitSign : List Char → Bool × List Char
  | '-' :: digits => (true, digits)
  | '+' :: digits => (false, digits)
  | digits => (false, digits)

def digit (c : Char) : ℕ := c.toNat - '0'.toNat

/-- The value of some digits behind a value, unless it is out of range. -/
def readDigits (value : Int) : List Char → Except Panic (Option Int)
  | [] => .ok (some value)
  | c :: digits => do
    let shifted ← checkI64 (value * 10)
    let value ← checkI64 (shifted + digit c)
    if value > 0x80000000 then return none
    readDigits value digits

/-- An integer of 32 bits, with an optional sign, between white space and before any NULs. -/
def parseInt32 (s : List Char) : Except Panic (Option Int) := do
  let (negative, digits) := splitSign (trim isWhite (trimEnd (· = Char.ofNat 0) s))
  if digits.isEmpty || !digits.all Char.isDigit then return none
  match ← readDigits 0 digits with
  | none => return none
  | some value =>
    let signed := if negative then -value else value
    return if -0x80000000 ≤ signed ∧ signed < 0x80000000 then some signed else none

/-- What stands behind the last backtick. -/
def behindBacktick (name : List Char) : Option (List Char) :=
  if backtick ∈ name then some (name.reverse.takeWhile (· ≠ backtick)).reverse else none

/-- The sum of the arities of the names, as 32 bits hold it. -/
def addArity (arity : Int) (name : List Char) : Except Panic Int :=
  match behindBacktick name with
  | none => .ok arity
  | some digits => do
    match ← parseInt32 digits with
    | none => return arity
    | some n => return (arity + n).bmod 0x100000000

end Integers

section Parts

variable (chars : List Char)

/-- The position behind the characters that satisfy `p`. -/
def skip (p : Char → Bool) (pos : ℕ) : ℕ := pos + ((chars.drop pos).takeWhile p).length

/-- Whether a character stands at the position, and the position behind it if it does. -/
def tryParse (c : Char) (pos : ℕ) : Bool × ℕ := if chars[pos]? = some c then (true, pos + 1) else (false, pos)

def skipWhitespace (pos : ℕ) : ℕ := skip chars isWhitespace pos

theorem le_skip (p : Char → Bool) (pos : ℕ) : pos ≤ skip chars p pos := Nat.le_add_right _ _

theorem le_tryParse (c : Char) (pos : ℕ) : pos ≤ (tryParse chars c pos).2 := by
  unfold tryParse
  split
  · exact Nat.le_succ pos
  · exact Nat.le_refl pos

theorem lt_of_getElem? {pos : ℕ} {c : Char} (found : chars[pos]? = some c) : pos < chars.length :=
  (List.getElem?_eq_some_iff.mp found).1

/-- A name up to a delimiter. A backslash takes the character behind it into the name, if there is one. -/
def parsePart (pos : ℕ) : List Char × ℕ :=
  match _ : chars[pos]? with
  | none => ([], pos)
  | some c =>
    if isDelimiter c then ([], pos)
    else
      let at' := if c = backslash then pos + 1 else pos
      match chars[at']? with
      | none => ([], at')
      | some c =>
        let rest := parsePart (at' + 1)
        (c :: rest.1, rest.2)
termination_by chars.length - pos
decreasing_by
  have := lt_of_getElem? chars ‹chars[pos]? = some _›
  split <;> omega

theorem le_parsePart (pos : ℕ) : pos ≤ (parsePart chars pos).2 := by
  fun_induction parsePart chars pos with
  | case1 pos _ => exact Nat.le_refl pos
  | case2 pos c _ _ => exact Nat.le_refl pos
  | case3 pos c found _ at' _ =>
    have : pos ≤ at' := by
      change pos ≤ if c = backslash then pos + 1 else pos
      split <;> omega
    exact this
  | case4 pos c found _ at' c' _ rest ih =>
    have : pos ≤ at' := by
      change pos ≤ if c = backslash then pos + 1 else pos
      split <;> omega
    exact Nat.le_trans (Nat.le_succ_of_le this) ih

/-- The nested names, each behind a plus. -/
def parseNested (pos : ℕ) : List (List Char) × ℕ :=
  if found : chars[pos]? = some '+' then
    let part := parsePart chars (pos + 1)
    let rest := parseNested part.2
    (part.1 :: rest.1, rest.2)
  else ([], pos)
termination_by chars.length - pos
decreasing_by
  have := lt_of_getElem? chars found
  have := le_parsePart chars (pos + 1)
  omega

/-- A name, its nested names and their arity. -/
def parseName (pos : ℕ) : Except Panic (TypeName × ℕ) := do
  let fullname := parsePart chars pos
  let nested := parseNested chars fullname.2
  let arity ← (fullname.1 :: nested.1).foldlM addArity 0
  return ({ fullname := fullname.1, nestedNames := nested.1, arity }, nested.2)

/-- The array, pointer or reference suffix at the position, and the position behind it. -/
def specAt (pos : ℕ) : Option (Spec × ℕ) :=
  match chars[pos]? with
  | some '*' => some (.ptr, pos + 1)
  | some '&' => some (.byRef, pos + 1)
  | some '[' =>
    match chars[pos + 1]? with
    | some ']' => some (.szArray, pos + 2)
    | some '*' => some (.array 1, (tryParse chars ']' (pos + 2)).2)
    | _ =>
      let behind := skip chars (· = ',') (pos + 1)
      some (.array (1 + (behind - (pos + 1))), (tryParse chars ']' behind).2)
  | _ => none

theorem lt_of_specAt {pos next : ℕ} {spec : Spec} (found : specAt chars pos = some (spec, next)) :
    pos < next ∧ pos < chars.length := by
  have inside : pos < chars.length := by
    by_contra outside
    rw [specAt, List.getElem?_eq_none (Nat.le_of_not_lt outside)] at found
    exact nomatch found
  refine ⟨?_, inside⟩
  unfold specAt at found
  split at found
  · cases found
    exact Nat.lt_succ_self pos
  · cases found
    exact Nat.lt_succ_self pos
  · have behind := le_skip chars (· = ',') (pos + 1)
    have bracket := le_tryParse chars ']' (skip chars (· = ',') (pos + 1))
    have star := le_tryParse chars ']' (pos + 2)
    split at found
    · cases found
      omega
    · cases found
      omega
    · cases found
      omega
  · exact nomatch found

/-- The suffixes. The rank of an array is counted in 32 bits. -/
def parseSpecs (pos : ℕ) : Except Panic (List Spec × ℕ) :=
  match _ : specAt chars pos with
  | none => .ok ([], pos)
  | some (spec, next) => do
    match spec with
    | .array rank => discard (checkU32 rank)
    | .ptr | .byRef | .szArray => pure ()
    let rest ← parseSpecs next
    return (spec :: rest.1, rest.2)
termination_by chars.length - pos
decreasing_by
  have := lt_of_specAt chars ‹specAt chars pos = some (spec, next)›
  omega

def slice (start stop : ℕ) : Except Panic (List Char) :=
  if start ≤ stop ∧ stop ≤ chars.length then .ok ((chars.take stop).drop start) else .error .outOfRange

/-- The assembly behind a comma, up to a bracket. -/
def parseAssemblyName (pos : ℕ) : Except Panic (List Char × ℕ) :=
  if chars[pos]? = some ',' then do
    let start := skipWhitespace chars (pos + 1)
    let stop := skip chars (fun c => c ≠ '[' && c ≠ ']') start
    return (← slice chars start stop, stop)
  else .ok ([], pos)

end Parts

/-- A type whose generic arguments are being read. -/
structure OpenType where
  ty : ParsedType
  fqName : Bool
  /-- Whether the argument being read is wrapped in brackets, which makes it a fully qualified name. -/
  fqArgument : Bool

/-- What the parser does next. -/
inductive Mode
  /-- It reads a name. -/
  | reading (fqName : Bool)
  /-- It reads what stands behind a type with all its arguments. -/
  | closing (ty : ParsedType) (fqName : Bool)
  /-- It adds a type to the one it is an argument of. -/
  | closed (ty : ParsedType)

structure ParseState where
  position : ℕ
  /-- The generic arguments so far. -/
  arguments : Int
  /-- The innermost first. -/
  opened : List OpenType
  mode : Mode

/-- The most generic arguments a name may have in all. -/
def maxArguments : Int := 65535

/-- A type with its suffixes and assembly. -/
def finish (ty : ParsedType) (specs : List Spec) (assembly : Option (List Char)) : ParsedType :=
  .node { ty.value with specs, assembly } ty.children

section Parse

variable (chars : List Char)

/-- Reads a name, and opens its arguments if there are any. -/
def readingStep (st : ParseState) (fqName : Bool) : Except Panic (Option ParseState) := do
  let (name, pos) ← parseName chars st.position
  if name.arity > 0 ∧ chars[pos]? = some '[' then
    if name.arity > (← checkI32 (maxArguments - st.arguments)) then return none
    let arguments ← checkI32 (st.arguments + name.arity)
    let (fqArgument, pos) := tryParse chars '[' (pos + 1)
    return some ⟨pos, arguments, ⟨.node name [], fqName, fqArgument⟩ :: st.opened, .reading fqArgument⟩
  else return some { st with position := pos, mode := .closing (.node name []) fqName }

/-- Reads the suffixes of a type, and its assembly if its name is fully qualified. -/
def closingStep (st : ParseState) (ty : ParsedType) (fqName : Bool) : Except Panic ParseState := do
  let (specs, pos) ← parseSpecs chars st.position
  if fqName then
    let (assembly, pos) ← parseAssemblyName chars pos
    return { st with position := pos, mode := .closed (finish ty specs (some assembly)) }
  else return { st with position := pos, mode := .closed (finish ty specs none) }

/-- Adds an argument, and goes on to the next or closes the type it is an argument of. -/
def attachStep (st : ParseState) (argument : ParsedType) (parent : OpenType) (opened : List OpenType) : ParseState :=
  let ty := parent.ty.attach argument
  let pos := if parent.fqArgument then (tryParse chars ']' st.position).2 else st.position
  let pos := skipWhitespace chars (tryParse chars ',' pos).2
  if ty.children.length < ty.value.arity.toNat then
    let (fqArgument, pos) := tryParse chars '[' pos
    { st with position := pos, opened := ⟨ty, parent.fqName, fqArgument⟩ :: opened, mode := .reading fqArgument }
  else
    { st with position := (tryParse chars ']' pos).2, opened, mode := .closing ty parent.fqName }

def parseStep (st : ParseState) : ParseState ⊕ Except Panic (Option ParsedType) :=
  match st.mode with
  | .reading fqName => match readingStep chars st fqName with
    | .ok (some st) => .inl st
    | .ok none => .inr (.ok none)
    | .error e => .inr (.error e)
  | .closing ty fqName => match closingStep chars st ty fqName with
    | .ok st => .inl st
    | .error e => .inr (.error e)
  | .closed ty => match st.opened with
    | [] => .inr (.ok (some ty))
    | parent :: opened => .inl (attachStep chars st ty parent opened)

/-- What a parse answers: nothing for an empty name. -/
def Parses (answer : Except Panic (Option ParsedType)) : Prop :=
  if chars = [] then answer = .ok none else Answers (parseStep chars) ⟨0, 0, [], .reading true⟩ answer

end Parse

end Ctadl.Cil
