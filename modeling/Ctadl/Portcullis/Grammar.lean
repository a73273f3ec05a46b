import Ctadl.Cir.PathSyntax
import Ctadl.Collections.Peg
import Ctadl.Portcullis.Syntax

/-! # The surface syntax of heads and ports

The grammar of a head atom and its arguments, over the characters of the text, and the builder that turns
what it yields into the syntax of `Head`'s arguments. A path segment is a run of segment characters, which
the arrows of a flow are made of too, or a quoted string, or an offset in brackets. Source positions are
left out, and with them the report of an integer literal that overflows, which reads as zero.
-/

namespace Ctadl.Portcullis

open Cir Collections.Peg

/-! ## Syntax tree -/

inductive RawArgSel where
  | int (text : List Char)
  | wildcard
  | var (v : String)
deriving DecidableEq, Repr

inductive RawPortBase where
  | ret
  | arg (sel : RawArgSel)
  | local (v : String)
  | globalSelf
deriving DecidableEq, Repr

inductive RawPathSeg where
  | offset (text : List Char)
  /-- A name, and whether it was quoted. -/
  | symbol (text : List Char) (quoted : Bool)
deriving DecidableEq, Repr

structure RawPortExpr where
  anchor : Option Term
  base : RawPortBase
  path : List RawPathSeg
deriving DecidableEq, Repr

structure RawFlow where
  left : RawPortExpr
  op : FlowOp
  right : RawPortExpr
deriving DecidableEq, Repr

inductive RawHeadArg where
  | attr (name : String) (lit : Literal)
  | flow (f : RawFlow)
  | port (p : RawPortExpr)
  | lit (l : Literal)
  | var (v : String)
deriving DecidableEq, Repr

/-! ## Terminals -/

namespace Grammar

/-- The text of a word. -/
def word (w : String) : Reader Char Unit := token w.toList

def isNameChar (c : Char) : Bool :=
  ('a' ≤ c ∧ c ≤ 'z') ∨ ('A' ≤ c ∧ c ≤ 'Z') ∨ ('0' ≤ c ∧ c ≤ '9') ∨ c = '_'

def nameChar : Reader Char Char := satisfy isNameChar

/-- Whitespace, `//` and `/* */` comments. -/
def blank : Reader Char Unit := do
  let _ ← many <|
    (do let _ ← satisfy fun c => c = ' ' ∨ c = '\t' ∨ c = '\r' ∨ c = '\n') <|>
    (do word "//"; let _ ← many (do notAhead (word "\n"); let _ ← any)) <|>
    (do word "/*"; let _ ← many (do notAhead (word "*/"); let _ ← any); word "*/")

/-- String-literal escapes: `\"`, `\\`, `\n`, `\t`, `\r`, and a backslash before anything else for that. -/
def unescape : List Char → List Char
  | '\\' :: c :: rest =>
    (if c = 'n' then '\n' else if c = 't' then '\t' else if c = 'r' then '\r' else c) :: unescape rest
  | c :: rest => c :: unescape rest
  | [] => []

/-- A character of a string literal, or an escape. -/
def stringElement : Reader Char Unit :=
  (do notAhead (satisfy fun c => c = '"' ∨ c = '\\'); let _ ← any) <|> (do word "\\"; let _ ← any)

def string : Reader Char (List Char) := do
  word "\""
  let s ← consumed (many stringElement)
  word "\""
  return unescape s

def digit : Reader Char Char := satisfy fun c => '0' ≤ c ∧ c ≤ '9'

def int : Reader Char (List Char) :=
  consumed do
    let _ ← maybe (satisfy fun c => c = '+' ∨ c = '-')
    let _ ← many1 digit

/-- Relation and attribute names. -/
def lname : Reader Char (List Char) :=
  consumed do
    let _ ← satisfy fun c => ('a' ≤ c ∧ c ≤ 'z') ∨ c = '_'
    let _ ← many nameChar
    let _ ← many (do word "-"; let _ ← many1 nameChar)

/-- Variables are uppercase. -/
def var : Reader Char (List Char) :=
  consumed do
    let _ ← satisfy fun c => 'A' ≤ c ∧ c ≤ 'Z'
    let _ ← many nameChar

def wildcard : Reader Char Unit := do word "_"; notAhead nameChar

def literal : Reader Char Literal :=
  (do return .str (String.ofList (← string))) <|>
  (do return .int (((parseI64 (← int)).map Int64.toInt).getD 0)) <|>
  (do
    let b ← (do word "true"; return true) <|> (do word "false"; return false)
    notAhead nameChar
    return .bool b)

def term : Reader Char Term :=
  (do return .lit (← literal)) <|> (do return .var (String.ofList (← var))) <|> (do wildcard; return .wildcard)

/-! ## Ports -/

/-- `F::`, the function or call site a port hangs off. -/
def anchor : Reader Char Term := do
  let t ← term
  blank
  word "::"
  return t

def argSel : Reader Char RawArgSel :=
  (do return .int (← int)) <|> (do wildcard; return .wildcard) <|> (do return .var (String.ofList (← var)))

def portBase : Reader Char RawPortBase :=
  (do word "return"; notAhead nameChar; return .ret) <|>
  (do
    (word "arg" <|> word "param")
    notAhead nameChar
    blank
    word "("
    blank
    let sel ← argSel
    blank
    word ")"
    return .arg sel) <|>
  (do
    word "local"
    notAhead nameChar
    blank
    word "("
    blank
    let v ← var
    blank
    word ")"
    return .local (String.ofList v)) <|>
  (do word "self"; notAhead nameChar; return .globalSelf)

def isSegChar (c : Char) : Bool :=
  ('a' ≤ c ∧ c ≤ 'z') ∨ ('A' ≤ c ∧ c ≤ 'Z') ∨ ('0' ≤ c ∧ c ≤ '9') ∨ c = '_' ∨ c = '$' ∨ c = '-' ∨ c = '%' ∨ c = '*' ∨
    c = '#' ∨ c = '<' ∨ c = '>'

def segChar : Reader Char Char := satisfy isSegChar

/-- `.foo`, `[2]`, `.[2]`, `."weird.field[0]"`; an offset is tried first. -/
def pathSeg : Reader Char RawPathSeg :=
  (do
    let _ ← maybe (do word "."; blank)
    word "["
    blank
    let i ← int
    blank
    word "]"
    return .offset i) <|>
  (do
    word "."
    blank
    (do return .symbol (← string) true) <|> (do return .symbol (← consumed (many1 segChar)) false))

/-- A port's anchor and base. -/
def portHead : Reader Char (Option Term × RawPortBase) := do
  let a ← maybe (do let a ← anchor; blank; return a)
  let base ← portBase
  return (a, base)

def portPath : Reader Char (List RawPathSeg) := many (do blank; pathSeg)

def portExpr : Reader Char RawPortExpr := do
  let (a, base) ← portHead
  let path ← portPath
  return ⟨a, base, path⟩

def flowOp : Reader Char FlowOp :=
  (do word "<->"; return .both) <|> (do word "<-"; return .toLeft) <|> (do word "->"; return .toRight)

def flow : Reader Char RawFlow := do
  let left ← portExpr
  blank
  let op ← flowOp
  blank
  let right ← portExpr
  return ⟨left, op, right⟩

/-! ## Heads -/

/-- `saturating = true`. -/
def headAttr : Reader Char RawHeadArg := do
  let name ← lname
  blank
  word "="
  blank
  let lit ← literal
  return .attr (String.ofList name) lit

/-- Ordered: a flow before a lone port, which would read its left half. -/
def headArg : Reader Char RawHeadArg :=
  headAttr <|>
  (do return .flow (← flow)) <|>
  (do return .port (← portExpr)) <|>
  (do return .lit (← literal)) <|>
  (do return .var (String.ofList (← var)))

end Grammar

/-! ## Syntax tree to AST -/

/-- One argument of a head. -/
inductive HeadArg where
  | attr (name : String) (lit : Literal)
  | flow (f : Flow)
  | port (p : PortExpr)
  | lit (l : Literal)
  | var (v : String)
deriving DecidableEq

/-- The messages the builder has reported. -/
abbrev Builder := StateM (List String)

namespace Builder

def error (message : String) : Builder Unit := modify (· ++ [message])

/-- The value of an integer's text, a sign and digits. -/
def intValue (text : List Char) : ℤ :=
  if text.head? = some '-' then -(Nat.ofDigitChars 10 text.tail 0 : ℤ)
  else if text.head? = some '+' then Nat.ofDigitChars 10 text.tail 0
  else Nat.ofDigitChars 10 text 0

/-- How the parser of a bounded integer names what does not fit. -/
def overflowText (text : List Char) : String :=
  if text.head? = some '-' then "number too small to fit in target type" else "number too large to fit in target type"

def portBase : RawPortBase → Builder (Option PortBase)
  | .ret => pure (some .ret)
  | .arg (.int text) => do
    let i := intValue text
    if -2 ^ 15 ≤ i ∧ i < 2 ^ 15 then
      if 0 ≤ i then return some (.arg i)
      else
        error "an argument index must not be negative"
        return none
    else
      error ("argument index out of range: " ++ overflowText text)
      return none
  | .arg .wildcard => pure (some .anyArg)
  | .arg (.var v) => pure (some (.argVar v))
  | .local v => pure (some (.local v))
  | .globalSelf => pure (some .globalSelf)

def pathSeg : RawPathSeg → Builder (Option PathSegment)
  | .offset text =>
    match parseI64 text with
    | some v => pure (some (.offset v))
    | none => do
      error ("offset out of range: " ++ overflowText text)
      return none
  | .symbol text quoted =>
    if text.isEmpty then do
      error "an access-path segment cannot be empty"
      return none
    else if text = ['*'] ∧ !quoted then do
      error ("`.*` is not a path segment: a port names exact paths. Use a sink's `wildcard` or a source's " ++
        "`saturating`, or `.\"*\"` for a field named `*`")
      return none
    else if text = DEREF ∧ !quoted then pure (some .deref)
    else if text = VALUE ∧ !quoted then pure (some .value)
    else pure (some (.field (String.ofList text)))

/-- The segments that are built, in order. -/
def pathSegs : List RawPathSeg → Builder (List PathSegment)
  | [] => pure []
  | raw :: path => do
    let seg ← pathSeg raw
    let segs ← pathSegs path
    return seg.toList ++ segs

def portExpr (raw : RawPortExpr) : Builder (Option PortExpr) := do
  let base ← portBase raw.base
  let path ← pathSegs raw.path
  if (path.findIdx? (·.isValue)).any (· + 1 ≠ path.length) then
    error "`#value` is the reserved value field and must be the port's last segment"
    return none
  else return base.map fun base => ⟨raw.anchor, base, normalize path⟩

def flow (raw : RawFlow) : Builder (Option Flow) := do
  match ← portExpr raw.left with
  | none => return none
  | some left =>
    match ← portExpr raw.right with
    | none => return none
    | some right => return some ⟨left, right, raw.op⟩

def headArg : RawHeadArg → Builder (Option HeadArg)
  | .attr name lit => pure (some (.attr name lit))
  | .flow f => do return (← flow f).map .flow
  | .port p => do return (← portExpr p).map .port
  | .lit lit => pure (some (.lit lit))
  | .var v => pure (some (.var v))

end Builder

end Ctadl.Portcullis
