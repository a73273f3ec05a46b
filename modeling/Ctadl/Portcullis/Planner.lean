import Ctadl.Portcullis.Relations

/-! # The plan of an atom

An atom is compiled against what is bound when it runs: which index its rows are looked up by, which columns and
attributes bind and which test. The source numbers the variables of a rule; here a variable's slot is its name.
-/

namespace Ctadl.Portcullis

open Facts

namespace Relation

/-- The columns rows can be looked up by, most selective first. -/
def indexedColumns : Relation → List Nat
  | .fun | .callSig | .param | .local | .global | .usesField | .allocator => [0]
  | .nameOf => [0, 1]
  | .callSite => [1, 0]
  | .subclass _ _ => [0, 1]

/-- The attributes rows can be looked up by. -/
def indexedAttrs : Relation → List Attr
  | .fun => [.name, .parent, .signature]
  | .callSig => [.name, .parent, .signature, .qualifiedId]
  | .callSite => [.calleeString]
  | _ => []

end Relation

/-- A value a step reads. -/
inductive Operand where
  | const (v : Value)
  | var (x : String)
  /-- `_`. -/
  | any
deriving DecidableEq

/-- What an attribute lookup keys on. -/
inductive Key where
  | one (op : Operand)
  | set (members : List Str)
deriving DecidableEq

/-- How an atom finds its candidate rows. -/
inductive Access where
  | scan
  | column (i : Nat)
  | attr (a : Attr) (key : Key)
deriving DecidableEq

inductive ColumnPat where
  /-- The variable's first occurrence. -/
  | bind (x : String)
  | test (op : Operand)
deriving DecidableEq

inductive AttrPat where
  | bind (x : String)
  | cmp (op : CmpOp) (rhs : Operand)
  | in (set : List Value)
  | present
  /-- A shape that matches nothing. -/
  | never
deriving DecidableEq

/-- A relation atom, resolved against what is bound when it runs. -/
structure AtomPlan where
  rel : Relation
  access : Access
  columns : List ColumnPat
  attrs : List (Attr × AttrPat)
deriving DecidableEq

namespace Compiler

def operand : Term → Operand
  | .var v => .var v
  | .lit l => .const (.ofLiteral l)
  | .wildcard => .any

def known (bound : List String) : Term → Bool
  | .lit _ => true
  | .var v => v ∈ bound
  | .wildcard => false

/-- The relation of an atom the checker accepted. -/
def relation (a : Atom) : Relation := (Relation.of a.name).getD .fun

/-- The indexed attribute a constraint is on. -/
def keyed (rel : Relation) (attr : AttrConstraint) : Option Attr :=
  (Attr.of attr.name).filter (· ∈ rel.indexedAttrs)

/-- An equality with a known term on an indexed attribute. -/
def keyOne (rel : Relation) (bound : List String) (attr : AttrConstraint) : Option Access :=
  match attr.rhs, attr.op with
  | .term t, .eq => if known bound t then (keyed rel attr).map (.attr · (.one (operand t))) else none
  | _, _ => none

/-- A set on an indexed attribute. -/
def keySet (rel : Relation) (attr : AttrConstraint) : Option Access :=
  match attr.rhs, attr.op with
  | .set items, .in => (keyed rel attr).map (.attr · (.set (items.filterMap fun
      | .str s => some s
      | _ => none)))
  | _, _ => none

/-- The cheapest way to find an atom's rows: a known value in an indexed column, failing that an
equality or a set on an indexed attribute, failing that a scan. -/
def access (a : Atom) (bound : List String) : Access :=
  match (relation a).indexedColumns.find? fun i => (a.columns[i]?).any (known bound) with
  | some i => .column i
  | none => ((a.attrs.findSome? (keyOne (relation a) bound)).or
      (a.attrs.findSome? (keySet (relation a)))).getD .scan

/-- The columns, and what is bound after them. -/
def columns : List Term → List String → List ColumnPat × List String
  | [], bound => ([], bound)
  | t :: ts, bound =>
    match t with
    | .var v =>
      if v ∈ bound then
        let rest := columns ts bound
        (.test (.var v) :: rest.1, rest.2)
      else
        let rest := columns ts (v :: bound)
        (.bind v :: rest.1, rest.2)
    | t =>
      let rest := columns ts bound
      (.test (operand t) :: rest.1, rest.2)

/-- One attribute, and what is bound after it. -/
def attrPat (attr : AttrConstraint) (bound : List String) : AttrPat × List String :=
  match attr.rhs, attr.op with
  | .set items, .in => (.in (items.map .ofLiteral), bound)
  | .set _, _ | .term _, .in => (.never, bound)
  | .term .wildcard, .eq => (.present, bound)
  | .term .wildcard, _ => (.never, bound)
  | .term (.var v), op =>
    if v ∈ bound then (.cmp op (.var v), bound)
    else if op = .eq then (.bind v, v :: bound)
    else (.never, bound)
  | .term (.lit l), op => (.cmp op (.const (.ofLiteral l)), bound)

def attrs : List AttrConstraint → List String → List (Attr × AttrPat) × List String
  | [], bound => ([], bound)
  | attr :: as, bound =>
    let pat := attrPat attr bound
    let rest := attrs as pat.2
    (((Attr.of attr.name).getD .name, pat.1) :: rest.1, rest.2)

/-- Compiles a relation atom: each variable's first occurrence, columns before attributes, binds it, and
every later one tests. -/
def atom (a : Atom) (bound : List String) : AtomPlan × List String :=
  let columns := columns a.columns bound
  let attrs := attrs a.attrs columns.2
  ({ rel := relation a, access := access a bound, columns := columns.1, attrs := attrs.1 }, attrs.2)

end Compiler

end Ctadl.Portcullis
