import Ctadl.Portcullis.Planner

/-! # Running an atom

Which rows an atom tries is `candidates`; one row against the atom's patterns, in the environment of the bindings
so far, is `tryRow`.
-/

namespace Ctadl.Datalog

/-- Bindings of some of the variables. -/
abbrev Env (X V : Type) := X → Option V

namespace Env

variable {X V : Type}

/-- The variables with a value. -/
def dom (e : Env X V) : Set X := {x | (e x).isSome}

theorem mem_dom {e : Env X V} {x : X} : x ∈ e.dom ↔ ∃ v, e x = some v := Option.isSome_iff_exists

end Env

end Ctadl.Datalog

namespace Ctadl.Portcullis

open Facts

abbrev Env := Datalog.Env String Value

namespace Machine

/-- An operand's value: `none` for `_`, and for a variable nothing bound. -/
def value (e : Env) : Operand → Option Value
  | .const v => some v
  | .var x => e x
  | .any => none

/-- The value a column is tested with, if it is known. -/
def tested (e : Env) (plan : AtomPlan) (i : Nat) : Option Value :=
  match plan.columns[i]? with
  | some (.test op) => value e op
  | _ => none

/-- The key a column lookup goes by. -/
def columnKey (e : Env) (plan : AtomPlan) (i : Nat) : Option Str := (tested e plan i).bind Value.asStr

/-- The site a bound `callsite` column names: a site, or a string spelling one. -/
def siteKey (e : Env) (plan : AtomPlan) : Option SiteId :=
  match tested e plan 1 with
  | some (.site id _) => some id
  | some (.str s) => SiteId.parse s
  | _ => none

/-- The rows an attribute index reaches; for a set, each once. -/
def keyed {α : Type} [DecidableEq α] (e : Env) (key : Key) (lookup : Str → List α) : List α :=
  match key with
  | .one op => match (value e op).bind Value.asStr with
    | some s => lookup s
    | none => []
  | .set members => (members.flatMap lookup).dedup

/-- The key of an indexed attribute. -/
def funKey : Attr → FunKey
  | .parent => .parent
  | .signature => .signature
  | .qualifiedId => .qualifiedId
  | _ => .name

section Facts

variable (facts : ProgramFacts)

/-- Parameter rows, straight to the one asked for when the index is known. -/
def paramRows (e : Env) (plan : AtomPlan) : List Row :=
  let funs := match plan.access with
    | .column i => ((columnKey e plan i).bind facts.funRow).toList
    | _ => facts.funs
  funs.flatMap fun f => match f.arity, (tested e plan 1).bind Value.asInt with
    | none, _ => []
    | some arity, some w => if 0 ≤ w ∧ w < arity then [.param f w] else []
    | some _, none => ProgramFacts.params f

def callsiteRows (e : Env) (plan : AtomPlan) : List Row :=
  match plan.access with
  | .column 1 => match siteKey e plan with
    | some site => (facts.callsitesWithId site).map .callSite
    | none => []
  | .column i => match columnKey e plan i with
    | some caller => (facts.callsitesOfCaller caller).map .callSite
    | none => []
  | .attr _ key => (keyed e key facts.callsitesOfCallee).map .callSite
  | .scan => facts.rows .callSite

/-- The rows an atom tries. -/
def candidates (e : Env) (plan : AtomPlan) : List Row :=
  match plan.rel with
  | .fun => match plan.access with
    | .column i => ((columnKey e plan i).bind facts.funRow).toList.map .fun
    | .attr a key => (keyed e key (facts.funsBy (funKey a))).map .fun
    | .scan => facts.rows .fun
  | .nameOf => match plan.access with
    | .column 0 => ((columnKey e plan 0).bind facts.funRow).toList.flatMap fun r => r.names.map (.nameOf r)
    | .column _ => match columnKey e plan 1 with
      | some name => (facts.funsNamed name).map (.nameOf · name)
      | none => []
    | _ => facts.rows .nameOf
  | .callSig => match plan.access with
    | .column i => ((columnKey e plan i).bind facts.callsigRow).toList.map .callSig
    | .attr a key => (keyed e key (facts.callsigsBy (funKey a))).map .callSig
    | .scan => facts.rows .callSig
  | .param => paramRows facts e plan
  | .local => match plan.access with
    | .column i => (columnKey e plan i).toList.flatMap fun f => (facts.localsOf f).map .local
    | _ => facts.rows .local
  | .global => match plan.access with
    | .column i => ((columnKey e plan i).bind facts.globalOf).toList.map .global
    | _ => facts.rows .global
  | .callSite => callsiteRows facts e plan
  | .subclass reflexive deep => match plan.access with
    | .column 0 => (columnKey e plan 0).toList.flatMap fun sub =>
        (facts.supers sub reflexive deep).map (.class sub)
    | .column _ => (columnKey e plan 1).toList.flatMap fun sup =>
        (facts.subs sup reflexive deep).map (.class · sup)
    | _ => facts.rows (.subclass reflexive deep)
  | .usesField => match plan.access with
    | .column i => (columnKey e plan i).toList.flatMap fun f =>
        (facts.usesFieldOf f).map fun row => .usesField row.1 row.2
    | _ => facts.rows .usesField
  | .allocator => match plan.access with
    | .column i => ((columnKey e plan i).bind facts.allocatorOf).toList.map .allocator
    | _ => facts.rows .allocator

/-- The row against the atom's columns, from column `i` on. -/
def tryColumns (row : Row) : List ColumnPat → Nat → Env → Option Env
  | [], _, e => some e
  | .bind x :: pats, i, e => tryColumns row pats (i + 1) (Function.update e x (some (row.columnValue i)))
  | .test op :: pats, i, e =>
    match value e op with
    | some want =>
      if (row.columnValue i).compare .eq want then tryColumns row pats (i + 1) e else none
    | none => tryColumns row pats (i + 1) e

/-- Whether a non-binding attribute constraint holds. -/
def attrHolds (e : Env) (pat : AttrPat) (v : Value) : Bool :=
  match pat with
  | .present => true
  | .in set => v.inSet set
  | .cmp op rhs => match value e rhs with
    | some rhs => v.compare op rhs
    | none => false
  | .bind _ | .never => false

/-- The row against the atom's attributes. One without a value fails every constraint. -/
def tryAttrs (row : Row) : List (Attr × AttrPat) → Env → Option Env
  | [], e => some e
  | (a, pat) :: pats, e =>
    match facts.attrValue row a, pat with
    | some v, .bind x => tryAttrs row pats (Function.update e x (some v))
    | some v, pat => if attrHolds e pat v then tryAttrs row pats e else none
    | none, _ => none

def tryRow (plan : AtomPlan) (e : Env) (row : Row) : Option Env :=
  (tryColumns row plan.columns 0 e).bind (tryAttrs facts row plan.attrs)

end Facts

end Machine

end Ctadl.Portcullis
