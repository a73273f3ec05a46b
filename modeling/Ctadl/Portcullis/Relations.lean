import Ctadl.Flowgraph.Worklist
import Ctadl.Portcullis.Value
import Mathlib.Data.Prod.Lex
import Mathlib.Order.Fin.Basic

/-! # The built-in input relations over one program

The tables an import is materialized to, the rows each relation enumerates, and the lookups the
planner may use instead of a scan. A lookup is modelled by the rows it reaches: an index holds, for
each key, the rows with that key in table order.
-/

namespace Ctadl.Portcullis

open Facts Flowgraph

/-- Which of the indexed attributes a lookup keys on. -/
inductive FunKey where
  | name | parent | signature | qualifiedId
deriving DecidableEq, Repr

/-- One function. -/
structure FunRow where
  fq : Str
  name : Option Str := none
  parent : Option Str := none
  signature : Option Str := none
  otherNames : List Str := []
  arity : Option Int := none
  hasCode : Option Bool := none
deriving DecidableEq

namespace FunRow

/-- The simple name, then the other names. -/
def names (r : FunRow) : List Str := r.name.toList ++ r.otherNames

def attr (r : FunRow) : FunKey → Option Str
  | .name => r.name
  | .parent => r.parent
  | .signature => r.signature
  | .qualifiedId => none

end FunRow

/-- One edge of one call site. -/
structure CallSiteRow where
  caller : Str
  block : U32
  stmt : U32
  callee : Str
deriving DecidableEq

def CallSiteRow.site (r : CallSiteRow) : SiteId := ⟨r.caller, r.block, r.stmt⟩

/-- Where in its caller a site is: block first. -/
def SiteId.position (site : SiteId) : U32 ×ₗ U32 := toLex (site.block, site.stmt)

/-- One distinct call signature. -/
structure CallSigRow where
  id : Str
  name : Str
  parent : Str
  signature : Str
deriving DecidableEq

structure LocalRow where
  function : Str
  index : U32
  name : Str
deriving DecidableEq

structure GlobalRow where
  name : Str
deriving DecidableEq

inductive AllocatorKind where
  | malloc | realloc | free | internal
deriving DecidableEq, Repr

def AllocatorKind.name : AllocatorKind → String
  | malloc => "malloc"
  | realloc => "realloc"
  | free => "free"
  | internal => "internal"

/-- How a function was found to be an allocator. -/
inductive Evidence where
  | name | shape
deriving DecidableEq, Repr

def Evidence.text : Evidence → String
  | name => "name"
  | shape => "shape"

structure AllocatorRow where
  function : Str
  kind : AllocatorKind
  by' : Evidence
deriving DecidableEq

/-- The tables of one import, as they are built: a function, a signature and an allocator have one row,
the rows of one caller are sorted by position, and both ends of a subclass edge are classes. -/
structure ProgramFacts where
  funs : List FunRow := []
  callsigs : List CallSigRow := []
  callsites : List CallSiteRow := []
  usesField : List (Str × Str) := []
  locals : List LocalRow := []
  globals : List GlobalRow := []
  allocators : List AllocatorRow := []
  subclass : List (Str × Str) := []
  classes : List Str := []
  language : Option Str := none
  importName : Option Str := none
  funs_nodup : (funs.map FunRow.fq).Nodup := by decide
  callsigs_nodup : (callsigs.map CallSigRow.id).Nodup := by decide
  allocators_nodup : (allocators.map AllocatorRow.function).Nodup := by decide
  callsites_sorted : callsites.Pairwise fun r r' =>
    r.caller = r'.caller → r.site.position ≤ r'.site.position := by decide
  subclass_classes : ∀ edge ∈ subclass, edge.1 ∈ classes ∧ edge.2 ∈ classes := by decide

/-- `cls`'s neighbours in `edges` at the requested closure. -/
def closure (edges : Str → List Str) (fuel : Nat) (cls : Str) (reflexive deep : Bool) : List Str :=
  ((if reflexive then [cls] else []) ++
    if deep then (Worklist.drain edges fuel ⟨[], [], [cls]⟩).found else edges cls).dedup

namespace ProgramFacts

variable (facts : ProgramFacts)

def funRow (fq : Str) : Option FunRow := facts.funs.find? (·.fq = fq)

/-- The functions whose attribute `key` is `value`. -/
def funsBy (key : FunKey) (value : Str) : List FunRow := facts.funs.filter (·.attr key = some value)

/-- The functions one of whose names is `name`. -/
def funsNamed (name : Str) : List FunRow :=
  facts.funs.flatMap fun r => (r.names.filter (· = name)).map fun _ => r

def callsigRow (id : Str) : Option CallSigRow := facts.callsigs.find? (·.id = id)

def callsigsBy (key : FunKey) (value : Str) : List CallSigRow :=
  match key with
  | .name => facts.callsigs.filter (·.name = value)
  | .parent => facts.callsigs.filter (·.parent = value)
  | .signature => facts.callsigs.filter (·.signature = value)
  | .qualifiedId => (facts.callsigRow value).toList

def callsitesOfCaller (caller : Str) : List CallSiteRow := facts.callsites.filter (·.caller = caller)

def callsitesOfCallee (callee : Str) : List CallSiteRow := facts.callsites.filter (·.callee = callee)

/-- The rows of one site, by binary search on the position within the caller's rows. -/
def callsitesWithId (site : SiteId) : List CallSiteRow :=
  ((facts.callsitesOfCaller site.caller).dropWhile fun r =>
    decide (r.site.position < site.position)).takeWhile fun r => decide (r.site.position = site.position)

def usesFieldOf (f : Str) : List (Str × Str) := facts.usesField.filter (·.1 = f)

def allocatorOf (f : Str) : Option AllocatorRow := facts.allocators.find? (·.function = f)

def globalOf (name : Str) : Option GlobalRow := facts.globals.find? (·.name = name)

def localsOf (f : Str) : List LocalRow := facts.locals.filter (·.function = f)

def supersOf (cls : Str) : List Str := (facts.subclass.filter (·.1 = cls)).map (·.2)

def subsOf (cls : Str) : List Str := (facts.subclass.filter (·.2 = cls)).map (·.1)

/-- Superclasses of `cls` at the requested closure. -/
def supers (cls : Str) (reflexive deep : Bool) : List Str :=
  closure facts.supersOf (facts.subclass.length + 1) cls reflexive deep

/-- Subclasses of `cls` at the requested closure. -/
def subs (cls : Str) (reflexive deep : Bool) : List Str :=
  closure facts.subsOf (facts.subclass.length + 1) cls reflexive deep

end ProgramFacts

/-! ## Relations and their rows -/

inductive Relation where
  | fun
  | nameOf
  | callSig
  | param
  | local
  | global
  | callSite
  /-- `subclass` is neither, `subclass*` both, `subclass+` only `deep`. -/
  | subclass (reflexive deep : Bool)
  | usesField
  | allocator
deriving DecidableEq, Repr

def Relation.of : String → Option Relation
  | "fun" => some .fun
  | "name_of" => some .nameOf
  | "callsig" => some .callSig
  | "param" => some .param
  | "local" => some .local
  | "global" => some .global
  | "callsite" => some .callSite
  | "subclass" => some (.subclass false false)
  | "subclass*" => some (.subclass true true)
  | "subclass+" => some (.subclass false true)
  | "uses_field" => some .usesField
  | "allocator" => some .allocator
  | _ => none

/-- Every attribute a built-in relation honors. -/
inductive Attr where
  | name | parent | signature | qualifiedId | language | import | arity | hasCode | calleeString | kind
  | by
deriving DecidableEq, Repr

def Attr.of : String → Option Attr
  | "name" => some .name
  | "parent" => some .parent
  | "signature" => some .signature
  | "qualified-id" => some .qualifiedId
  | "language" => some .language
  | "import" => some .import
  | "arity" => some .arity
  | "has_code" => some .hasCode
  | "callee_string" => some .calleeString
  | "kind" => some .kind
  | "by" => some .by
  | _ => none

/-- One row of one relation. -/
inductive Row where
  | fun (r : FunRow)
  | nameOf (r : FunRow) (name : Str)
  | callSig (r : CallSigRow)
  | param (r : FunRow) (index : Int)
  | local (r : LocalRow)
  | global (r : GlobalRow)
  | callSite (r : CallSiteRow)
  /-- `(sub, super)`. -/
  | class (sub sup : Str)
  | usesField (f field : Str)
  | allocator (r : AllocatorRow)
deriving DecidableEq

def CallSigRow.value (r : CallSigRow) : Value := .callSig r.id r.parent r.name r.signature

def CallSiteRow.value (r : CallSiteRow) : Value := .site r.site r.callee

def Row.columnValue : Row → Nat → Value
  | .fun r, _ => .str r.fq
  | .nameOf r _, 0 => .str r.fq
  | .nameOf _ name, _ => .str name
  | .callSig r, _ => r.value
  | .param r _, 0 => .str r.fq
  | .param _ i, _ => .int i
  | .local r, 0 => .str r.function
  | .local r, _ => .local r.function r.index
  | .global r, _ => .global r.name
  | .callSite r, 0 => .str r.caller
  | .callSite r, _ => r.value
  | .class sub _, 0 => .str sub
  | .class _ sup, _ => .str sup
  | .usesField f _, 0 => .str f
  | .usesField _ field, _ => .str field
  | .allocator r, _ => .str r.function

namespace ProgramFacts

variable (facts : ProgramFacts)

/-- The value a row has for an attribute, if it has one. -/
def attrValue : Row → Attr → Option Value
  | .fun r, .name => r.name.map .str
  | .fun r, .parent => r.parent.map .str
  | .fun r, .signature => r.signature.map .str
  | .fun _, .language => facts.language.map .str
  | .fun _, .import => facts.importName.map .str
  | .fun r, .arity => r.arity.map .int
  | .fun r, .hasCode => r.hasCode.map .bool
  | .callSig r, .name => some (.str r.name)
  | .callSig r, .parent => some (.str r.parent)
  | .callSig r, .signature => some (.str r.signature)
  | .callSig r, .qualifiedId => some (.str r.id)
  | .callSig _, .language => facts.language.map .str
  | .callSig _, .import => facts.importName.map .str
  | .callSite r, .calleeString => some (.str r.callee)
  | .local r, .name => some (.str r.name)
  | .global r, .name => some (.str r.name)
  | .global _, .import => facts.importName.map .str
  | .allocator r, .kind => some (.str r.kind.name)
  | .allocator r, .by => some (.str r.by'.text)
  | _, _ => none

/-- The parameter rows of one function: none where no arity was recovered. -/
def params (r : FunRow) : List Row :=
  match r.arity with
  | some arity => (List.range arity.toNat).map fun i => .param r i
  | none => []

/-- The rows a scan of the relation visits. -/
def rows : Relation → List Row
  | .fun => facts.funs.map .fun
  | .nameOf => facts.funs.flatMap fun r => r.names.map (.nameOf r)
  | .callSig => facts.callsigs.map .callSig
  | .param => facts.funs.flatMap params
  | .local => facts.locals.map .local
  | .global => facts.globals.map .global
  | .callSite => facts.callsites.map .callSite
  | .subclass reflexive deep =>
    if !reflexive && !deep then facts.subclass.map fun edge => .class edge.1 edge.2
    else facts.classes.flatMap fun sub => (facts.supers sub reflexive deep).map (.class sub)
  | .usesField => facts.usesField.map fun row => .usesField row.1 row.2
  | .allocator => facts.allocators.map .allocator

end ProgramFacts

end Ctadl.Portcullis
