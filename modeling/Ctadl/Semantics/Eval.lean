import Ctadl.Cir.Location
import Ctadl.Cir.Program
import Mathlib.Data.Finset.Insert
import Mathlib.Data.List.Sort

/-! # The reference evaluator

The labels of every cell of a program's unfolding, computed round by round until a round adds nothing.
A call of a function with a body is an instance of it; instances appear as the labels that resolve a
call do. A label past the path bound and a call nested past the depth are dropped, and the outcome says
so.

The evaluator is written over the type `O` of offsets: 64-bit words in the program itself. The labels of
a state are one list with an entry for each variable, path and label; sets and maps of the source are
lists read by membership.
-/

namespace Ctadl.Semantics

open Cir

variable {O : Type}

inductive Label where
  /-- A taint label introduced by a source. -/
  | taint (name : String)
  /-- A function reference: a call target. -/
  | target (function : String)
  /-- A class reference from an allocation. -/
  | cls (object : CallObject)
  /-- A constant string. -/
  | str (text : String)
deriving DecidableEq, Repr

/-- Whether a label may move backward along assignments. -/
inductive Scope where
  /-- Arrived by a copy: forward only. -/
  | fixed
  /-- Placed by a store or a source: also backward. -/
  | all
deriving DecidableEq, Repr

/-- `all` subsumes `fixed`. -/
def Scope.le : Scope → Scope → Bool
  | all, fixed => false
  | fixed, _ | all, all => true

/-- The two bounds of an evaluation. -/
structure Config where
  /-- The longest path, in segments, a label is kept at. -/
  pathBound : ℕ
  /-- The deepest call nesting instantiated below a root. -/
  depth : ℕ
deriving DecidableEq, Repr

/-- A source at an access path: the label at the path and at its `#value`. -/
structure Seed (O : Type := Int64) where
  function : String
  path : AccessPath O
  label : String

/-- A sink at an access path: it observes the path and its `#value`. -/
structure Observer (O : Type := Int64) where
  function : String
  path : AccessPath O
  name : String

/-- The initial labeling and the observation points. -/
structure Ports (O : Type := Int64) where
  sources : List String
  sinks : List String
  seeds : List (Seed O)
  observers : List (Observer O)

/-- A taint label at a sink's port. -/
structure Observation where
  function : String
  site : String
  label : String
deriving DecidableEq, Repr

/-- Who a variable belongs to: an instance, or every instance of every program. -/
inductive Owner where
  | inst (inst : ℕ)
  | globalName (name : String)
deriving DecidableEq, Repr

/-- A variable of one instance. -/
abbrev Var := Owner × VariableRef

/-- A call site and what it calls: block, statement, program, function. -/
abbrev CallKey := ℕ × ℕ × ℕ × ℕ

/-- One instance of a function in the unfolding. -/
structure Instance where
  program : ℕ
  function : ℕ
  depth : ℕ
  /-- The instance each call site called. -/
  children : List (CallKey × ℕ)
deriving DecidableEq, Repr

/-- One label at one location. -/
structure Entry (O : Type := Int64) where
  var : Var
  path : List (PathSegment O)
  label : Label
  scope : Scope
deriving DecidableEq, Repr

/-- Why a call is zero assignments. -/
inductive Unresolved (O : Type := Int64) where
  | noTarget (inst block statement : ℕ) (callee : AccessPath O)
  | unsupported (inst block statement : ℕ) (style : CallStyle O)
  | noBody (inst block statement : ℕ) (name : String)

/-- The state of an evaluation. -/
structure Eval (O : Type := Int64) where
  instances : List Instance
  cells : List (Entry O)
  observed : Finset Observation
  unresolved : List (Unresolved O)
  truncated : Bool
  changed : Bool

/-- What an evaluation is of. -/
structure Context (O : Type := Int64) where
  programs : List (Program O)
  ports : Ports O
  config : Config

namespace Eval

variable [DecidableEq O]

/-- The scope a label has at a location. -/
def scopeAt (st : Eval O) (var : Var) (p : List (PathSegment O)) (label : Label) : Option Scope :=
  (st.cells.find? fun e => e.var = var ∧ e.path = p ∧ e.label = label).map Entry.scope

/-- Give a label at a location at least a scope. -/
def put (st : Eval O) (var : Var) (p : List (PathSegment O)) (label : Label) (scope : Scope) : Eval O :=
  match st.scopeAt var p label with
  | some old =>
    if scope.le old then st
    else { st with
      cells := st.cells.map fun e =>
        if e.var = var ∧ e.path = p ∧ e.label = label then { e with scope } else e
      changed := true }
  | none => { st with cells := ⟨var, p, label, scope⟩ :: st.cells, changed := true }

/-- Add a label at a path, which must be a location within the path bound. -/
def add (config : Config) (st : Eval O) (var : Var) (p : List (PathSegment O)) (label : Label)
    (scope : Scope) : Eval O :=
  if classify p ≠ .location then st
  else if config.pathBound < p.length then { st with truncated := true }
  else st.put var p label scope

/-- The labels at a path for a read: an address reads its base. -/
def read (st : Eval O) (var : Var) (p : List (PathSegment O)) : List Label :=
  (st.cells.filter fun e => e.var = var ∧ e.path = locationOf p).map Entry.label

end Eval

section Assign

variable [DecidableEq O] [Add O] [Neg O] [OfNat O 0]

/-- Where an assignment `dst.d = src.s` carries the labels at the location `p` of its source. -/
def forwardTargets (d s p : List (PathSegment O)) : List (List (PathSegment O)) :=
  (match stripPrefix p s with
    | some t =>
      concat d t :: if t = [] ∧ s.getLast? = some .value then [concat d [.value]] else []
    | none => []) ++
    if classify s = .address ∧ locationOf s = p then [d] else []

/-- Where it carries the labels at the location `q` of its destination back to. -/
def backwardTarget (d s q : List (PathSegment O)) : Option (List (PathSegment O)) :=
  (stripPrefix q d).bind fun t => if t = [] ∨ t = [.value] then none else some (concat s t)

/-- The forward loop of an assignment, over the labels its source has at its start. -/
def Eval.forward (config : Config) (st : Eval O) (dst : Var) (d : List (PathSegment O)) (src : Var)
    (s : List (PathSegment O)) (scope : Scope) : Eval O :=
  (st.cells.filter fun e => e.var = src).foldl (fun st e =>
    (forwardTargets d s e.path).foldl (fun st target => st.add config dst target e.label scope) st) st

/-- The backward loop, over the labels of scope `all` that its destination has after the forward one. -/
def Eval.backward (config : Config) (st : Eval O) (dst : Var) (d : List (PathSegment O)) (src : Var)
    (s : List (PathSegment O)) : Eval O :=
  (st.cells.filter fun e => e.var = dst ∧ e.scope = .all).foldl (fun st e =>
    (backwardTarget d s e.path).elim st fun target => st.add config src target e.label .all) st

/-- The assignment `dst.d = src.s`. A store gives forward labels scope `all`. -/
def Eval.assign (config : Config) (st : Eval O) (dst : Var) (d : List (PathSegment O)) (src : Var)
    (s : List (PathSegment O)) (store : Bool) : Eval O :=
  if classify d = .void ∨ classify s = .void then st
  else (st.forward config dst d src s (if store then .all else .fixed)).backward config dst d src s

end Assign

namespace Context

/-- The functions with a body, with their program and index. -/
def bodies (ctx : Context O) : List ((ℕ × ℕ) × FunctionData O) :=
  ctx.programs.zipIdx.flatMap fun (program, p) =>
    program.functions.zipIdx.filterMap fun (f, i) => if f.blocks.isEmpty then none else some ((p, i), f)

/-- The first function of a name that has a body. -/
def byName (ctx : Context O) (name : String) : Option (ℕ × ℕ) :=
  (ctx.bodies.find? fun body => body.2.name = name).map Prod.fst

def functionAt (ctx : Context O) (program function : ℕ) : Option (FunctionData O) :=
  ctx.programs[program]?.bind fun program => program.functions[function]?

end Context

variable [DecidableEq O] [Add O] [Neg O] [OfNat O 0] (ctx : Context O)

namespace Eval

/-- Every function with a body is a root. -/
def new : Eval O where
  instances := ctx.bodies.map fun ((program, function), _) => ⟨program, function, 0, []⟩
  cells := []
  observed := ∅
  unresolved := []
  truncated := false
  changed := false

/-- The variable a reference names in an instance. A global is the one variable of its name. -/
def var (st : Eval O) (inst : ℕ) (v : VariableRef) : Var :=
  match v.var with
  | .globalVar idx =>
    let name := ((st.instances[inst]?.bind fun i => ctx.programs[i.program]?).bind
      fun program => program.globals[idx]?).getD ""
    (.globalName name, .new (.globalVar 0))
  | .localVar _ | .paramVar _ => (.inst inst, v)

/-- `dst.d = e`, with `e` read in an instance. -/
def assignExp (st : Eval O) (dst : Var) (d : List (PathSegment O)) (srcInst : ℕ) (e : Exp O) : Eval O :=
  let store := !d.isEmpty
  let scope := if store then Scope.all else .fixed
  match e with
  | .path ap => st.assign ctx.config dst d (st.var ctx srcInst ap.base) ap.segments store
  -- `y = value(p)` is the store `y.#value = p`.
  | .value ap => st.assign ctx.config dst (concat d [.value]) (st.var ctx srcInst ap.base) ap.segments true
  | .objectRef (.functionPtr f) => st.add ctx.config dst d (.target f) scope
  | .objectRef object => st.add ctx.config dst d (.cls object) scope
  | .str text => st.add ctx.config dst d (.str text) scope
  | .int _ | .bytes _ => st

/-- The name of the function of an instance. -/
def functionName (st : Eval O) (inst : ℕ) : String :=
  ((st.instances[inst]?.bind fun i => ctx.functionAt i.program i.function).map FunctionData.name).getD ""

/-- Record every taint label at a path and at its `#value` as observed at a site. -/
def observe (st : Eval O) (inst : ℕ) (ap : AccessPath O) (site : String) : Eval O :=
  let var := st.var ctx inst ap.base
  let labels := st.read var ap.segments ++ st.read var (concat ap.segments [.value])
  labels.foldl (fun st label =>
    match label with
    | .taint name =>
      let obs : Observation := ⟨st.functionName ctx inst, site, name⟩
      if obs ∈ st.observed then st
      else { st with observed := insert obs st.observed, changed := true }
    | .target _ | .cls _ | .str _ => st) st

/-- A source labels its first result with the label its first argument names. -/
def source (st : Eval O) (inst : ℕ) (name : String) (rets : List VariableRef) (args : List (Exp O)) : Eval O :=
  match rets.head? with
  | none => st
  | some r =>
    let label := match args.head? with
      | some (.str text) => Label.taint text
      | _ => .taint name
    let var := st.var ctx inst r
    (st.add ctx.config var [] label .all).add ctx.config var [.value] label .all

/-- A sink observes its first argument. -/
def sink (st : Eval O) (inst info : ℕ) (name : String) (args : List (Exp O)) : Eval O :=
  match args.head?.bind Exp.accessPath with
  | none => st
  | some ap =>
    let portLabel := match args.tail with
      | .str text :: _ => text
      | _ => "_"
    st.observe ctx inst ap (name ++ "(" ++ portLabel ++ ")@" ++ toString info)

/-- The values a function returns, for every return. -/
def returns (f : FunctionData O) : List (List (Exp O)) :=
  f.blocks.filterMap fun block =>
    match block.terminator with
    | some (.ret args) => some args
    | some (.goto _) | none => none

/-- The instance a call site called, made on its first call unless that is nested too deep. -/
def child (st : Eval O) (inst : ℕ) (key : CallKey) : Eval O × Option ℕ :=
  match st.instances[inst]? with
  | none => (st, none)
  | some parent =>
    match parent.children.lookup key with
    | some c => (st, some c)
    | none =>
      if ctx.config.depth < parent.depth + 1 then ({ st with truncated := true }, none)
      else
        let c := st.instances.length
        let fresh : Instance := ⟨key.2.2.1, key.2.2.2, parent.depth + 1, []⟩
        ({ st with
          instances := st.instances.set inst { parent with children := (key, c) :: parent.children } ++ [fresh]
          changed := true }, some c)

/-- The call of a function: the copies into its formals, its body as a child instance, and the copies of
its returns. -/
def instantiate (st : Eval O) (inst block statement : ℕ) (callee : ℕ × ℕ) (rets : List VariableRef)
    (args : List (Exp O)) : Eval O :=
  match st.child ctx inst (block, statement, callee.1, callee.2), ctx.functionAt callee.1 callee.2 with
  | (st, some c), some f =>
    let st := (args.take f.params.length).zipIdx.foldl (fun st (arg, idx) =>
      st.assignExp ctx (st.var ctx c (.new (.paramVar idx))) [] inst arg) st
    (returns f).foldl (fun st ret =>
      (rets.zip ret).foldl (fun st (r, e) => st.assignExp ctx (st.var ctx inst r) [] c e) st) st
  | (st, _), _ => st

/-- The functions an indirect call resolves to: the target labels at its callee path and at its value. -/
def funcPtrTargets (st : Eval O) (inst : ℕ) (callee : AccessPath O) : List String :=
  let var := st.var ctx inst callee.base
  let labels := st.read var callee.segments ++ st.read var (concat callee.segments [.value])
  (labels.filterMap fun
    | .target f => some f
    | .taint _ | .cls _ | .str _ => none).dedup.insertionSort fun a b => a ≤ b

/-- What a call of one name does. -/
def callTarget (inst block statement info : ℕ) (rets : List VariableRef) (args : List (Exp O))
    (st : Eval O) (name : String) : Eval O :=
  if name ∈ ctx.ports.sources then st.source ctx inst name rets args
  else if name ∈ ctx.ports.sinks then st.sink ctx inst info name args
  else
    match ctx.byName name with
    | some callee => st.instantiate ctx inst block statement callee rets args
    | none => { st with unresolved := .noBody inst block statement name :: st.unresolved }

def call (st : Eval O) (inst block statement info : ℕ) (style : CallStyle O) (rets : List VariableRef)
    (args : List (Exp O)) : Eval O :=
  match style with
  | .directCall names => names.foldl (callTarget ctx inst block statement info rets args) st
  | .funcPtrCall callee _ =>
    let names := st.funcPtrTargets ctx inst callee
    let st := if names.isEmpty then
        { st with unresolved := .noTarget inst block statement callee :: st.unresolved }
      else st
    names.foldl (callTarget ctx inst block statement info rets args) st
  -- Virtual calls resolve through a class hierarchy that the evaluator does not take.
  | other => { st with unresolved := .unsupported inst block statement other :: st.unresolved }

/-- One statement of an instance. -/
def execute (inst block statement : ℕ) (st : Eval O) : Statement O → Eval O
  | .assign dest sources =>
    let dst := st.var ctx inst dest.base
    sources.foldl (fun st e => st.assignExp ctx dst dest.segments inst e) st
  | .phi dest operands =>
    let dst := st.var ctx inst dest
    operands.foldl (fun st operand => st.assign ctx.config dst [] (st.var ctx inst operand.2) [] false) st
  | .callAssign info style rets args => st.call ctx inst block statement info style rets args
  | .nop => st

/-- One pass over the body of an instance. -/
def step (st : Eval O) (inst : ℕ) : Eval O :=
  match st.instances[inst]?.bind fun i => ctx.functionAt i.program i.function with
  | none => st
  | some f =>
    let st := (ctx.ports.seeds.filter fun seed => seed.function = f.name).foldl (fun st seed =>
      let var := st.var ctx inst seed.path.base
      (st.add ctx.config var seed.path.segments (.taint seed.label) .all).add ctx.config var
        (concat seed.path.segments [.value]) (.taint seed.label) .all) st
    let st := (ctx.ports.observers.filter fun obs => obs.function = f.name).foldl (fun st obs =>
      st.observe ctx inst obs.path obs.name) st
    f.blocks.zipIdx.foldl (fun st (block, b) =>
      block.statements.zipIdx.foldl (fun st (stmt, i) => execute ctx inst b i st stmt) st) st

/-- One move of the loop: the next instance of the round or, after the last one, the next round while
the round changed something. -/
def next : Eval O × ℕ → Option (Eval O × ℕ)
  | (st, i) =>
    if i < st.instances.length then some (st.step ctx i, i + 1)
    else if st.changed then some ({ st with changed := false }, 0)
    else none

/-- The loop, for so many moves; `none` while it still runs. -/
def run : ℕ → Eval O × ℕ → Option (Eval O)
  | 0, _ => none
  | fuel + 1, st =>
    match next ctx st with
    | none => some st.1
    | some st => run fuel st

end Eval

/-- The outcome of an evaluation that takes at most so many moves. -/
def evaluate (fuel : ℕ) : Option (Eval O) := Eval.run ctx fuel (.new ctx, 0)

end Ctadl.Semantics
