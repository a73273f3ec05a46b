import Ctadl.Facts.ContentOrder
import Ctadl.Graph.AnnotatedSearch
import Ctadl.Index.Input

/-! # The implicit taint graph

The facts of a query, the tables `TaintSearchGraph` indexes them into, and the edges it computes on
demand. A table keyed by a vertex is the function that reads it; every adjacency list is in content
order. The endpoints of all labels put steps into the one graph: from a source to its `#value`, from
the `#value` of a sink to the sink, and from a saturating vertex to every longer sink path.
-/

namespace Ctadl.Query

open Facts Index

abbrev Label := String

/-- A source is forward, a sink is backward. -/
inductive TaintDirection where
  | forward
  | backward
deriving DecidableEq, Repr

/-- The call/return discipline of a walk. -/
inductive TaintState where
  | free
  | restricted
deriving DecidableEq, Repr

/-- The magnitudes a reached state carries. A saturating vertex taints whatever is read off it. -/
inductive TaintLevel where
  | saturating
  | plain
deriving DecidableEq, Repr

/-- Whether the taint arrived by a fresh derivation, and may hop back along copies, or by a copy. -/
inductive ObjectScope where
  | all
  | fixed
deriving DecidableEq, Repr

/-- The kind of a taint-graph edge. -/
inductive FlowEdge where
  | intra
  | call (site : InsnSiteId)
  | ret (site : InsnSiteId)
  | global
deriving DecidableEq, Repr

structure QueryEndpoint where
  infunc : FunctionId
  vertex : FlowVertex
  label : Label
  direction : TaintDirection
  callSite : Option InsnSiteId
  saturating : Bool
deriving DecidableEq

structure QueryFacts where
  formalParam : List (FunctionId × FlowVariable × FormalType)
  call : List (InsnSiteId × FunctionId)
  assign : List (FunctionId × FlowVariable × Path × FlowVariable × Path)
  paths : List Path
  externalFunction : List FunctionId
  endpoints : List QueryEndpoint

/-- A node of the implicit graph. -/
structure TaintNode where
  func : FunctionId
  var : FlowVariable
  path : Path
  level : TaintLevel
  scope : ObjectScope
deriving DecidableEq

/-- The level-agnostic identity of a node. -/
abbrev TaintVertex := FunctionId × FlowVariable × Path

def TaintNode.vertex (n : TaintNode) : TaintVertex := (n.func, n.var, n.path)

def QueryEndpoint.taintVertex (ep : QueryEndpoint) : TaintVertex := (ep.infunc, ep.vertex.var, ep.vertex.path)

/-- The function a vertex `v` of `f` is a node of. -/
def home (f : FunctionId) (v : FlowVariable) : FunctionId := if v.isGlobal then GLOBAL_FRAME else f

/-- `p·#value`, when it is a materialized path and `p` does not already end in `#value`. -/
def valuePath (p : Path) (paths : List Path) : Option Path :=
  if (p.segs.getLast?.map (·.isValue)).getD false then none
  else
    let vp := p.concat VALUE_PATH
    if vp ∈ paths then some vp else none

/-- Whether a load at `q` off a vertex saturating at `p` reads a saturated value, both without offsets. -/
def saturatingReadSegs : List Cir.PathSegment → List Cir.PathSegment → Bool
  | _, [] => true
  | b :: q, a :: p => if a = b then saturatingReadSegs q p else false
  | [], a :: p => a = .deref && p.isEmpty

def saturatingRead (q p : Path) : Bool :=
  saturatingReadSegs (q.segs.filter (!·.isOffset)) (p.segs.filter (!·.isOffset))

/-- True for a call's return vertex. -/
def isCallReturn : FlowVariable → Bool
  | .callArg _ formal => formal = RETURN_INDEX
  | _ => false

/-- The value the last insertion left under a key. -/
def lastInserted {α β : Type} [DecidableEq α] (rows : List (α × β)) (key : α) : Option β :=
  rows.reverse.lookup key

/-- Adjacent duplicates dropped. -/
def dedupAdjacent {α : Type} [DecidableEq α] : List α → List α
  | a :: b :: l => if a = b then dedupAdjacent (b :: l) else a :: dedupAdjacent (b :: l)
  | l => l

/-- The tables of the graph. -/
structure TaintSearchGraph where
  /-- Edges by source variable: `[(f, dst, dstPath, srcPath)]`. -/
  assignBySrc : FunctionId → FlowVariable → List (FunctionId × FlowVariable × Path × Path)
  /-- Loads `x = a.q` by destination: `[(a, q)]`. -/
  loadsByDst : FunctionId → FlowVariable → List (FlowVariable × Path)
  /-- The same loads by base: `[(f, x, q)]`. -/
  loadsBySrc : FunctionId → FlowVariable → List (FunctionId × FlowVariable × Path)
  /-- Edges whose source path ends in an offset, by source: `[(pathBeforeOffset, f, dst, dstPath)]`. -/
  addrsBySrc : FunctionId → FlowVariable → List (Path × FunctionId × FlowVariable × Path)
  formalTy : FunctionId → FlowVariable → Option FormalType
  callersByCallee : FunctionId → List InsnSiteId
  calleeBySite : InsnSiteId → List FunctionId
  /-- The materialized paths. -/
  paths : List Path
  /-- Whole-variable copies by destination, those that write a formal or a call's return left out. -/
  copiesByDst : FunctionId → FlowVariable → List FlowVariable
  /-- Sink paths by variable. -/
  sinkExtByVar : FunctionId → FlowVariable → List Path
  /-- Each source vertex, keyed to its `#value`. -/
  valueOfSource : TaintVertex → Option Path
  /-- Each `#value` vertex of a sink, keyed to the sink's path. -/
  sinkOfValue : TaintVertex → Option Path

namespace QueryFacts

variable (facts : QueryFacts)

/-- The sources' `#value` entries, in the order they are inserted. -/
def valueOfSourceRows : List (TaintVertex × Path) :=
  facts.endpoints.filterMap fun ep =>
    match ep.direction with
    | .forward => (valuePath ep.vertex.path facts.paths).map fun vp => (ep.taintVertex, vp)
    | .backward => none

/-- The sinks' `#value` entries, in the order they are inserted. -/
def sinkOfValueRows : List (TaintVertex × Path) :=
  facts.endpoints.filterMap fun ep =>
    match ep.direction with
    | .forward => none
    | .backward => (valuePath ep.vertex.path facts.paths).map fun vp =>
      ((ep.infunc, ep.vertex.var, vp), ep.vertex.path)

end QueryFacts

namespace TaintSearchGraph

def new (facts : QueryFacts) : TaintSearchGraph where
  assignBySrc h v :=
    (facts.assign.filterMap fun (f, dst, dp, src, sp) =>
      if home f src = h ∧ src = v then some (f, dst, dp, sp) else none).insertionSort fun a b =>
        ((compare a.1 b.1).then <| (a.2.1.contentCmp b.2.1).then <| (a.2.2.1.contentCmp b.2.2.1).then <|
          a.2.2.2.contentCmp b.2.2.2).isLE
  loadsByDst h v :=
    (facts.assign.filterMap fun (f, dst, dp, src, sp) =>
      if (f = h ∧ dst = v) ∧ dp.isEmpty ∧ !sp.isEmpty then some (src, sp) else none).insertionSort fun a b =>
        ((a.1.contentCmp b.1).then (a.2.contentCmp b.2)).isLE
  loadsBySrc h v :=
    (facts.assign.filterMap fun (f, dst, dp, src, sp) =>
      if (home f src = h ∧ src = v) ∧ dp.isEmpty ∧ !sp.isEmpty then some (f, dst, sp) else none).insertionSort
        fun a b => ((compare a.1 b.1).then <| (a.2.1.contentCmp b.2.1).then (a.2.2.contentCmp b.2.2)).isLE
  addrsBySrc h v :=
    (facts.assign.filterMap fun (f, dst, dp, src, sp) =>
      if home f src = h ∧ src = v then sp.splitTrailingOffset.map fun (k, _) => (k, f, dst, dp)
      else none).insertionSort fun a b =>
        ((a.1.contentCmp b.1).then <| (compare a.2.1 b.2.1).then <| (a.2.2.1.contentCmp b.2.2.1).then <|
          a.2.2.2.contentCmp b.2.2.2).isLE
  formalTy f v := lastInserted (facts.formalParam.map fun (f, v, ty) => ((f, v), ty)) (f, v)
  callersByCallee f :=
    (facts.call.filterMap fun (site, callee) => if callee = f then some site else none).insertionSort fun a b =>
      ((compare a.funcId b.funcId).then (compare a.insnId b.insnId)).isLE
  calleeBySite site :=
    (facts.call.filterMap fun (s, callee) => if s = site then some callee else none).insertionSort (· ≤ ·)
  paths := facts.paths
  copiesByDst h v :=
    dedupAdjacent <| (facts.assign.filterMap fun (f, dst, dp, src, sp) =>
      if (f = h ∧ dst = v) ∧ dp.isEmpty ∧ sp.isEmpty ∧ dst.asFormal = none ∧ dst ≠ src ∧ !isCallReturn dst then
        some src
      else none).insertionSort fun a b => (a.contentCmp b).isLE
  sinkExtByVar h v :=
    (facts.endpoints.filterMap fun ep =>
      if ep.direction = .backward ∧ ep.infunc = h ∧ ep.vertex.var = v then some ep.vertex.path
      else none).insertionSort fun a b => (a.contentCmp b).isLE
  valueOfSource := lastInserted facts.valueOfSourceRows
  sinkOfValue := lastInserted facts.sinkOfValueRows

variable (graph : TaintSearchGraph)

/-- A value-derived step at a source: its `#value` is tainted. -/
def sourceValueSteps (n : TaintNode) : List (TaintNode × FlowEdge) :=
  (graph.valueOfSource n.vertex).toList.map fun vp => ({ n with path := vp }, .intra)

/-- A value-derived step at a sink: its `#value` reaching it is a flow to the sink. -/
def sinkValueSteps (n : TaintNode) : List (TaintNode × FlowEdge) :=
  (graph.sinkOfValue n.vertex).toList.map fun sp => ({ n with path := sp }, .intra)

/-- Direct flow with path substitution, for materialized paths only. A whole-variable copy carries the
same object; any other step derives afresh. -/
def assignSteps (n : TaintNode) : List (TaintNode × FlowEdge) :=
  (graph.assignBySrc n.func n.var).filterMap fun (g, dst, dp, sp) =>
    (n.path.substitutePrefix sp dp).bind fun p2 =>
      if p2 ∈ graph.paths then
        some (⟨g, dst, p2, n.level, if dp.isEmpty ∧ sp.isEmpty then .fixed else .all⟩, .intra)
      else none

/-- Address computation off the tainted value. -/
def addressSteps (n : TaintNode) : List (TaintNode × FlowEdge) :=
  (graph.addrsBySrc n.func n.var).filterMap fun (key, g, dst, dp) =>
    if key = n.path ∧ dp ∈ graph.paths then some (⟨g, dst, dp, n.level, .all⟩, .intra) else none

/-- Field-alias back-flow: a taint on `x.p` also lives at `a.(q·p)` of a load `x = a.q`. -/
def loadAliasSteps (n : TaintNode) : List (TaintNode × FlowEdge) :=
  (graph.loadsByDst n.func n.var).filterMap fun (a, q) =>
    if n.path.isEmpty then none
    else if q.concat n.path ∈ graph.paths then
      some (⟨n.func, a, q.concat n.path, n.level, .all⟩, .intra)
    else none

/-- The object hop back to the copy sources, from a fresh derivation only. -/
def copySourceSteps (n : TaintNode) : List (TaintNode × FlowEdge) :=
  if n.scope = .all ∧ (n.path.isEmpty ∨ n.path ∈ graph.paths) then
    (graph.copiesByDst n.func n.var).map fun src => (⟨n.func, src, n.path, n.level, .all⟩, .intra)
  else []

/-- Reads off a saturating vertex, without the materialized-paths gate. -/
def saturatingLoadSteps (n : TaintNode) : List (TaintNode × FlowEdge) :=
  if n.level = .saturating then
    (graph.loadsBySrc n.func n.var).filterMap fun (g, dst, q) =>
      if saturatingRead q n.path then some (⟨g, dst, .empty, .saturating, .all⟩, .intra) else none
  else []

/-- The read a sink performs off a saturating vertex. -/
def saturatingSinkSteps (n : TaintNode) : List (TaintNode × FlowEdge) :=
  if n.level = .saturating then
    (graph.sinkExtByVar n.func n.var).filterMap fun q =>
      if n.path.segs.length < q.segs.length ∧ q.isExtensionOf n.path then
        some ({ n with path := q }, .intra)
      else none
  else []

/-- Function exit: a taint on an out-flowing formal continues at the call vertex of every caller. -/
def returnSteps (n : TaintNode) : List (TaintNode × FlowEdge) :=
  match graph.formalTy n.func n.var, n.var.asFormal with
  | some fty, some formal =>
    if isout formal fty n.path then
      (graph.callersByCallee n.func).map fun site =>
        (⟨site.funcId, .callArg site.insnId formal, n.path, n.level, .all⟩, .ret site)
    else []
  | _, _ => []

/-- Call entry: a taint on a call-arg vertex enters the formal of every callee. -/
def callSteps (n : TaintNode) : List (TaintNode × FlowEdge) :=
  match n.var with
  | .callArg insn formal =>
    (graph.calleeBySite ⟨n.func, insn⟩).filterMap fun callee =>
      if (graph.formalTy callee (.formal formal)).isSome then
        some (⟨callee, .formal formal, n.path, n.level, .all⟩, .call ⟨n.func, insn⟩)
      else none
  | _ => []

/-- A global vertex is the frame's, and the step between a function and the frame is a global one. -/
def rehome (f : FunctionId) (step : TaintNode × FlowEdge) : TaintNode × FlowEdge :=
  let dest := home step.1.func step.1.var
  if dest ≠ step.1.func ∨ (step.1.func ≠ f ∧ f = GLOBAL_FRAME) then
    ({ step.1 with func := dest }, if step.2 = .intra ∧ dest ≠ f then .global else step.2)
  else step

/-- The steps in the order they are tried, each in the function that makes it. -/
def rawSuccessors (n : TaintNode) : List (TaintNode × FlowEdge) :=
  graph.sourceValueSteps n ++ graph.sinkValueSteps n ++ graph.assignSteps n ++ graph.addressSteps n ++
    graph.loadAliasSteps n ++ graph.copySourceSteps n ++ graph.saturatingLoadSteps n ++ graph.saturatingSinkSteps n ++
    graph.returnSteps n ++ graph.callSteps n

def labeledSuccessors (n : TaintNode) : List (TaintNode × FlowEdge) := (graph.rawSuccessors n).map (rehome n.func)

end TaintSearchGraph

/-- The one-bit discipline: a call restricts, a restricted walk does not return, a global step frees. -/
def TaintState.expand (state : TaintState) : FlowEdge → Option TaintState
  | .intra => some state
  | .call _ => some .restricted
  | .ret _ =>
    match state with
    | .free => some .free
    | .restricted => none
  | .global => some .free

/-- The graph a query searches, under the call/return discipline. -/
def QueryFacts.searchGraph (facts : QueryFacts) : Graph.AnnotatedGraph TaintNode FlowEdge TaintState where
  labeledSuccessors := (TaintSearchGraph.new facts).labeledSuccessors
  start := .free
  expand state _ label _ := state.expand label

end Ctadl.Query
