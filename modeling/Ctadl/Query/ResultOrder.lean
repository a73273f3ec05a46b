import Ctadl.Query.EndpointPaths

/-! # The order of a result

The relations of a query's result, with the handles of names and paths as far as a run can see them. A
handle stands for its content, so what is left of it is its order, in which the sets of a run iterate. Every
list a search walks and every relation of the result is put in content order, and the rows of the facts and
the handles leave no trace in them.
-/

namespace Ctadl.Query

open Facts Index Graph Collections
open TaintSearchGraph (addressSteps assignSteps callSteps new rawSuccessors returnSteps)

/-- The orders of the handles that names and paths were interned under. -/
structure Handles where
  str : Str → Str → Ordering
  path : Path → Path → Ordering
  orders_str : Orders str (fun _ => True) (· = ·)
  orders_path : Orders path (fun _ => True) (· = ·)

/-- Contents interned in their own order. -/
def Handles.byContent : Handles where
  str := compare
  path := Path.contentCmp
  orders_str := .of_ord
  orders_path := Path.orders_contentCmp

/-- What was interned last, first. -/
def Handles.reversed (handles : Handles) : Handles where
  str a b := handles.str b a
  path a b := handles.path b a
  orders_str := handles.orders_str.opposite
  orders_path := handles.orders_path.opposite

/-- A vertex of a tainted call argument, by call instruction. -/
abbrev TaintedInsn := InsnSiteId × Label × FlowVariable × Path

/-- An external function that takes a tainted argument. -/
abbrev AbsorbingRow := FunctionId × QueryEndpoint × FormalIndex

/-- The relations of a result. -/
@[ext]
structure QueryRelations extends QueryResult where
  taintedInsn : List TaintedInsn
  absorbingFunctions : List AbsorbingRow

/-- A set of rows as it iterates: each row once, in the order of its comparison. -/
def setRows {α : Type} [DecidableEq α] (cmp : α → α → Ordering) (rows : List α) : List α :=
  rows.dedup.insertionSort fun a b => (cmp a b).isLE

/-- The tainted arguments among the tainted vertices, returns apart. -/
def taintedInsnRows (taint : List TaintRow) : List TaintedInsn :=
  taint.filterMap fun (f, _, v, p, src) =>
    match v with
    | .callArg insn formal => if 0 ≤ formal then some (⟨f, insn⟩, src.label, v, p) else none
    | _ => none

/-- The external targets of the calls with a tainted argument. -/
def absorbingRows (graph : TaintSearchGraph) (external : List FunctionId) (taint : List TaintRow) : List AbsorbingRow :=
  taint.flatMap fun (f, _, v, _, src) =>
    match v with
    | .callArg insn formal => (graph.calleeBySite ⟨f, insn⟩).filterMap fun target =>
        if target ∈ external then some (target, src, formal) else none
    | _ => []

def taintedInsnCmp (a b : TaintedInsn) : Ordering :=
  (siteCmp a.1 b.1).then <| (compare a.2.1 b.2.1).then <| (a.2.2.1.contentCmp b.2.2.1).then
    (a.2.2.2.contentCmp b.2.2.2)

def absorbingCmp (a b : AbsorbingRow) : Ordering :=
  (compare a.1 b.1).then <| (a.2.1.contentCmp b.2.1).then (compare a.2.2 b.2.2)

namespace Handles

variable (handles : Handles)

/-- The word of a variable: its tag, then the handle of a name, or a call's instruction, and the two bytes of
an index. -/
def variableCmp (v w : FlowVariable) : Ordering :=
  (compare v.rank w.rank).then <| (handles.str v.name w.name).then <| (compare v.insn w.insn).then
    (compare (v.index % 65536) (w.index % 65536))

def endpointCmp (a b : QueryEndpoint) : Ordering :=
  (compare a.infunc b.infunc).then <|
    ((handles.variableCmp a.vertex.var b.vertex.var).then (handles.path a.vertex.path b.vertex.path)).then <|
      (handles.str a.label b.label).then <| (compare a.direction.rank b.direction.rank).then <|
        (optionSiteCmp a.callSite b.callSite).then (compare a.saturating.toNat b.saturating.toNat)

def rowCmp (a b : TaintRow) : Ordering :=
  (compare a.1 b.1).then <| (compare a.2.1.rank b.2.1.rank).then <| (handles.variableCmp a.2.2.1 b.2.2.1).then <|
    (handles.path a.2.2.2.1 b.2.2.2.1).then (handles.endpointCmp a.2.2.2.2 b.2.2.2.2)

def vertexCmp (a b : TaintVertex) : Ordering :=
  (compare a.1 b.1).then <| (handles.variableCmp a.2.1 b.2.1).then (handles.path a.2.2 b.2.2)

def edgeCmp (a b : TaintEdge) : Ordering :=
  (a.1.cmp b.1).then <| (handles.vertexCmp a.2.1 b.2.1).then (handles.vertexCmp a.2.2 b.2.2)

def insnCmp (a b : TaintedInsn) : Ordering :=
  (siteCmp a.1 b.1).then <| (handles.str a.2.1 b.2.1).then <| (handles.variableCmp a.2.2.1 b.2.2.1).then
    (handles.path a.2.2.2 b.2.2.2)

def absorbCmp (a b : AbsorbingRow) : Ordering :=
  (compare a.1 b.1).then <| (handles.endpointCmp a.2.1 b.2.1).then (compare a.2.2 b.2.2)

end Handles

/-- The labels with a source, one search each. -/
def labelsUnder (handles : Handles) (facts : QueryFacts) : List Label :=
  (setRows handles.str (facts.sources.map (·.label))).insertionSort (· ≤ ·)

/-- The endpoints, the reached vertices by search, and the vertices on paths with the sinks they lead to. -/
def taintUnder (handles : Handles) (facts : QueryFacts) : List TaintRow :=
  (facts.endpoints.map fun ep => (ep.infunc, .free, ep.vertex.var, ep.vertex.path, ep)) ++
    (labelsUnder handles facts).flatMap facts.reachedRows ++
    (setRows handles.rowCmp ((labelsUnder handles facts).flatMap facts.sinkTags)).insertionSort fun a b =>
      (taintRowCmp a b).isLE

/-- Runs one search per label, the sets on the way iterating in handle order. -/
def taintSearchUnder (handles : Handles) (facts : QueryFacts) : QueryRelations where
  taint := taintUnder handles facts
  taintEdge := (setRows handles.edgeCmp ((labelsUnder handles facts).flatMap facts.foundEdges)).insertionSort
    fun a b => (taintEdgeCmp a b).isLE
  taintedInsn := (setRows handles.insnCmp (taintedInsnRows (taintUnder handles facts))).insertionSort
    fun a b => (taintedInsnCmp a b).isLE
  absorbingFunctions := (setRows handles.absorbCmp
    (absorbingRows (TaintSearchGraph.new facts) facts.externalFunction (taintUnder handles facts))).insertionSort
      fun a b => (absorbingCmp a b).isLE

/-- The relations as sets of rows in content order. -/
def QueryFacts.relations (facts : QueryFacts) : QueryRelations where
  toQueryResult := taintSearch facts
  taintedInsn := (taintedInsnRows (taintSearch facts).taint).dedup.insertionSort fun a b => (taintedInsnCmp a b).isLE
  absorbingFunctions :=
    (absorbingRows (TaintSearchGraph.new facts) facts.externalFunction (taintSearch facts).taint).dedup.insertionSort
      fun a b => (absorbingCmp a b).isLE

/-- The formal indices of the facts are 16-bit integers. -/
def QueryFacts.FormalsFit (facts : QueryFacts) : Prop := ∀ v ∈ facts.flowVariables, v.Fits

/-- The same facts, with the rows of the program in another order. -/
structure QueryFacts.SameRows (facts other : QueryFacts) : Prop where
  formalParam : facts.formalParam.Perm other.formalParam
  call : facts.call.Perm other.call
  assign : facts.assign.Perm other.assign
  paths : facts.paths.Perm other.paths
  externalFunction : facts.externalFunction = other.externalFunction
  endpoints : facts.endpoints = other.endpoints

/-- One type per formal. -/
def QueryFacts.OneType (facts : QueryFacts) : Prop :=
  ∀ f v ty ty', (f, v, ty) ∈ facts.formalParam → (f, v, ty') ∈ facts.formalParam → ty = ty'

section Orders

theorem orders_siteCmp : Orders siteCmp (fun _ => True) (· = ·) := by
  have parts := (Orders.of_ord.on InsnSiteId.funcId).then (Orders.of_ord.on InsnSiteId.insnId)
  refine parts.mono (by simp) ?_
  rintro ⟨f, i⟩ ⟨g, j⟩ ⟨rfl, rfl⟩
  rfl

/-- The site of an option, and whether there is one. -/
private def siteOf : Option InsnSiteId → InsnSiteId := fun site => site.getD ⟨0, 0⟩

theorem orders_optionSiteCmp : Orders optionSiteCmp (fun _ => True) (· = ·) := by
  have parts := (Orders.of_ord.on fun site : Option InsnSiteId => site.isSome.toNat).then (orders_siteCmp.on siteOf)
  have same : optionSiteCmp = fun a b => (compare a.isSome.toNat b.isSome.toNat).then (siteCmp (siteOf a) (siteOf b)) := by
    funext a b
    cases a <;> cases b <;> simp [optionSiteCmp, siteOf] <;> rfl
  rw [same]
  refine parts.mono (by simp) ?_
  rintro a b ⟨some, site⟩
  cases a <;> cases b <;> simp_all [siteOf]

private def FlowEdge.site : FlowEdge → InsnSiteId
  | .call site | .ret site => site
  | .intra | .global => ⟨0, 0⟩

theorem FlowEdge.orders_cmp : Orders FlowEdge.cmp (fun _ => True) (· = ·) := by
  have parts := (Orders.of_ord.on FlowEdge.rank).then (orders_siteCmp.on FlowEdge.site)
  have same : FlowEdge.cmp = fun a b => (compare a.rank b.rank).then (siteCmp a.site b.site) := by
    funext a b
    cases a <;> cases b <;> simp [FlowEdge.cmp, FlowEdge.rank, FlowEdge.site] <;> rfl
  rw [same]
  refine parts.mono (by simp) ?_
  rintro a b ⟨rank, site⟩
  cases a <;> cases b <;> simp_all [FlowEdge.rank, FlowEdge.site]

theorem TaintDirection.orders_rank :
    Orders (fun a b : TaintDirection => compare a.rank b.rank) (fun _ => True) (· = ·) := by
  refine (Orders.of_ord.on TaintDirection.rank).mono (fun _ => id) fun a b same => ?_
  cases a <;> cases b <;> simp_all [TaintDirection.rank]

theorem TaintState.orders_rank : Orders (fun a b : TaintState => compare a.rank b.rank) (fun _ => True) (· = ·) := by
  refine (Orders.of_ord.on TaintState.rank).mono (fun _ => id) fun a b same => ?_
  cases a <;> cases b <;> simp_all [TaintState.rank]

theorem orders_saturating : Orders (fun a b : Bool => compare a.toNat b.toNat) (fun _ => True) (· = ·) := by
  refine (Orders.of_ord.on Bool.toNat).mono (fun _ => id) fun a b same => ?_
  cases a <;> cases b <;> simp_all

theorem QueryEndpoint.orders_contentCmp : Orders QueryEndpoint.contentCmp (·.vertex.var.Fits) (· = ·) := by
  have tail := (orders_optionSiteCmp.on QueryEndpoint.callSite).then (orders_saturating.on QueryEndpoint.saturating)
  have parts := (Orders.of_ord.on QueryEndpoint.infunc).then <|
    (FlowVertex.orders_contentCmp.on QueryEndpoint.vertex).then <|
      (Orders.of_ord.on QueryEndpoint.label).then <| (TaintDirection.orders_rank.on QueryEndpoint.direction).then tail
  refine parts.mono (fun a fits => ⟨trivial, fits, trivial, trivial, trivial, trivial⟩) ?_
  rintro ⟨f, x, l, d, c, s⟩ ⟨g, y, m, e, c', s'⟩ ⟨rfl, rfl, rfl, rfl, rfl, rfl⟩
  rfl

theorem orders_taintRowCmp :
    Orders taintRowCmp (fun a => a.2.2.1.Fits ∧ a.2.2.2.2.vertex.var.Fits) (· = ·) := by
  have parts := (Orders.of_ord.on fun a : TaintRow => a.1).then <|
    (TaintState.orders_rank.on fun a : TaintRow => a.2.1).then <|
      (FlowVariable.orders_contentCmp.on fun a : TaintRow => a.2.2.1).then <|
        (Path.orders_contentCmp.on fun a : TaintRow => a.2.2.2.1).then
          (QueryEndpoint.orders_contentCmp.on fun a : TaintRow => a.2.2.2.2)
  refine parts.mono (fun a fits => ⟨trivial, trivial, fits.1, trivial, fits.2⟩) ?_
  rintro ⟨f, s, v, p, e⟩ ⟨g, t, w, q, d⟩ ⟨rfl, rfl, rfl, rfl, rfl⟩
  rfl

theorem orders_vertexCmp : Orders vertexCmp (·.2.1.Fits) (· = ·) := by
  have parts := (Orders.of_ord.on fun a : TaintVertex => a.1).then <|
    (FlowVariable.orders_contentCmp.on fun a : TaintVertex => a.2.1).then
      (Path.orders_contentCmp.on fun a : TaintVertex => a.2.2)
  refine parts.mono (fun a fits => ⟨trivial, fits, trivial⟩) ?_
  rintro ⟨f, v, p⟩ ⟨g, w, q⟩ ⟨rfl, rfl, rfl⟩
  rfl

theorem orders_taintEdgeCmp : Orders taintEdgeCmp (fun a => a.2.1.2.1.Fits ∧ a.2.2.2.1.Fits) (· = ·) := by
  have parts := (FlowEdge.orders_cmp.on fun a : TaintEdge => a.1).then <|
    (orders_vertexCmp.on fun a : TaintEdge => a.2.1).then (orders_vertexCmp.on fun a : TaintEdge => a.2.2)
  refine parts.mono (fun a fits => ⟨trivial, fits⟩) ?_
  rintro ⟨e, x, y⟩ ⟨d, z, w⟩ ⟨rfl, rfl, rfl⟩
  rfl

theorem orders_taintedInsnCmp : Orders taintedInsnCmp (·.2.2.1.Fits) (· = ·) := by
  have parts := (orders_siteCmp.on fun a : TaintedInsn => a.1).then <|
    (Orders.of_ord.on fun a : TaintedInsn => a.2.1).then <|
      (FlowVariable.orders_contentCmp.on fun a : TaintedInsn => a.2.2.1).then
        (Path.orders_contentCmp.on fun a : TaintedInsn => a.2.2.2)
  refine parts.mono (fun a fits => ⟨trivial, trivial, fits, trivial⟩) ?_
  rintro ⟨s, l, v, p⟩ ⟨t, m, w, q⟩ ⟨rfl, rfl, rfl, rfl⟩
  rfl

theorem orders_absorbingCmp : Orders absorbingCmp (·.2.1.vertex.var.Fits) (· = ·) := by
  have parts := (Orders.of_ord.on fun a : AbsorbingRow => a.1).then <|
    (QueryEndpoint.orders_contentCmp.on fun a : AbsorbingRow => a.2.1).then
      (Orders.of_ord.on fun a : AbsorbingRow => a.2.2)
  refine parts.mono (fun a fits => ⟨trivial, fits, trivial⟩) ?_
  rintro ⟨f, e, i⟩ ⟨g, d, j⟩ ⟨rfl, rfl, rfl⟩
  rfl

end Orders

section Sets

variable {α : Type} [DecidableEq α] {rows : List α}

theorem perm_setRows (cmp : α → α → Ordering) : (setRows cmp rows).Perm rows.dedup := List.perm_insertionSort _ _

/-- A set put in content order has lost the order it iterates in. -/
theorem sort_setRows (cmp : α → α → Ordering) {content : α → α → Ordering} {good : α → Prop} (orders : Orders content good (· = ·))
    (all : ∀ a ∈ rows, good a) :
    ((setRows cmp rows).insertionSort fun a b => (content a b).isLE) =
      rows.dedup.insertionSort fun a b => (content a b).isLE := by
  refine orders.sort_congr (fun _ _ => id) (perm_setRows cmp) fun a mem => all a ?_
  exact List.mem_dedup.mp ((perm_setRows cmp).subset mem)

end Sets

section Tables

variable {facts other : QueryFacts}

theorem lastInserted_congr {α β : Type} [DecidableEq α] {rows rows' : List (α × β)} (perm : rows.Perm rows')
    (one : ∀ key value value', (key, value) ∈ rows → (key, value') ∈ rows → value = value') (key : α) :
    lastInserted rows key = lastInserted rows' key := by
  cases found : lastInserted rows' key with
  | none =>
    exact lastInserted_eq_none.mpr fun value mem => lastInserted_eq_none.mp found value (perm.subset mem)
  | some value =>
    have there := perm.symm.subset (lastInserted_mem found)
    cases here : lastInserted rows key with
    | none => exact absurd there (lastInserted_eq_none.mp here value)
    | some value' => rw [one key value' value (lastInserted_mem here) there]

attribute [ext] TaintSearchGraph

theorem sinkExtByVar_congr (endpoints : facts.endpoints = other.endpoints) :
    (new facts).sinkExtByVar = (new other).sinkExtByVar := by
  simp only [new, endpoints]

theorem mem_paths_congr (same : facts.SameRows other) (p : Path) : p ∈ facts.paths ↔ p ∈ other.paths :=
  same.paths.mem_iff

theorem valuePath_congr (same : facts.SameRows other) (p : Path) :
    valuePath p facts.paths = valuePath p other.paths := by
  simp only [valuePath, mem_paths_congr same]

theorem valueRows_congr (same : facts.SameRows other) :
    facts.valueOfSourceRows = other.valueOfSourceRows ∧ facts.sinkOfValueRows = other.sinkOfValueRows := by
  simp only [QueryFacts.valueOfSourceRows, QueryFacts.sinkOfValueRows, same.endpoints, valuePath_congr same, and_self]

theorem dst_fits {f : FunctionId} {v w : FlowVariable} {p q : Path} (fits : facts.FormalsFit)
    (mem : (f, v, p, w, q) ∈ facts.assign) : v.Fits := fits v (assign_inside mem).2.1

theorem src_fits {f : FunctionId} {v w : FlowVariable} {p q : Path} (fits : facts.FormalsFit)
    (mem : (f, v, p, w, q) ∈ facts.assign) : w.Fits := fits w (assign_inside mem).2.2

theorem assignBySrc_congr (same : facts.SameRows other) (fits : facts.FormalsFit) :
    (new facts).assignBySrc = (new other).assignBySrc := by
  funext h v
  have parts := (Orders.of_ord.on fun a : FunctionId × FlowVariable × Path × Path => a.1).then <|
    (FlowVariable.orders_contentCmp.on fun a => a.2.1).then <|
      (Path.orders_contentCmp.on fun a => a.2.2.1).then (Path.orders_contentCmp.on fun a => a.2.2.2)
  refine parts.sort_congr ?_ (same.assign.filterMap _) ?_
  · rintro ⟨_, _, _, _⟩ ⟨_, _, _, _⟩ ⟨rfl, rfl, rfl, rfl⟩
    rfl
  · intro a mem
    have row := mem_assignBySrc.mp ((List.mem_insertionSort _).mpr mem)
    exact ⟨trivial, dst_fits fits row.1, trivial, trivial⟩

theorem loadsByDst_congr (same : facts.SameRows other) (fits : facts.FormalsFit) :
    (new facts).loadsByDst = (new other).loadsByDst := by
  funext h v
  have parts := (FlowVariable.orders_contentCmp.on fun a : FlowVariable × Path => a.1).then
    (Path.orders_contentCmp.on fun a => a.2)
  refine parts.sort_congr ?_ (same.assign.filterMap _) ?_
  · rintro ⟨_, _⟩ ⟨_, _⟩ ⟨rfl, rfl⟩
    rfl
  · intro a mem
    have row := mem_loadsByDst.mp ((List.mem_insertionSort _).mpr mem)
    exact ⟨src_fits fits row.1, trivial⟩

theorem loadsBySrc_congr (same : facts.SameRows other) (fits : facts.FormalsFit) :
    (new facts).loadsBySrc = (new other).loadsBySrc := by
  funext h v
  have parts := (Orders.of_ord.on fun a : FunctionId × FlowVariable × Path => a.1).then <|
    (FlowVariable.orders_contentCmp.on fun a => a.2.1).then (Path.orders_contentCmp.on fun a => a.2.2)
  refine parts.sort_congr ?_ (same.assign.filterMap _) ?_
  · rintro ⟨_, _, _⟩ ⟨_, _, _⟩ ⟨rfl, rfl, rfl⟩
    rfl
  · intro a mem
    have row := mem_loadsBySrc.mp ((List.mem_insertionSort _).mpr mem)
    exact ⟨trivial, dst_fits fits row.1.1, trivial⟩

theorem addrsBySrc_congr (same : facts.SameRows other) (fits : facts.FormalsFit) :
    (new facts).addrsBySrc = (new other).addrsBySrc := by
  funext h v
  have parts := (Path.orders_contentCmp.on fun a : Path × FunctionId × FlowVariable × Path => a.1).then <|
    (Orders.of_ord.on fun a => a.2.1).then <|
      (FlowVariable.orders_contentCmp.on fun a => a.2.2.1).then (Path.orders_contentCmp.on fun a => a.2.2.2)
  refine parts.sort_congr ?_ (same.assign.filterMap _) ?_
  · rintro ⟨_, _, _, _⟩ ⟨_, _, _, _⟩ ⟨rfl, rfl, rfl, rfl⟩
    rfl
  · intro a mem
    obtain ⟨sp, fact, -⟩ := mem_addrsBySrc.mp ((List.mem_insertionSort _).mpr mem)
    exact ⟨trivial, trivial, dst_fits fits fact, trivial⟩

theorem copiesByDst_congr (same : facts.SameRows other) (fits : facts.FormalsFit) :
    (new facts).copiesByDst = (new other).copiesByDst := by
  funext h v
  refine congrArg dedupAdjacent ?_
  refine FlowVariable.orders_contentCmp.sort_congr (fun _ _ => id) (same.assign.filterMap _) fun w mem => ?_
  have copy : w ∈ (new facts).copiesByDst h v :=
    mem_dedupAdjacent.mpr ((List.mem_insertionSort _).mpr mem)
  exact src_fits fits (mem_copiesByDst copy)

theorem calls_congr (same : facts.SameRows other) :
    (new facts).callersByCallee = (new other).callersByCallee ∧
      (new facts).calleeBySite = (new other).calleeBySite := by
  constructor
  · funext f
    exact orders_siteCmp.sort_congr (fun _ _ => id) (same.call.filterMap _) fun _ _ => trivial
  · funext site
    refine List.Perm.eq_of_pairwise' (List.pairwise_insertionSort _ _) (List.pairwise_insertionSort _ _) ?_
    exact (List.perm_insertionSort _ _).trans ((same.call.filterMap _).trans (List.perm_insertionSort _ _).symm)

theorem formalTy_congr (same : facts.SameRows other) (one : facts.OneType) :
    (new facts).formalTy = (new other).formalTy := by
  funext f v
  refine lastInserted_congr (same.formalParam.map _) ?_ (f, v)
  rintro ⟨g, w⟩ ty ty' here there
  obtain ⟨⟨_, _, _⟩, mem, equal⟩ := List.mem_map.mp here
  obtain ⟨⟨_, _, _⟩, mem', equal'⟩ := List.mem_map.mp there
  cases equal
  cases equal'
  exact one _ _ _ _ mem mem'

/-- The rows of the program are indexed into the same tables, whatever their order. -/
theorem tables_congr (same : facts.SameRows other) (one : facts.OneType) (fits : facts.FormalsFit) :
    { new facts with paths := other.paths } = new other := by
  obtain ⟨callers, callees⟩ := calls_congr same
  obtain ⟨sources, sinks⟩ := valueRows_congr same
  have valueOfSource : (new facts).valueOfSource = (new other).valueOfSource :=
    congrArg lastInserted sources
  have sinkOfValue : (new facts).sinkOfValue = (new other).sinkOfValue :=
    congrArg lastInserted sinks
  exact TaintSearchGraph.ext (assignBySrc_congr same fits) (loadsByDst_congr same fits) (loadsBySrc_congr same fits)
    (addrsBySrc_congr same fits) (formalTy_congr same one) callers callees rfl (copiesByDst_congr same fits)
    (sinkExtByVar_congr same.endpoints) valueOfSource sinkOfValue

/-- The materialized paths are only looked up. -/
theorem labeledSuccessors_congr {graph : TaintSearchGraph} {paths : List Path} (same : ∀ p, p ∈ graph.paths ↔ p ∈ paths)
    (n : TaintNode) : ({ graph with paths } : TaintSearchGraph).labeledSuccessors n = graph.labeledSuccessors n := by
  simp only [TaintSearchGraph.labeledSuccessors, rawSuccessors, TaintSearchGraph.sourceValueSteps,
    TaintSearchGraph.sinkValueSteps, assignSteps, addressSteps,
    TaintSearchGraph.loadAliasSteps, TaintSearchGraph.copySourceSteps, TaintSearchGraph.saturatingLoadSteps,
    TaintSearchGraph.saturatingSinkSteps, returnSteps, callSteps, same]

/-- The same graph is searched. -/
theorem searchGraph_congr (same : facts.SameRows other) (one : facts.OneType) (fits : facts.FormalsFit) :
    facts.searchGraph = other.searchGraph := by
  have steps : (new facts).labeledSuccessors = (new other).labeledSuccessors := by
    funext n
    rw [← tables_congr same one fits]
    exact (labeledSuccessors_congr (mem_paths_congr same) n).symm
  rw [QueryFacts.searchGraph, steps, QueryFacts.searchGraph]

/-- The same variables take part. -/
theorem flowVariables_perm (same : facts.SameRows other) : facts.flowVariables.Perm other.flowVariables := by
  have actuals : (facts.call.flatMap fun c => facts.formalParam.filterMap fun p =>
      p.2.1.asFormal.map (FlowVariable.callArg c.1.insnId)).Perm
        (other.call.flatMap fun c => other.formalParam.filterMap fun p =>
          p.2.1.asFormal.map (FlowVariable.callArg c.1.insnId)) :=
    (same.call.flatMap_right _).trans (List.Perm.flatMap_left _ fun _ _ => same.formalParam.filterMap _)
  rw [QueryFacts.flowVariables, QueryFacts.flowVariables, same.endpoints]
  exact (((same.assign.flatMap_right _).append_left _).append (same.formalParam.map _)).append actuals

theorem formalsFit_congr (same : facts.SameRows other) (fits : facts.FormalsFit) : other.FormalsFit :=
  fun v mem => fits v ((flowVariables_perm same).symm.subset mem)

/-- And for as many turns. -/
theorem searchFuel_congr (same : facts.SameRows other) : facts.searchFuel = other.searchFuel := by
  have functions : facts.functions.Perm other.functions := by
    rw [QueryFacts.functions, QueryFacts.functions, same.endpoints]
    exact (((same.assign.map _).append_left _).append (same.call.flatMap_right _)).cons _
  have paths : facts.taintPaths.Perm other.taintPaths := by
    rw [QueryFacts.taintPaths, QueryFacts.taintPaths, same.endpoints]
    exact (same.paths.append_left _).cons _
  rw [QueryFacts.searchFuel, functions.length_eq, (flowVariables_perm same).length_eq, paths.length_eq,
    QueryFacts.searchFuel]

theorem labelSearch_congr (same : facts.SameRows other) (one : facts.OneType) (fits : facts.FormalsFit)
    (label : Label) : facts.labelSearch label = other.labelSearch label := by
  have sinks : facts.isSink = other.isSink := by
    funext n state
    have nodes : facts.sinkNodes = other.sinkNodes := by
      funext x
      simp only [QueryFacts.sinkNodes, QueryFacts.sinks, same.endpoints]
    rw [QueryFacts.isSink, nodes]
    rfl
  have starts : facts.starts label = other.starts label := by
    simp only [QueryFacts.starts, QueryFacts.sourceSet, QueryFacts.sources, same.endpoints]
  rw [QueryFacts.labelSearch, QueryFacts.search, searchGraph_congr same one fits, sinks, searchFuel_congr same, starts]
  rfl

theorem rows_congr (same : facts.SameRows other) (one : facts.OneType) (fits : facts.FormalsFit) (label : Label) :
    facts.reachedRows label = other.reachedRows label ∧ facts.foundEdges label = other.foundEdges label ∧
      facts.sinkTags label = other.sinkTags label := by
  have search := labelSearch_congr same one fits label
  have sinks : facts.sinkNodes = other.sinkNodes := by
    funext x
    simp only [QueryFacts.sinkNodes, QueryFacts.sinks, same.endpoints]
  have sources : facts.sourceSet = other.sourceSet := by
    funext label
    simp only [QueryFacts.sourceSet, QueryFacts.sources, same.endpoints]
  have origins : facts.origins label = other.origins label := by
    have trace : facts.traceOrigin = other.traceOrigin := by
      funext label origin st
      simp only [QueryFacts.traceOrigin, sources]
    rw [QueryFacts.origins, search, trace, QueryFacts.origins]
  have paths : facts.foundPaths label = other.foundPaths label := by
    rw [QueryFacts.foundPaths, search, QueryFacts.foundPaths]
  refine ⟨?_, ?_, ?_⟩
  · rw [QueryFacts.reachedRows, search, origins, sinks, QueryFacts.reachedRows]
  · rw [QueryFacts.foundEdges, search, paths, QueryFacts.foundEdges]
  · rw [QueryFacts.sinkTags, search, paths, sinks, QueryFacts.sinkTags]

end Tables

section Result

variable {facts other : QueryFacts} {label : Label}

/-- A row about variables of the facts, tainted by an endpoint of theirs. -/
def RowFits (row : TaintRow) : Prop := row.2.2.1.Fits ∧ row.2.2.2.2.vertex.var.Fits

theorem endpoint_fits {ep : QueryEndpoint} (fits : facts.FormalsFit) (mem : ep ∈ facts.endpoints) :
    ep.vertex.var.Fits := fits _ (endpoint_inside mem).2.1

theorem sink_fits {x : TaintVertex} {sink : QueryEndpoint} (fits : facts.FormalsFit)
    (mem : sink ∈ facts.sinkNodes x) : sink.vertex.var.Fits := by
  have sinks := (List.mem_filter.mp mem).1
  exact endpoint_fits fits (mem_sinks.mp sinks).1

/-- A search stays at the variables of the facts. -/
theorem state_fits {st : SearchState TaintNode FlowEdge TaintState} (fits : facts.FormalsFit)
    (mem : st ∈ (facts.labelSearch label).states) : st.node.var.Fits := by
  obtain ⟨i, stored⟩ := List.mem_iff_getElem?.mp mem
  have reached := (labelSearch_finished facts label).reached stored
  have inside := QueryFacts.mem_bound.mp ((bounds starts_inside).reached reached)
  exact fits _ inside.var

theorem reachedRows_fit (fits : facts.FormalsFit) {row : TaintRow} (mem : row ∈ facts.reachedRows label) :
    row.2.2.1.Fits := by
  obtain ⟨⟨st, origin⟩, paired, made⟩ := List.mem_filterMap.mp mem
  have stored := (List.of_mem_zip paired).1
  dsimp only at made
  have emitted : origin.map (fun ep => (st.node.func, st.annot, st.node.var, st.node.path, ep)) = some row := by
    split_ifs at made
    split at made
    · exact made
    · exact made
    · cases made
  obtain ⟨ep, -, rfl⟩ := Option.map_eq_some_iff.mp emitted
  exact state_fits fits stored

theorem sinkTags_fit (fits : facts.FormalsFit) {row : TaintRow} (mem : row ∈ facts.sinkTags label) : RowFits row := by
  obtain ⟨⟨vertex, path⟩, -, mem⟩ := List.mem_flatMap.mp mem
  obtain ⟨i, -, mem⟩ := List.mem_flatMap.mp mem
  obtain ⟨st, stored, mem⟩ := List.mem_flatMap.mp mem
  obtain ⟨sink, tagged, rfl⟩ := List.mem_map.mp mem
  have found := List.mem_of_getElem? (Option.mem_toList.mp stored)
  exact ⟨state_fits fits found, sink_fits fits tagged⟩

theorem foundEdges_fit (fits : facts.FormalsFit) {edge : TaintEdge} (mem : edge ∈ facts.foundEdges label) :
    edge.2.1.2.1.Fits ∧ edge.2.2.2.1.Fits := by
  obtain ⟨⟨vertex, path⟩, -, mem⟩ := List.mem_flatMap.mp mem
  obtain ⟨⟨before, after⟩, -, made⟩ := List.mem_filterMap.mp mem
  obtain ⟨origin, storedOrigin, made⟩ := Option.bind_eq_some_iff.mp made
  obtain ⟨st, stored, made⟩ := Option.bind_eq_some_iff.mp made
  obtain ⟨label', -, rfl⟩ := Option.map_eq_some_iff.mp made
  exact ⟨state_fits fits (List.mem_of_getElem? storedOrigin), state_fits fits (List.mem_of_getElem? stored)⟩

theorem taintedInsnRows_fit {taint : List TaintRow} (fit : ∀ row ∈ taint, RowFits row) {row : TaintedInsn}
    (mem : row ∈ taintedInsnRows taint) : row.2.2.1.Fits := by
  obtain ⟨⟨f, s, v, p, src⟩, tainted, made⟩ := List.mem_filterMap.mp mem
  cases v with
  | callArg insn formal =>
    obtain ⟨-, rfl⟩ := by simpa using made
    exact (fit _ tainted).1
  | _ => cases made

theorem absorbingRows_fit {graph : TaintSearchGraph} {external : List FunctionId} {taint : List TaintRow}
    (fit : ∀ row ∈ taint, RowFits row) {row : AbsorbingRow} (mem : row ∈ absorbingRows graph external taint) :
    row.2.1.vertex.var.Fits := by
  obtain ⟨⟨f, s, v, p, src⟩, tainted, made⟩ := List.mem_flatMap.mp mem
  cases v with
  | callArg insn formal =>
    obtain ⟨target, -, made⟩ := List.mem_filterMap.mp made
    obtain ⟨-, rfl⟩ := by simpa using made
    exact (fit _ tainted).2
  | _ => exact absurd made List.not_mem_nil

/-- The labels of the searches do not keep the order of their handles. -/
theorem labels_eq (handles : Handles) (facts : QueryFacts) :
    labelsUnder handles facts = facts.sourceLabels := by
  refine List.Perm.eq_of_pairwise' (List.pairwise_insertionSort _ _) (List.pairwise_insertionSort _ _) ?_
  have kept : (labelsUnder handles facts).Perm (facts.sources.map (·.label)).dedup :=
    (List.perm_insertionSort _ _).trans (perm_setRows handles.str)
  exact kept.trans (List.perm_insertionSort _ _).symm

/-- Every row of the result is about variables of the facts. -/
theorem taint_fit (fits : facts.FormalsFit) : ∀ row ∈ (taintSearch facts).taint, RowFits row := by
  intro row mem
  refine ⟨?_, endpoint_fits fits (endpoint_of_taint mem)⟩
  rcases List.mem_append.mp mem with seeded | tagged
  · rcases List.mem_append.mp seeded with seed | reached
    · obtain ⟨ep, given, rfl⟩ := List.mem_map.mp seed
      exact endpoint_fits fits given
    · obtain ⟨label, -, mem⟩ := List.mem_flatMap.mp reached
      exact reachedRows_fit fits mem
  · obtain ⟨label, -, mem⟩ := List.mem_flatMap.mp (List.mem_dedup.mp ((List.mem_insertionSort _).mp tagged))
    exact (sinkTags_fit fits mem).1

/-- Whatever the handles, a run gives the relations in content order. -/
theorem taintSearchUnder_eq (handles : Handles) (fits : facts.FormalsFit) :
    taintSearchUnder handles facts = facts.relations := by
  have tags : ∀ row ∈ facts.sourceLabels.flatMap facts.sinkTags, RowFits row := by
    intro row mem
    obtain ⟨label, -, mem⟩ := List.mem_flatMap.mp mem
    exact sinkTags_fit fits mem
  have edges : ∀ edge ∈ facts.sourceLabels.flatMap facts.foundEdges, edge.2.1.2.1.Fits ∧ edge.2.2.2.1.Fits := by
    intro edge mem
    obtain ⟨label, -, mem⟩ := List.mem_flatMap.mp mem
    exact foundEdges_fit fits mem
  have taint : taintUnder handles facts = (taintSearch facts).taint := by
    simp only [taintUnder, taintSearch, labels_eq, sort_setRows _ orders_taintRowCmp tags]
  have rows := taint_fit fits
  have insns := sort_setRows handles.insnCmp orders_taintedInsnCmp fun _ => taintedInsnRows_fit rows
  have absorbed : ∀ row ∈ absorbingRows (.new facts) facts.externalFunction (taintSearch facts).taint,
      row.2.1.vertex.var.Fits := fun _ => absorbingRows_fit rows
  have absorbing := sort_setRows handles.absorbCmp orders_absorbingCmp absorbed
  ext1
  · exact taint
  · simp only [taintSearchUnder, QueryFacts.relations, taintSearch, labels_eq, sort_setRows _ orders_taintEdgeCmp edges]
  · simp only [taintSearchUnder, QueryFacts.relations, taint, insns]
  · simp only [taintSearchUnder, QueryFacts.relations, taint, absorbing]

theorem taintSearch_congr (same : facts.SameRows other) (one : facts.OneType) (fits : facts.FormalsFit) :
    taintSearch facts = taintSearch other := by
  have labels : facts.sourceLabels = other.sourceLabels := by
    rw [QueryFacts.sourceLabels, QueryFacts.sources, same.endpoints, QueryFacts.sourceLabels, QueryFacts.sources]
  have reached : facts.reachedRows = other.reachedRows := funext fun label => (rows_congr same one fits label).1
  have edges : facts.foundEdges = other.foundEdges := funext fun label => (rows_congr same one fits label).2.1
  have tags : facts.sinkTags = other.sinkTags := funext fun label => (rows_congr same one fits label).2.2
  simp only [taintSearch, labels, reached, edges, tags, same.endpoints]

theorem relations_congr (same : facts.SameRows other) (one : facts.OneType) (fits : facts.FormalsFit) :
    facts.relations = other.relations := by
  have graph : absorbingRows (new facts) = absorbingRows (new other) := by
    funext external taint
    simp only [absorbingRows, (calls_congr same).2]
  rw [QueryFacts.relations, taintSearch_congr same one fits, same.externalFunction, graph, QueryFacts.relations]

/-- Neither the order of the rows nor the handles of names and paths are seen in a result. -/
theorem taintSearchUnder_congr (handles handles' : Handles) (same : facts.SameRows other) (one : facts.OneType)
    (fits : facts.FormalsFit) : taintSearchUnder handles facts = taintSearchUnder handles' other := by
  rw [taintSearchUnder_eq handles fits, taintSearchUnder_eq handles' (formalsFit_congr same fits)]
  exact relations_congr same one fits

end Result

/-- The rows of the program in the opposite order. -/
def QueryFacts.reversed (facts : QueryFacts) : QueryFacts :=
  { facts with
    formalParam := facts.formalParam.reverse
    call := facts.call.reverse
    assign := facts.assign.reverse
    paths := facts.paths.reverse }

theorem sameRows_reversed (facts : QueryFacts) : facts.SameRows facts.reversed :=
  ⟨(List.reverse_perm _).symm, (List.reverse_perm _).symm, (List.reverse_perm _).symm, (List.reverse_perm _).symm,
    rfl, rfl⟩

/-- `y = x; z = x; sink(y, z)`, with a source on `x` and a sink on the first argument. -/
def passBoth : QueryFacts where
  formalParam := [(1, .formal 0, .copied), (1, .formal 1, .copied)]
  call := [(⟨0, 1⟩, 1)]
  assign := [(0, .local "y", .empty, .local "x", .empty), (0, .local "z", .empty, .local "x", .empty),
    (0, .callArg 1 0, .empty, .local "y", .empty), (0, .callArg 1 1, .empty, .local "z", .empty)]
  paths := [.empty, Path.fromAccesses [.field "f"]]
  externalFunction := [1]
  endpoints := [plainEndpoint "A" .forward (.local "x"), plainEndpoint "S" .backward (.callArg 1 0)]

/-- The three tainted arguments, in one order whichever is interned first. -/
theorem taintSearchUnder_passBoth :
    (taintSearchUnder .byContent passBoth).taintedInsn.length = 3 ∧
      taintSearchUnder .byContent passBoth = taintSearchUnder Handles.byContent.reversed passBoth.reversed := by
  have one : passBoth.OneType := by
    intro f v ty ty' here there
    simp only [passBoth, List.mem_cons, List.not_mem_nil, or_false, Prod.mk.injEq] at here there
    rcases here with ⟨-, -, rfl⟩ | ⟨-, -, rfl⟩ <;> rcases there with ⟨-, -, rfl⟩ | ⟨-, -, rfl⟩ <;> rfl
  have fits : passBoth.FormalsFit := by
    simp [QueryFacts.FormalsFit, QueryFacts.flowVariables, passBoth, plainEndpoint, FlowVariable.asFormal,
      FlowVariable.Fits]
  refine ⟨by decide +kernel, ?_⟩
  exact taintSearchUnder_congr _ _ (sameRows_reversed passBoth) one fits

end Ctadl.Query
