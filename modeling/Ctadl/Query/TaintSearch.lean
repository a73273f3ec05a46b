import Ctadl.Query.Reach

/-! # The taint search

One search per source label, from all sources of the label at once, over the one graph. A search keeps
a path to each sink vertex it reaches; the edges of all found paths, of every label, are the taint
graph a report walks, and its nodes carry no level, scope or call/return state.
-/

namespace Ctadl.Query

open Facts Index Graph

/-- The node a source starts its search from. -/
def QueryEndpoint.startNode (ep : QueryEndpoint) : TaintNode :=
  ⟨ep.infunc, ep.vertex.var, ep.vertex.path, if ep.saturating then .saturating else .plain, .all⟩

/-- A tainted vertex, the state it was reached in, and the endpoint that tainted it. -/
abbrev TaintRow := FunctionId × TaintState × FlowVariable × Path × QueryEndpoint

/-- An edge of the taint graph, source then destination. -/
abbrev TaintEdge := FlowEdge × TaintVertex × TaintVertex

section Order

def siteCmp (a b : InsnSiteId) : Ordering := (compare a.funcId b.funcId).then (compare a.insnId b.insnId)

/-- `none` first. -/
def optionSiteCmp : Option InsnSiteId → Option InsnSiteId → Ordering
  | none, none => .eq
  | none, some _ => .lt
  | some _, none => .gt
  | some a, some b => siteCmp a b

def TaintDirection.rank : TaintDirection → ℕ
  | .forward => 0
  | .backward => 1

def TaintState.rank : TaintState → ℕ
  | .free => 0
  | .restricted => 1

def FlowEdge.rank : FlowEdge → ℕ
  | .intra => 0
  | .call _ => 1
  | .ret _ => 2
  | .global => 3

def FlowEdge.cmp : FlowEdge → FlowEdge → Ordering
  | .call a, .call b => siteCmp a b
  | .ret a, .ret b => siteCmp a b
  | a, b => compare a.rank b.rank

/-- The field order, with the vertex and label compared by content. -/
def QueryEndpoint.contentCmp (a b : QueryEndpoint) : Ordering :=
  (compare a.infunc b.infunc).then <| (a.vertex.contentCmp b.vertex).then <| (compare a.label b.label).then <|
    (compare a.direction.rank b.direction.rank).then <| (optionSiteCmp a.callSite b.callSite).then
      (compare a.saturating.toNat b.saturating.toNat)

/-- Orders taint rows by content. -/
def taintRowCmp (a b : TaintRow) : Ordering :=
  (compare a.1 b.1).then <| (compare a.2.1.rank b.2.1.rank).then <| (a.2.2.1.contentCmp b.2.2.1).then <|
    (a.2.2.2.1.contentCmp b.2.2.2.1).then (a.2.2.2.2.contentCmp b.2.2.2.2)

def vertexCmp (a b : TaintVertex) : Ordering :=
  (compare a.1 b.1).then <| (a.2.1.contentCmp b.2.1).then (a.2.2.contentCmp b.2.2)

def taintEdgeCmp (a b : TaintEdge) : Ordering :=
  (a.1.cmp b.1).then <| (vertexCmp a.2.1 b.2.1).then (vertexCmp a.2.2 b.2.2)

end Order

/-- Report a target, unless its vertex is reported. -/
def report (states : List (SearchState TaintNode FlowEdge TaintState)) (reported : List (TaintVertex × ℕ))
    (target : ℕ) : List (TaintVertex × ℕ) :=
  match states[target]? with
  | none => reported
  | some st => if st.node.vertex ∈ reported.map Prod.fst then reported else reported ++ [(st.node.vertex, target)]

/-- One found path per vertex: the first target state of each. -/
def reportTargets (search : AnnotatedSetSearch TaintNode FlowEdge TaintState) : List (TaintVertex × ℕ) :=
  search.targets.foldl (report search.states) []

/-- The edges between the consecutive states of a path. -/
def pathEdges (states : List (SearchState TaintNode FlowEdge TaintState)) (path : List ℕ) : List TaintEdge :=
  (path.zip path.tail).filterMap fun (before, after) =>
    states[before]?.bind fun origin => states[after]?.bind fun st =>
      st.edge.map fun edge => (edge, origin.node.vertex, st.node.vertex)

namespace QueryFacts

variable (facts : QueryFacts)

def sources : List QueryEndpoint := facts.endpoints.filter (·.direction = .forward)

def sinks : List QueryEndpoint := facts.endpoints.filter (·.direction = .backward)

/-- The labels with a source, in content order. -/
def sourceLabels : List Label := (facts.sources.map (·.label)).dedup.insertionSort (· ≤ ·)

/-- The sources of one label: they share a search. -/
def sourceSet (label : Label) : List QueryEndpoint := facts.sources.filter (·.label = label)

/-- The sinks that name a vertex. -/
def sinkNodes (x : TaintVertex) : List QueryEndpoint := facts.sinks.filter (·.taintVertex = x)

def isSink (n : TaintNode) (_ : TaintState) : Bool := facts.sinkNodes n.vertex ≠ []

/-- The search from some start nodes. -/
def search (starts : List TaintNode) : AnnotatedSetSearch TaintNode FlowEdge TaintState :=
  .findAnnotatedPathsFromSet facts.searchGraph facts.isSink facts.searchFuel starts

/-- The start set of a label: each distinct node once. -/
def starts (label : Label) : List TaintNode := ((facts.sourceSet label).map (·.startNode)).eraseDups

def labelSearch (label : Label) : AnnotatedSetSearch TaintNode FlowEdge TaintState :=
  facts.search (facts.starts label)

/-- The source the next state descends from, given those of the states before it. A start is attributed
to the first source that names it. -/
def traceOrigin (label : Label) (origin : List (Option QueryEndpoint))
    (st : SearchState TaintNode FlowEdge TaintState) : List (Option QueryEndpoint) :=
  origin ++ [match st.parent with
    | none => (facts.sourceSet label).find? (·.startNode = st.node)
    | some parent => origin[parent]?.join]

/-- The source each state descends from: parents precede their children. -/
def origins (label : Label) : List (Option QueryEndpoint) :=
  (facts.labelSearch label).states.foldl (facts.traceOrigin label) []

/-- The rows of the states a label's search reaches at call arguments and sinks. -/
def reachedRows (label : Label) : List TaintRow :=
  ((facts.labelSearch label).states.zip (facts.origins label)).filterMap fun (st, origin) =>
    if st.parent = none then none
    else
      match st.node.var, facts.sinkNodes st.node.vertex with
      | .callArg _ _, _ | _, _ :: _ => origin.map fun ep => (st.node.func, st.annot, st.node.var, st.node.path, ep)
      | _, [] => none

/-- The paths of a label's search, one to each sink vertex it reaches. -/
def foundPaths (label : Label) : List (TaintVertex × List ℕ) :=
  (reportTargets (facts.labelSearch label)).map fun (vertex, target) =>
    (vertex, (facts.labelSearch label).pathTo target)

/-- The edges of the paths a label's search found. -/
def foundEdges (label : Label) : List TaintEdge :=
  (facts.foundPaths label).flatMap fun (_, path) => pathEdges (facts.labelSearch label).states path

/-- Every node on a found path, tagged with the sinks the path leads to. -/
def sinkTags (label : Label) : List TaintRow :=
  (facts.foundPaths label).flatMap fun (vertex, path) =>
    path.flatMap fun i => (facts.labelSearch label).states[i]?.toList.flatMap fun st =>
      (facts.sinkNodes vertex).map fun sink => (st.node.func, st.annot, st.node.var, st.node.path, sink)

end QueryFacts

/-- The relations a report is made from. -/
structure QueryResult where
  taint : List TaintRow
  taintEdge : List TaintEdge

/-- Runs one search per label and keeps the edges of the found paths. -/
def taintSearch (facts : QueryFacts) : QueryResult where
  taint :=
    (facts.endpoints.map fun ep => (ep.infunc, .free, ep.vertex.var, ep.vertex.path, ep)) ++
      facts.sourceLabels.flatMap facts.reachedRows ++
      (facts.sourceLabels.flatMap facts.sinkTags).dedup.insertionSort fun a b => (taintRowCmp a b).isLE
  taintEdge := (facts.sourceLabels.flatMap facts.foundEdges).dedup.insertionSort fun a b => (taintEdgeCmp a b).isLE

section Facts

variable {facts : QueryFacts} {label : Label} {ep : QueryEndpoint}

theorem mem_sources : ep ∈ facts.sources ↔ ep ∈ facts.endpoints ∧ ep.direction = .forward := by
  simp [QueryFacts.sources]

theorem mem_sinks : ep ∈ facts.sinks ↔ ep ∈ facts.endpoints ∧ ep.direction = .backward := by
  simp [QueryFacts.sinks]

theorem mem_sourceLabels : label ∈ facts.sourceLabels ↔ ∃ ep ∈ facts.sources, ep.label = label := by
  simp [QueryFacts.sourceLabels, List.mem_insertionSort, List.mem_dedup]

theorem mem_starts {n : TaintNode} :
    n ∈ facts.starts label ↔ ∃ ep ∈ facts.sources, ep.label = label ∧ ep.startNode = n := by
  simp [QueryFacts.starts, QueryFacts.sourceSet, List.mem_eraseDups, and_assoc]

theorem isSink_iff {n : TaintNode} {state : TaintState} :
    facts.isSink n state ↔ ∃ sink ∈ facts.sinks, sink.taintVertex = n.vertex := by
  simp [QueryFacts.isSink, QueryFacts.sinkNodes, List.filter_eq_nil_iff]

theorem startNode_inside (mem : ep ∈ facts.endpoints) : facts.Inside ep.startNode :=
  ⟨(endpoint_inside mem).1, (endpoint_inside mem).2.1, (endpoint_inside mem).2.2⟩

theorem starts_inside : ∀ n ∈ facts.starts label, facts.Inside n := by
  intro n mem
  obtain ⟨ep, source, -, rfl⟩ := mem_starts.mp mem
  exact startNode_inside (mem_sources.mp source).1

/-- A search from inside nodes finishes. -/
theorem search_finished {starts : List TaintNode} (inside : ∀ n ∈ starts, facts.Inside n) :
    AnnotatedSetSearch.Finished facts.searchGraph facts.isSink starts (facts.search starts) :=
  AnnotatedSetSearch.finished (bounds inside) QueryFacts.card_bound_le

theorem labelSearch_finished (facts : QueryFacts) (label : Label) :
    AnnotatedSetSearch.Finished facts.searchGraph facts.isSink (facts.starts label) (facts.labelSearch label) :=
  search_finished starts_inside

section Report

variable {states : List (SearchState TaintNode FlowEdge TaintState)} {reported : List (TaintVertex × ℕ)} {i : ℕ}
  {x : TaintVertex}

theorem subset_report {target : ℕ} : reported ⊆ report states reported target := by
  unfold report
  split
  · exact List.Subset.refl _
  · split_ifs
    · exact List.Subset.refl _
    · exact List.subset_append_left _ _

theorem exists_mem_report (reported : List (TaintVertex × ℕ)) {target : ℕ} {st : SearchState TaintNode FlowEdge TaintState}
    (stored : states[target]? = some st) : ∃ j, (st.node.vertex, j) ∈ report states reported target := by
  unfold report
  rw [stored]
  dsimp only
  split_ifs with old
  · simpa using old
  · exact ⟨target, List.mem_append_right _ (List.mem_singleton_self _)⟩

theorem of_mem_report {target : ℕ} (mem : (x, i) ∈ report states reported target) :
    (x, i) ∈ reported ∨ i = target ∧ ∃ st, states[i]? = some st ∧ st.node.vertex = x := by
  unfold report at mem
  split at mem
  · exact .inl mem
  · next st stored =>
    split_ifs at mem with old
    · exact .inl mem
    · rcases List.mem_append.mp mem with kept | new
      · exact .inl kept
      · obtain ⟨rfl, rfl⟩ := by simpa using new
        exact .inr ⟨rfl, st, stored, rfl⟩

theorem of_mem_foldl_report {targets : List ℕ} (mem : (x, i) ∈ targets.foldl (report states) reported) :
    (x, i) ∈ reported ∨ i ∈ targets ∧ ∃ st, states[i]? = some st ∧ st.node.vertex = x := by
  induction targets generalizing reported with
  | nil => exact .inl mem
  | cons target targets ih =>
    rcases ih mem with kept | ⟨later, found⟩
    · rcases of_mem_report kept with old | ⟨rfl, found⟩
      · exact .inl old
      · exact .inr ⟨.head _, found⟩
    · exact .inr ⟨.tail _ later, found⟩

theorem subset_foldl_report {targets : List ℕ} : reported ⊆ targets.foldl (report states) reported := by
  induction targets generalizing reported with
  | nil => exact List.Subset.refl _
  | cons target targets ih => exact List.Subset.trans subset_report ih

theorem exists_mem_foldl_report (reported : List (TaintVertex × ℕ)) {targets : List ℕ} {st : SearchState TaintNode FlowEdge TaintState}
    (target : i ∈ targets) (stored : states[i]? = some st) :
    ∃ j, (st.node.vertex, j) ∈ targets.foldl (report states) reported := by
  induction targets generalizing reported with
  | nil => exact absurd target List.not_mem_nil
  | cons first targets ih =>
    rcases List.mem_cons.mp target with rfl | later
    · obtain ⟨j, mem⟩ := exists_mem_report reported stored
      have kept : (st.node.vertex, j) ∈ targets.foldl (report states) (report states reported i) :=
        subset_foldl_report mem
      exact ⟨j, kept⟩
    · exact ih _ later

end Report

/-- A found path leads to a target state at its vertex. -/
theorem of_mem_foundPaths {x : TaintVertex} {path : List ℕ} (found : (x, path) ∈ facts.foundPaths label) :
    ∃ i st, (facts.labelSearch label).states[i]? = some st ∧ facts.isSink st.node st.annot ∧ st.node.vertex = x ∧
      path = (facts.labelSearch label).pathTo i := by
  obtain ⟨⟨y, i⟩, mem, same⟩ := List.mem_map.mp found
  cases same
  rcases of_mem_foldl_report mem with none | ⟨target, st, stored, at_vertex⟩
  · exact absurd none List.not_mem_nil
  · obtain ⟨other, there, isTarget⟩ := ((labelSearch_finished facts label).targets i).mp target
    cases stored.symm.trans there
    exact ⟨i, st, stored, isTarget, at_vertex, rfl⟩

/-- A label's search finds a path to a sink vertex exactly when its sources reach it. -/
theorem exists_foundPath_iff (label : Label) {sink : QueryEndpoint} (mem : sink ∈ facts.sinks) :
    (∃ path, (sink.taintVertex, path) ∈ facts.foundPaths label) ↔
      ∃ s, facts.searchGraph.Reached (facts.starts label) s ∧ s.1.vertex = sink.taintVertex := by
  have done := labelSearch_finished facts label
  constructor
  · rintro ⟨path, found⟩
    obtain ⟨i, st, stored, -, at_vertex, -⟩ := of_mem_foundPaths found
    exact ⟨st.key, done.reached stored, at_vertex⟩
  · rintro ⟨s, reached, at_vertex⟩
    obtain ⟨i, st, stored, rfl⟩ := done.exists_state reached
    have target : i ∈ (facts.labelSearch label).targets :=
      (done.targets i).mpr ⟨st, stored, isSink_iff.mpr ⟨sink, mem, at_vertex.symm⟩⟩
    obtain ⟨j, reported⟩ := exists_mem_foldl_report [] target stored
    rw [← at_vertex]
    exact ⟨_, List.mem_map.mpr ⟨_, reported, rfl⟩⟩

end Facts

end Ctadl.Query
