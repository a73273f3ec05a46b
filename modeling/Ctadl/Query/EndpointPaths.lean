import Ctadl.Query.TaintSearch
import Mathlib.Algebra.Group.Action.Defs
import Mathlib.Algebra.Order.BigOperators.Group.Finset

/-! # Source/sink pairs

A report walks the taint graph: its nodes are vertices without level, scope or call/return state, its
edges those of all found paths, and its walks keep the one-bit call/return discipline. A pair is
reported when a walk leads from the source's vertex to the sink's. No reached sink is lost. A pair is
real when the source's own search reaches the sink, and a walk that changes from one found path to
another at a vertex they share need not be.
-/

namespace Ctadl.Query

open Facts Index Graph

/-- A source and a sink, and the graph nodes walked between them. -/
structure EndpointPath where
  source : QueryEndpoint
  sink : QueryEndpoint
  nodes : List ℕ
deriving DecidableEq

namespace QueryResult

variable (result : QueryResult)

/-- The nodes of the taint graph: every tainted vertex and the endpoint that tainted it, and both ends of
every edge. A node's id is its place. -/
def idToNode : List TaintVertex :=
  ((result.taint.flatMap fun (f, _, v, p, ep) => [(f, v, p), ep.taintVertex]) ++
    result.taintEdge.flatMap fun (_, src, dst) => [src, dst]).eraseDups

def nodeToId (x : TaintVertex) : Option ℕ := result.idToNode.idxOf? x

/-- The taint dataflow graph over node ids, walked under the call/return discipline. -/
def flowGraph : AnnotatedGraph ℕ FlowEdge TaintState where
  labeledSuccessors id := result.taintEdge.filterMap fun (edge, src, dst) =>
    if result.nodeToId src = some id then (result.nodeToId dst).map fun dst => (dst, edge) else none
  start := .free
  expand state _ label _ := state.expand label

/-- The endpoints of one direction on tainted vertices, in content order. -/
def endpointsOf (direction : TaintDirection) : List QueryEndpoint :=
  dedupAdjacent <| ((result.taint.map fun (_, _, _, _, ep) => ep).filter (·.direction = direction)).insertionSort
    fun a b => (a.contentCmp b).isLE

/-- Pops enough for any search of the graph. -/
def pathFuel : ℕ := 1 + 2 * result.idToNode.length * result.taintEdge.length

/-- Finds the source -> sink paths: every pair of endpoints connected in the taint graph. -/
def findEndpointPaths : List EndpointPath :=
  (result.endpointsOf .backward).flatMap fun sink =>
    match result.nodeToId sink.taintVertex with
    | none => []
    | some target =>
      (result.endpointsOf .forward).filterMap fun source =>
        (result.nodeToId source.taintVertex).bind fun start =>
          (AnnotatedPathSearch.findAnnotatedPathToSet result.flowGraph (fun n _ => n = target) result.pathFuel start).map
            fun path => ⟨source, sink, path.map Prod.fst⟩

/-- One step of a walk over the taint graph. -/
def FlowStep (s t : TaintVertex × TaintState) : Prop :=
  ∃ edge, (edge, s.1, t.1) ∈ result.taintEdge ∧ s.2.expand edge = some t.2

/-- A walk leads from one vertex to another. -/
def Connected (x y : TaintVertex) : Prop := ∃ state, Relation.ReflTransGen result.FlowStep (x, .free) (y, state)

variable {result} {x y : TaintVertex} {i j : ℕ}

theorem nodeToId_eq_some (found : result.nodeToId x = some i) : result.idToNode[i]? = some x := by
  obtain ⟨inside, same, -⟩ := List.idxOf?_eq_some_iff.mp found
  exact List.getElem?_eq_some_iff.mpr ⟨inside, by simpa using same⟩

theorem nodeToId_injective (left : result.nodeToId x = some i) (right : result.nodeToId y = some i) : x = y :=
  Option.some.inj ((nodeToId_eq_some left).symm.trans (nodeToId_eq_some right))

theorem exists_nodeToId (mem : x ∈ result.idToNode) : ∃ i, result.nodeToId x = some i := by
  refine Option.ne_none_iff_exists'.mp fun absent => ?_
  exact List.idxOf?_eq_none_iff.mp absent mem

theorem edge_interned {edge : FlowEdge} (mem : (edge, x, y) ∈ result.taintEdge) :
    x ∈ result.idToNode ∧ y ∈ result.idToNode := by
  constructor <;>
    exact List.mem_eraseDups.mpr (List.mem_append_right _ (List.mem_flatMap.mpr ⟨_, mem, by simp⟩))

theorem endpoint_interned {direction : TaintDirection} {ep : QueryEndpoint}
    (mem : ep ∈ result.endpointsOf direction) : ep.taintVertex ∈ result.idToNode := by
  simp only [endpointsOf, mem_dedupAdjacent, List.mem_insertionSort, List.mem_filter, List.mem_map] at mem
  obtain ⟨⟨⟨f, state, v, p, ep'⟩, row, rfl⟩, -⟩ := mem
  exact List.mem_eraseDups.mpr (List.mem_append_left _ (List.mem_flatMap.mpr ⟨_, row, by simp⟩))

theorem mem_labeledSuccessors {edge : FlowEdge} : (j, edge) ∈ result.flowGraph.labeledSuccessors i ↔
    ∃ x y, (edge, x, y) ∈ result.taintEdge ∧ result.nodeToId x = some i ∧ result.nodeToId y = some j := by
  simp only [flowGraph, List.mem_filterMap, Option.ite_none_right_eq_some, Option.map_eq_some_iff, Prod.mk.injEq]
  constructor
  · rintro ⟨⟨_, x, y⟩, mem, source, _, dest, rfl, rfl⟩
    exact ⟨x, y, mem, source, dest⟩
  · rintro ⟨x, y, mem, source, dest⟩
    exact ⟨_, mem, source, j, dest, rfl, rfl⟩

/-- The walks over ids are the walks over vertices. -/
theorem reached_iff {state : TaintState} (start : result.nodeToId x = some i) (target : result.nodeToId y = some j) :
    result.flowGraph.Reached [i] (j, state) ↔ Relation.ReflTransGen result.FlowStep (x, .free) (y, state) := by
  constructor
  · intro reached
    have walk : ∃ y, result.nodeToId y = some (j, state).1 ∧
        Relation.ReflTransGen result.FlowStep (x, .free) (y, (j, state).2) := by
      apply reached.rule (p := fun s => ∃ y, result.nodeToId y = some s.1 ∧
        Relation.ReflTransGen result.FlowStep (x, .free) (y, s.2))
      · intro n mem
        rw [List.mem_singleton.mp mem]
        exact ⟨x, start, .refl⟩
      · rintro ⟨n, a⟩ ⟨m, b⟩ ⟨u, known, walk⟩ ⟨edge, mem, crosses⟩
        obtain ⟨u', w, edge_mem, source, dest⟩ := mem_labeledSuccessors.mp mem
        cases nodeToId_injective known source
        exact ⟨w, dest, walk.tail ⟨edge, edge_mem, crosses⟩⟩
    obtain ⟨y', known, walk⟩ := walk
    cases nodeToId_injective target known
    exact walk
  · intro walk
    have reached : ∀ s, Relation.ReflTransGen result.FlowStep (x, .free) s →
        ∃ j, result.nodeToId s.1 = some j ∧ result.flowGraph.Reached [i] (j, s.2) := by
      intro s walk
      induction walk with
      | refl => exact ⟨i, start, .start (.head _)⟩
      | @tail s t _ step ih =>
        obtain ⟨n, known, reached⟩ := ih
        obtain ⟨edge, mem, crosses⟩ := step
        obtain ⟨m, dest⟩ := exists_nodeToId (edge_interned mem).2
        exact ⟨m, dest, reached.tail ⟨edge, mem_labeledSuccessors.mpr ⟨_, _, mem, known, dest⟩, crosses⟩⟩
    obtain ⟨j', known, reached⟩ := reached _ walk
    cases known.symm.trans target
    exact reached

theorem nodeToId_lt (found : result.nodeToId x = some i) : i < result.idToNode.length :=
  (List.getElem?_eq_some_iff.mp (nodeToId_eq_some found)).1

/-- The ids in use, in both states. -/
def idBound (result : QueryResult) : Finset (ℕ × TaintState) :=
  Finset.range result.idToNode.length ×ˢ {.free, .restricted}

theorem mem_idBound {s : ℕ × TaintState} : s ∈ result.idBound ↔ s.1 < result.idToNode.length := by
  obtain ⟨n, state⟩ := s
  cases state <;> simp [idBound]

theorem flowGraph_bounds (inside : i < result.idToNode.length) : result.flowGraph.Bounds [i] result.idBound := by
  refine ⟨fun n mem => ?_, fun s _ t step => ?_⟩
  · rw [List.mem_singleton.mp mem]
    exact mem_idBound.mpr inside
  · obtain ⟨edge, mem, -⟩ := step
    obtain ⟨x, y, -, -, dest⟩ := mem_labeledSuccessors.mp mem
    exact mem_idBound.mpr (nodeToId_lt dest)

theorem pathFuel_enough :
    1 + ∑ s ∈ result.idBound, (result.flowGraph.labeledSuccessors s.1).length ≤ result.pathFuel := by
  have each : ∀ s ∈ result.idBound, (result.flowGraph.labeledSuccessors s.1).length ≤ result.taintEdge.length :=
    fun s _ => List.length_filterMap_le _ _
  have total := Finset.sum_le_card_nsmul _ _ _ each
  have card : result.idBound.card = 2 * result.idToNode.length := by
    rw [idBound, Finset.card_product, Finset.card_range, Finset.card_pair (by decide), Nat.mul_comm]
  rw [card, smul_eq_mul] at total
  exact Nat.add_le_add_left total 1

/-- A path is reported for exactly the pairs of endpoints that a walk connects. -/
theorem exists_endpointPath_iff {source sink : QueryEndpoint} :
    (∃ path ∈ result.findEndpointPaths, path.source = source ∧ path.sink = sink) ↔
      source ∈ result.endpointsOf .forward ∧ sink ∈ result.endpointsOf .backward ∧
        result.Connected source.taintVertex sink.taintVertex := by
  have searched {start target : ℕ} (from_ : result.nodeToId source.taintVertex = some start)
      (to_ : result.nodeToId sink.taintVertex = some target) :
      (AnnotatedPathSearch.findAnnotatedPathToSet result.flowGraph (fun n _ => n = target) result.pathFuel
        start).isSome ↔ result.Connected source.taintVertex sink.taintVertex := by
    rw [AnnotatedPathSearch.isSome_findAnnotatedPathToSet (flowGraph_bounds (nodeToId_lt from_)) pathFuel_enough]
    constructor
    · rintro ⟨⟨n, state⟩, reached, found⟩
      cases of_decide_eq_true found
      exact ⟨state, (reached_iff from_ to_).mp reached⟩
    · rintro ⟨state, walk⟩
      exact ⟨(target, state), (reached_iff from_ to_).mpr walk, decide_eq_true rfl⟩
  constructor
  · rintro ⟨path, mem, rfl, rfl⟩
    obtain ⟨sink, backward, found⟩ := List.mem_flatMap.mp mem
    split at found
    · exact absurd found List.not_mem_nil
    · next target to_ =>
      obtain ⟨source, forward, found⟩ := List.mem_filterMap.mp found
      obtain ⟨start, from_, found⟩ := Option.bind_eq_some_iff.mp found
      obtain ⟨nodes, walked, rfl⟩ := Option.map_eq_some_iff.mp found
      exact ⟨forward, backward, (searched from_ to_).mp (Option.isSome_iff_exists.mpr ⟨nodes, walked⟩)⟩
  · rintro ⟨forward, backward, connected⟩
    obtain ⟨start, from_⟩ := exists_nodeToId (endpoint_interned forward)
    obtain ⟨target, to_⟩ := exists_nodeToId (endpoint_interned backward)
    obtain ⟨nodes, found⟩ := Option.isSome_iff_exists.mp ((searched from_ to_).mpr connected)
    refine ⟨⟨source, sink, nodes.map Prod.fst⟩, List.mem_flatMap.mpr ⟨sink, backward, ?_⟩, rfl, rfl⟩
    rw [to_]
    refine List.mem_filterMap.mpr ⟨source, forward, ?_⟩
    rw [from_, Option.bind_some, found]
    rfl

end QueryResult

section Pairs

variable {facts : QueryFacts} {label : Label} {source sink : QueryEndpoint}

/-- Origins are sources of the label. -/
theorem of_mem_origins {ep : QueryEndpoint} (mem : some ep ∈ facts.origins label) : ep ∈ facts.sourceSet label := by
  have all : ∀ (states : List (SearchState TaintNode FlowEdge TaintState)) (origin : List (Option QueryEndpoint)),
      (∀ ep, some ep ∈ origin → ep ∈ facts.sourceSet label) →
        ∀ ep, some ep ∈ states.foldl (facts.traceOrigin label) origin → ep ∈ facts.sourceSet label := by
    intro states
    induction states with
    | nil => exact fun _ kept => kept
    | cons st states ih =>
      intro origin kept
      refine ih _ fun ep mem => ?_
      rcases List.mem_append.mp mem with old | new
      · exact kept ep old
      · rw [List.mem_singleton] at new
        split at new
        · exact List.mem_of_find?_eq_some new.symm
        · next parent _ =>
          exact kept ep (List.mem_of_getElem? (Option.join_eq_some_iff.mp new.symm))
  exact all _ [] (by simp) ep mem

theorem endpoint_of_taint {row : TaintRow} (mem : row ∈ (taintSearch facts).taint) :
    row.2.2.2.2 ∈ facts.endpoints := by
  simp only [taintSearch, List.mem_append, List.mem_insertionSort, List.mem_dedup, List.mem_flatMap] at mem
  rcases mem with (seed | ⟨label, -, reached⟩) | ⟨label, -, tag⟩
  · obtain ⟨ep, mem, rfl⟩ := List.mem_map.mp seed
    exact mem
  · obtain ⟨⟨st, origin⟩, pair, row⟩ := List.mem_filterMap.mp reached
    have source : ∀ ep, origin = some ep → ep ∈ facts.endpoints := by
      rintro ep rfl
      have set := of_mem_origins (List.of_mem_zip pair).2
      exact (mem_sources.mp (List.mem_filter.mp set).1).1
    dsimp only at row
    split_ifs at row
    split at row
    · obtain ⟨ep, origin, rfl⟩ := Option.map_eq_some_iff.mp row
      exact source ep origin
    · obtain ⟨ep, origin, rfl⟩ := Option.map_eq_some_iff.mp row
      exact source ep origin
    · cases row
  · simp only [QueryFacts.sinkTags, List.mem_flatMap, List.mem_map] at tag
    obtain ⟨_, _, _, _, _, _, sink, mem, rfl⟩ := tag
    exact (mem_sinks.mp (List.mem_filter.mp mem).1).1

/-- The endpoints on tainted vertices are all of them: each has a seed row. -/
theorem mem_endpointsOf {direction : TaintDirection} {ep : QueryEndpoint} :
    ep ∈ (taintSearch facts).endpointsOf direction ↔ ep ∈ facts.endpoints ∧ ep.direction = direction := by
  simp only [QueryResult.endpointsOf, mem_dedupAdjacent, List.mem_insertionSort, List.mem_filter, List.mem_map,
    decide_eq_true_eq]
  refine and_congr_left fun _ => ⟨?_, fun mem => ?_⟩
  · rintro ⟨row, mem, rfl⟩
    exact endpoint_of_taint mem
  · refine ⟨(ep.infunc, .free, ep.vertex.var, ep.vertex.path, ep), ?_, rfl⟩
    exact List.mem_append_left _ (List.mem_append_left _ (List.mem_map.mpr ⟨ep, mem, rfl⟩))

/-- Consecutive states of a path, with one more state. -/
theorem pathEdges_concat {states : List (SearchState TaintNode FlowEdge TaintState)} {path : List ℕ} {q i : ℕ}
    (last : path.getLast? = some q) : pathEdges states (path ++ [i]) = pathEdges states path ++ pathEdges states [q, i] := by
  have zipped : ∀ l : List ℕ, l.getLast? = some q → (l ++ [i]).zip (l ++ [i]).tail = l.zip l.tail ++ [(q, i)] := by
    intro l last
    induction l with
    | nil => cases last
    | cons a l ih =>
      cases l with
      | nil =>
        cases last
        rfl
      | cons b l => simpa using ih (by simpa using last)
  simp [pathEdges, zipped path last]

theorem pathEdges_pair {states : List (SearchState TaintNode FlowEdge TaintState)} {q i : ℕ}
    {origin st : SearchState TaintNode FlowEdge TaintState} {edge : FlowEdge} (before : states[q]? = some origin)
    (after : states[i]? = some st) (crossed : st.edge = some edge) :
    pathEdges states [q, i] = [(edge, origin.node.vertex, st.node.vertex)] := by
  simp [pathEdges, before, after, crossed]

/-- A step of the label's search from a state its sources reach, on the way to `goal`. -/
def StepsToward (facts : QueryFacts) (label : Label) (edge : TaintEdge) (goal : TaintNode × TaintState) : Prop :=
  ∃ s t : TaintNode × TaintState, facts.searchGraph.Reached (facts.starts label) s ∧
    (s.1.vertex = edge.2.1 ∧ t.1.vertex = edge.2.2) ∧
    ((t.1, edge.1) ∈ facts.searchGraph.labeledSuccessors s.1 ∧ s.2.expand edge.1 = some t.2) ∧
    Relation.ReflTransGen facts.searchGraph.Step t goal

/-- The edges of the path to a state are steps on the way to it. -/
theorem stepsToward_of_pathTo {i : ℕ} {st : SearchState TaintNode FlowEdge TaintState}
    (stored : (facts.labelSearch label).states[i]? = some st) :
    ∀ edge ∈ pathEdges (facts.labelSearch label).states ((facts.labelSearch label).pathTo i),
      StepsToward facts label edge st.key := by
  have done := labelSearch_finished facts label
  apply done.path_rule (p := fun i path => ∀ st, (facts.labelSearch label).states[i]? = some st →
    ∀ edge ∈ pathEdges (facts.labelSearch label).states path, StepsToward facts label edge st.key)
  · intro i n _ _ st _ edge mem
    exact absurd mem List.not_mem_nil
  · intro i q origin next annot crossed child parent succ crosses ih st found edge mem
    cases child.symm.trans found
    have last := done.getLast?_pathTo (List.getElem?_eq_some_iff.mp parent).1
    rw [pathEdges_concat last, pathEdges_pair parent child rfl, List.mem_append, List.mem_singleton] at mem
    rcases mem with earlier | rfl
    · obtain ⟨s, t, reached, ends, step, onward⟩ := ih origin parent edge earlier
      exact ⟨s, t, reached, ends, step, onward.tail ⟨crossed, succ, crosses⟩⟩
    · exact ⟨origin.key, (next, annot), done.reached parent, ⟨rfl, rfl⟩, ⟨succ, crosses⟩, .refl⟩
  · exact (List.getElem?_eq_some_iff.mp stored).1
  · exact stored

theorem mem_taintEdge {edge : TaintEdge} :
    edge ∈ (taintSearch facts).taintEdge ↔ ∃ label ∈ facts.sourceLabels, edge ∈ facts.foundEdges label := by
  simp [taintSearch, List.mem_insertionSort, List.mem_dedup]

/-- An edge of the taint graph is a step of some label's search on the way to a sink. -/
theorem of_mem_taintEdge {edge : TaintEdge} (mem : edge ∈ (taintSearch facts).taintEdge) :
    ∃ label ∈ facts.sourceLabels, ∃ goal, facts.isSink goal.1 goal.2 ∧ StepsToward facts label edge goal := by
  obtain ⟨label, known, mem⟩ := mem_taintEdge.mp mem
  obtain ⟨⟨x, path⟩, found, mem⟩ := List.mem_flatMap.mp mem
  obtain ⟨i, st, stored, target, -, rfl⟩ := of_mem_foundPaths found
  exact ⟨label, known, st.key, target, stepsToward_of_pathTo stored edge mem⟩

/-- A walk over found edges leads from a source of the label to every state on a found path. -/
theorem walk_of_pathTo {i : ℕ} {st : SearchState TaintNode FlowEdge TaintState}
    (stored : (facts.labelSearch label).states[i]? = some st)
    (kept : ∀ edge ∈ pathEdges (facts.labelSearch label).states ((facts.labelSearch label).pathTo i),
      edge ∈ (taintSearch facts).taintEdge) :
    ∃ source ∈ facts.sources, source.label = label ∧
      Relation.ReflTransGen (taintSearch facts).FlowStep (source.taintVertex, .free) (st.node.vertex, st.annot) := by
  have done := labelSearch_finished facts label
  have inside := (List.getElem?_eq_some_iff.mp stored).1
  revert st kept
  apply done.path_rule (p := fun i path => ∀ st, (facts.labelSearch label).states[i]? = some st →
    (∀ edge ∈ pathEdges (facts.labelSearch label).states path, edge ∈ (taintSearch facts).taintEdge) →
      ∃ source ∈ facts.sources, source.label = label ∧
        Relation.ReflTransGen (taintSearch facts).FlowStep (source.taintVertex, .free) (st.node.vertex, st.annot))
  · intro i n stored start st found _
    cases stored.symm.trans found
    obtain ⟨source, mem, own, rfl⟩ := mem_starts.mp start
    exact ⟨source, mem, own, .refl⟩
  · intro i q origin next annot crossed child parent _ crosses ih st found kept
    cases child.symm.trans found
    have last := done.getLast?_pathTo (List.getElem?_eq_some_iff.mp parent).1
    rw [pathEdges_concat last, pathEdges_pair parent child rfl] at kept
    obtain ⟨source, mem, own, walk⟩ := ih origin parent fun edge earlier => kept edge (List.mem_append_left _ earlier)
    have step := kept _ (List.mem_append_right _ (List.mem_singleton_self _))
    exact ⟨source, mem, own, walk.tail ⟨crossed, step, crosses⟩⟩
  · exact inside

/-- Every sink a label's search reaches is reported with a source of the label. -/
theorem reported_of_reached (forward : sink ∈ facts.sinks) {st : SearchState TaintNode FlowEdge TaintState}
    (mem : st ∈ (facts.labelSearch label).states) (there : st.node.vertex = sink.taintVertex) :
    ∃ path ∈ (taintSearch facts).findEndpointPaths, path.sink = sink ∧ path.source ∈ facts.sources ∧
      path.source.label = label := by
  have done := labelSearch_finished facts label
  obtain ⟨i, stored⟩ := List.mem_iff_getElem?.mp mem
  obtain ⟨path, found⟩ := (exists_foundPath_iff label forward).mpr ⟨st.key, done.reached stored, there⟩
  obtain ⟨j, target, stored, -, at_vertex, rfl⟩ := of_mem_foundPaths found
  have known : label ∈ facts.sourceLabels := by
    obtain ⟨n, start, -⟩ := done.reached stored
    obtain ⟨source, mem, own, -⟩ := mem_starts.mp start
    exact mem_sourceLabels.mpr ⟨source, mem, own⟩
  obtain ⟨source, source_mem, own, walk⟩ := walk_of_pathTo stored fun edge onPath =>
    mem_taintEdge.mpr ⟨label, known, List.mem_flatMap.mpr ⟨_, found, onPath⟩⟩
  have connected : (taintSearch facts).Connected source.taintVertex sink.taintVertex :=
    ⟨target.annot, at_vertex ▸ walk⟩
  have endpoints := mem_sources.mp source_mem
  have sinks := mem_sinks.mp forward
  obtain ⟨path, reported, rfl, rfl⟩ := QueryResult.exists_endpointPath_iff.mpr
    ⟨mem_endpointsOf.mpr endpoints, mem_endpointsOf.mpr sinks, connected⟩
  exact ⟨path, reported, rfl, source_mem, own⟩

end Pairs

namespace QueryFacts

/-- The source's own search reaches the sink's vertex. -/
def Real (facts : QueryFacts) (source sink : QueryEndpoint) : Prop :=
  ∃ st ∈ (facts.search [source.startNode]).states, st.node.vertex = sink.taintVertex

instance (facts : QueryFacts) (source sink : QueryEndpoint) : Decidable (facts.Real source sink) :=
  inferInstanceAs (Decidable (∃ st ∈ _, _))

/-- Every reported pair is real. -/
def ReportsReal (facts : QueryFacts) : Prop :=
  ∀ path ∈ (taintSearch facts).findEndpointPaths, facts.Real path.source path.sink

/-- Every sink a label's search reaches is reported with a source of the label. -/
def ReportsReached (facts : QueryFacts) : Prop :=
  ∀ label, ∀ sink ∈ facts.sinks, (∃ st ∈ (facts.labelSearch label).states, st.node.vertex = sink.taintVertex) →
    ∃ path ∈ (taintSearch facts).findEndpointPaths, path.sink = sink ∧ path.source ∈ facts.sources ∧
      path.source.label = label

/-- Where the taint of a source gets to a vertex from which the taint of a source steps on toward a sink,
the first, in its own call/return state, gets to the vertex stepped to. -/
def FollowsThrough (facts : QueryFacts) : Prop :=
  ∀ source ∈ facts.sources, ∀ n a, facts.searchGraph.Reached [source.startNode] (n, a) →
    ∀ other ∈ facts.sources, ∀ s t : TaintNode × TaintState, facts.searchGraph.Reached [other.startNode] s →
      s.1.vertex = n.vertex → ∀ edge, (t.1, edge) ∈ facts.searchGraph.labeledSuccessors s.1 →
        s.2.expand edge = some t.2 →
          (∃ goal, Relation.ReflTransGen facts.searchGraph.Step t goal ∧ facts.isSink goal.1 goal.2) →
            ∀ b, a.expand edge = some b →
              ∃ m, facts.searchGraph.Reached [source.startNode] (m, b) ∧ m.vertex = t.1.vertex

end QueryFacts

section Pairs

variable {facts : QueryFacts} {label : Label} {source sink : QueryEndpoint}

theorem real_iff (mem : source ∈ facts.sources) : facts.Real source sink ↔
    ∃ s, facts.searchGraph.Reached [source.startNode] s ∧ s.1.vertex = sink.taintVertex := by
  have inside : ∀ n ∈ [source.startNode], facts.Inside n := by
    intro n start
    rw [List.mem_singleton.mp start]
    exact startNode_inside (mem_sources.mp mem).1
  have done := search_finished inside
  constructor
  · rintro ⟨st, mem, there⟩
    obtain ⟨i, stored⟩ := List.mem_iff_getElem?.mp mem
    exact ⟨st.key, done.reached stored, there⟩
  · rintro ⟨s, reached, there⟩
    obtain ⟨i, st, stored, rfl⟩ := done.exists_state reached
    exact ⟨st, List.mem_of_getElem? stored, there⟩

/-- A source follows every walk over found edges. -/
theorem follows_walk (follows : facts.FollowsThrough) (mem : source ∈ facts.sources) {s : TaintVertex × TaintState}
    (walk : Relation.ReflTransGen (taintSearch facts).FlowStep (source.taintVertex, .free) s) :
    ∃ n, facts.searchGraph.Reached [source.startNode] (n, s.2) ∧ n.vertex = s.1 := by
  induction walk with
  | refl => exact ⟨source.startNode, .start (.head _), rfl⟩
  | @tail s t _ step ih =>
    obtain ⟨n, reached, there⟩ := ih
    obtain ⟨edge, onPath, crosses⟩ := step
    obtain ⟨label, -, goal, isSink, from_, to_, ⟨start, begins, walk⟩, ⟨tail, head⟩, ⟨succ, own⟩, onward⟩ :=
      of_mem_taintEdge onPath
    obtain ⟨other, other_mem, -, rfl⟩ := mem_starts.mp begins
    obtain ⟨m, next, landed⟩ := follows source mem n s.2 reached other other_mem from_ to_
      ⟨_, List.mem_singleton_self _, walk⟩ (tail.trans there.symm) edge succ own ⟨goal, onward, isSink⟩ t.2 crosses
    exact ⟨m, next, landed.trans head⟩

/-- Sources whose taints carry one level and scope at each vertex follow through. -/
theorem followsThrough_of_agree (agree : ∀ source ∈ facts.sources, ∀ other ∈ facts.sources,
    ∀ s t, facts.searchGraph.Reached [source.startNode] s → facts.searchGraph.Reached [other.startNode] t →
      s.1.vertex = t.1.vertex → s.1 = t.1) : facts.FollowsThrough := by
  intro source mem n a reached other other_mem s t from_ there edge succ _ _ b crosses
  have same : s.1 = n := agree other other_mem source mem s (n, a) from_ reached there
  refine ⟨t.1, reached.tail ⟨edge, ?_, crosses⟩, rfl⟩
  rw [← same]
  exact succ

end Pairs

section Splice

/-- An endpoint of function 0. -/
def plainEndpoint (label : Label) (direction : TaintDirection) (v : FlowVariable) : QueryEndpoint :=
  ⟨0, ⟨v, .empty⟩, label, direction, none, false⟩

/-- `y` is a copy of `x` on one path and of `z` on another; a source and a sink on `y`, a source on `x` and
a sink on `z`. -/
def copiesOfTwo : QueryFacts where
  formalParam := []
  call := []
  assign := [(0, .local "y", .empty, .local "x", .empty), (0, .local "y", .empty, .local "z", .empty)]
  paths := [.empty]
  externalFunction := []
  endpoints := [plainEndpoint "A" .forward (.local "x"), plainEndpoint "B" .forward (.local "y"),
    plainEndpoint "S" .backward (.local "y"), plainEndpoint "T" .backward (.local "z")]

/-- `y` is a copy of `x` alone. -/
def copyOfOne : QueryFacts :=
  { copiesOfTwo with
    assign := [(0, .local "y", .empty, .local "x", .empty)]
    endpoints := [plainEndpoint "A" .forward (.local "x"), plainEndpoint "S" .backward (.local "y")] }

/-- The two nodes its search reaches. -/
def copyNodes : List TaintNode := [⟨0, .local "x", .empty, .plain, .all⟩, ⟨0, .local "y", .empty, .plain, .fixed⟩]

end Splice

end Ctadl.Query
