import Ctadl.Index.ValuePaths
import Ctadl.Query.Isolation
import Ctadl.Query.EndpointPaths

/-! # What an endpoint observes of a value

A source on `p` is to taint `p.#value`, and a sink on `p` to see what reaches `p.#value`. Both are a step
of the graph: a source's is keyed by its own vertex, a sink's by the `#value` vertex it starts at. Paths
that differ in a last offset have one `#value`, and the later of their sinks takes the step over.
-/

namespace Ctadl.Query

open Facts Index Graph
open TaintSearchGraph (callSteps new rawSuccessors rehome saturatingSinkSteps)

/-- The path ends in `#value`. -/
def EndsInValue (p : Path) : Prop := (p.segs.getLast?.map (·.isValue)).getD false

instance (p : Path) : Decidable (EndsInValue p) := inferInstanceAs (Decidable (_ = true))

/-- The vertex of the endpoint's `#value`. -/
def QueryEndpoint.valueVertex (ep : QueryEndpoint) : TaintVertex :=
  (ep.infunc, ep.vertex.var, ep.vertex.path.concat VALUE_PATH)

namespace QueryFacts

variable (facts : QueryFacts)

/-- The label's search reaches a vertex. -/
def Visits (label : Label) (x : TaintVertex) : Prop := ∃ st ∈ (facts.labelSearch label).states, st.node.vertex = x

/-- The sink is reported with a source of the label. -/
def ReportedFor (label : Label) (sink : QueryEndpoint) : Prop :=
  ∃ path ∈ (taintSearch facts).findEndpointPaths, path.sink = sink ∧ path.source ∈ facts.sources ∧
    path.source.label = label

/-- A source of the label taints its `#value`; a sink is reported if the label reaches it or its `#value`. -/
def ObservesValue (label : Label) (ep : QueryEndpoint) : Prop :=
  match ep.direction with
  | .forward => ep.label = label → facts.Visits label ep.valueVertex
  | .backward => facts.Visits label ep.taintVertex ∨ facts.Visits label ep.valueVertex → facts.ReportedFor label ep

/-- Every endpoint on a path that does not end in `#value` observes its value. -/
def ObservesValues : Prop :=
  ∀ label, ∀ ep ∈ facts.endpoints, ¬ EndsInValue ep.vertex.path → facts.ObservesValue label ep

/-- Of the sinks that share its `#value` vertex, the last is on the same path. -/
def LastAtValue (sink : QueryEndpoint) : Prop :=
  ∃ before last after, facts.sinks = before ++ last :: after ∧ last.taintVertex = sink.taintVertex ∧
    ∀ other ∈ after, ¬ EndsInValue other.vertex.path → other.valueVertex ≠ sink.valueVertex

/-- The `#value` path is materialized, an endpoint on a global is in the frame, and no later sink on
another path takes a sink's step over. -/
structure Recorded (ep : QueryEndpoint) : Prop where
  materialized : ep.vertex.path.concat VALUE_PATH ∈ facts.paths
  homed : home ep.infunc ep.vertex.var = ep.infunc
  last : ep.direction = .backward → facts.LastAtValue ep

/-- Other programs and endpoints that keep the endpoint, the paths and, for a sink, all sinks. -/
structure Keeps (ep : QueryEndpoint) (other : QueryFacts) : Prop where
  mem : ep ∈ other.endpoints
  paths : other.paths = facts.paths
  sinks : ep.direction = .backward → other.sinks = facts.sinks

end QueryFacts

section Paths

variable {p : Path} {paths : List Path}

theorem endsInValue_concat (p : Path) : EndsInValue (p.concat VALUE_PATH) := by
  have last : (Cir.pushNormalized p.segs .value).getLast? = some .value := by
    dsimp only [Cir.pushNormalized]
    split_ifs with popped last last
    · exact last
    · exact List.getLast?_concat ..
    · exact last
    · exact List.getLast?_concat ..
  rw [EndsInValue, segs_concat_value, last]
  rfl

theorem valuePath_eq_some {vp : Path} :
    valuePath p paths = some vp ↔ ¬ EndsInValue p ∧ p.concat VALUE_PATH = vp ∧ vp ∈ paths := by
  unfold valuePath EndsInValue
  dsimp only
  split_ifs with ends there
  · simp [ends]
  · simp only [Option.some.injEq, ends, Bool.false_eq_true, not_false_eq_true, true_and]
    exact ⟨fun same => ⟨same, same ▸ there⟩, fun found => found.1⟩
  · simp only [false_iff]
    rintro ⟨-, rfl, mem⟩
    exact there mem

end Paths

section Plain

variable {facts : QueryFacts} {endpoints : List QueryEndpoint} {label : Label} {sink : QueryEndpoint}

/-- Where no materialized path ends in `#value`, what a label with plain sources reaches does not depend on other endpoints. -/
theorem connects_withEndpoints_of_plain (mem : sink ∈ facts.sinks)
    (same : facts.endpoints.filter (Own label sink) = endpoints.filter (Own label sink))
    (valueless : ∀ p ∈ facts.paths, ¬ EndsInValue p)
    (plain : ∀ ep ∈ facts.sources, ep.label = label → ep.saturating = false) :
    facts.Connects label sink ↔ (facts.withEndpoints endpoints).Connects label sink := by
  have none (p : Path) : valuePath p facts.paths = none := by
    rw [Option.eq_none_iff_forall_ne_some]
    intro vp found
    obtain ⟨-, rfl, materialized⟩ := valuePath_eq_some.mp found
    exact valueless _ materialized (endsInValue_concat p)
  have others : ∀ ep ∈ (facts.withEndpoints endpoints).sources, ep.label = label → ep.saturating = false := by
    intro ep source own
    obtain ⟨there, forward⟩ := mem_sources.mp source
    have kept : ep ∈ endpoints.filter (Own label sink) :=
      List.mem_filter.mpr ⟨there, decide_eq_true (.inl ⟨forward, own⟩)⟩
    rw [← same] at kept
    exact plain ep (mem_sources.mpr ⟨(List.mem_filter.mp kept).1, forward⟩) own
  have none_back : ¬ (facts.withEndpoints endpoints).Leaks facts label sink := not_leaks_of_plain none others
  rw [connects_iff_shared_or_leaks label endpoints mem, connects_other_iff mem same,
    or_iff_left (not_leaks_of_plain none plain), or_iff_left none_back]

/-- `y = x`, with a source on `x` and a sink on `y`. -/
private def copyLocal : QueryFacts where
  formalParam := []
  call := []
  assign := [(0, .local "y", .empty, .local "x", .empty)]
  paths := [.empty]
  externalFunction := []
  endpoints := [sourceAt "A" (.local "x") .empty, sinkAt "S" (.local "y") .empty]

theorem connects_withEndpoints_of_plain_copyLocal :
    copyLocal.Connects "A" (sinkAt "S" (.local "y") .empty) ↔
      (copyLocal.withEndpoints (sourceAt "B" (.local "y") .empty :: copyLocal.endpoints)).Connects "A"
        (sinkAt "S" (.local "y") .empty) :=
  connects_withEndpoints_of_plain (by decide) (by decide) (by decide) (by decide)

end Plain

section Rows

variable {facts : QueryFacts} {sink : QueryEndpoint}

/-- The last insertion under a key has no later one. -/
theorem lastInserted_eq_some {α β : Type} [DecidableEq α] {rows : List (α × β)} {key : α} {value : β} :
    lastInserted rows key = some value ↔
      ∃ before after, rows = before ++ (key, value) :: after ∧ ∀ row ∈ after, row.1 ≠ key := by
  rw [lastInserted, List.lookup_eq_some_iff]
  constructor
  · rintro ⟨after, before, split, fresh⟩
    refine ⟨before.reverse, after.reverse, ?_, ?_⟩
    · rw [← List.reverse_inj, split]
      simp
    · intro row mem same
      exact absurd (fresh row (List.mem_reverse.mp mem)) (by simp [same])
  · rintro ⟨before, after, rfl, fresh⟩
    refine ⟨after.reverse, before.reverse, by simp, fun row mem => ?_⟩
    have other := fresh row (List.mem_reverse.mp mem)
    simpa using fun same => other same.symm

/-- The entry a sink makes for its `#value`. -/
def QueryFacts.sinkValueRow (facts : QueryFacts) (ep : QueryEndpoint) : Option (TaintVertex × Path) :=
  (valuePath ep.vertex.path facts.paths).map fun vp => ((ep.infunc, ep.vertex.var, vp), ep.vertex.path)

theorem sinkOfValueRows_eq : facts.sinkOfValueRows = facts.sinks.filterMap facts.sinkValueRow := by
  rw [QueryFacts.sinks, List.filterMap_filter, QueryFacts.sinkOfValueRows]
  refine List.filterMap_congr fun ep _ => ?_
  cases direction : ep.direction <;> simp [QueryFacts.sinkValueRow]

theorem sinkValueRow_eq_some {ep : QueryEndpoint} {x : TaintVertex} {p : Path} :
    facts.sinkValueRow ep = some (x, p) ↔
      ¬ EndsInValue ep.vertex.path ∧ ep.valueVertex = x ∧ x.2.2 ∈ facts.paths ∧ ep.vertex.path = p := by
  simp only [QueryFacts.sinkValueRow, Option.map_eq_some_iff, valuePath_eq_some, Prod.mk.injEq]
  constructor
  · rintro ⟨vp, ⟨plain, rfl, materialized⟩, rfl, rfl⟩
    exact ⟨plain, rfl, materialized, rfl⟩
  · rintro ⟨plain, rfl, materialized, rfl⟩
    exact ⟨_, ⟨plain, rfl, materialized⟩, rfl, rfl⟩

theorem sinkOfValue_eq_some {x : TaintVertex} {p : Path}
    (found : (new facts).sinkOfValue x = some p) : ∃ sink ∈ facts.sinks,
      ¬ EndsInValue sink.vertex.path ∧ sink.valueVertex = x ∧ x.2.2 ∈ facts.paths ∧ sink.vertex.path = p := by
  have entry := lastInserted_mem found
  rw [sinkOfValueRows_eq] at entry
  obtain ⟨sink, mem, row⟩ := List.mem_filterMap.mp entry
  exact ⟨sink, mem, sinkValueRow_eq_some.mp row⟩

theorem taintVertex_of_valueVertex {ep : QueryEndpoint} (value : ep.valueVertex = sink.valueVertex)
    (path : ep.vertex.path = sink.vertex.path) : ep.taintVertex = sink.taintVertex := by
  obtain ⟨func, var, -⟩ : ep.infunc = sink.infunc ∧ ep.vertex.var = sink.vertex.var ∧ _ := by
    simpa [QueryEndpoint.valueVertex] using value
  rw [QueryEndpoint.taintVertex, QueryEndpoint.taintVertex, func, var, path]

theorem valueVertex_of_taintVertex {ep : QueryEndpoint} (here : ep.taintVertex = sink.taintVertex) :
    ep.valueVertex = sink.valueVertex := by
  obtain ⟨func, var, path⟩ : ep.infunc = sink.infunc ∧ ep.vertex.var = sink.vertex.var ∧ _ := by
    simpa [QueryEndpoint.taintVertex] using here
  rw [QueryEndpoint.valueVertex, QueryEndpoint.valueVertex, func, var, path]

/-- A sink has its step from its `#value` exactly when it is the last there. -/
theorem sinkOfValue_valueVertex (ends : ¬ EndsInValue sink.vertex.path)
    (materialized : sink.vertex.path.concat VALUE_PATH ∈ facts.paths) :
    (new facts).sinkOfValue sink.valueVertex = some sink.vertex.path ↔ facts.LastAtValue sink := by
  change lastInserted facts.sinkOfValueRows _ = _ ↔ _
  rw [lastInserted_eq_some, sinkOfValueRows_eq]
  constructor
  · rintro ⟨before, after, split, fresh⟩
    obtain ⟨init, rest, cut, rfl, tail⟩ := List.filterMap_eq_append_iff.mp split
    obtain ⟨skipped, last, later, rfl, none, found, rfl⟩ := List.filterMap_eq_cons_iff.mp tail
    obtain ⟨-, value, -, path⟩ := sinkValueRow_eq_some.mp found
    refine ⟨init ++ skipped, last, later, by simp [cut], taintVertex_of_valueVertex value path, ?_⟩
    intro other there plain clash
    have row := sinkValueRow_eq_some.mpr ⟨plain, clash, materialized, rfl⟩
    exact fresh _ (List.mem_filterMap.mpr ⟨other, there, row⟩) rfl
  · rintro ⟨before, last, after, split, here, fresh⟩
    have path : last.vertex.path = sink.vertex.path := congrArg (fun x : TaintVertex => x.2.2) here
    have row := sinkValueRow_eq_some.mpr ⟨path ▸ ends, valueVertex_of_taintVertex here, materialized, path⟩
    rw [split, List.filterMap_append, List.filterMap_cons_some row]
    refine ⟨_, _, rfl, ?_⟩
    rintro ⟨x, p⟩ mem rfl
    obtain ⟨other, there, found⟩ := List.mem_filterMap.mp mem
    obtain ⟨plain, clash, -⟩ := sinkValueRow_eq_some.mp found
    exact fresh other there plain clash

end Rows

section Steps

variable {facts : QueryFacts} {label : Label} {n : TaintNode} {ep : QueryEndpoint}

/-- A step along one variable lands in the home of the variable. -/
theorem vertex_rehome_value (p : Path) :
    (rehome n.func ({ n with path := p }, .intra)).1.vertex = (home n.func n.var, n.var, p) := by
  unfold rehome
  dsimp only
  split
  · rfl
  · next moves =>
    have homed : home n.func n.var = n.func := by tauto
    rw [homed]
    rfl

theorem rehome_of_homed {p : Path} (homed : home n.func n.var = n.func) :
    rehome n.func ({ n with path := p }, .intra) = ({ n with path := p }, .intra) := by
  simp [rehome, homed]

theorem visits_iff {x : TaintVertex} :
    facts.Visits label x ↔ ∃ s, facts.searchGraph.Reached (facts.starts label) s ∧ s.1.vertex = x := by
  have done := labelSearch_finished facts label
  constructor
  · rintro ⟨st, mem, there⟩
    obtain ⟨i, stored⟩ := List.mem_iff_getElem?.mp mem
    exact ⟨st.key, done.reached stored, there⟩
  · rintro ⟨s, reached, there⟩
    obtain ⟨i, st, stored, rfl⟩ := done.exists_state reached
    exact ⟨st, List.mem_of_getElem? stored, there⟩

/-- A step along one variable of a homed vertex is taken. -/
theorem visits_of_value_step {x : TaintVertex} {p : Path} (visits : facts.Visits label x) (homed : home x.1 x.2.1 = x.1)
    (step : ∀ n : TaintNode, n.vertex = x →
      ({ n with path := p }, .intra) ∈ (new facts).rawSuccessors n) :
    facts.Visits label (x.1, x.2.1, p) := by
  obtain ⟨⟨n, annot⟩, reached, rfl⟩ := visits_iff.mp visits
  refine visits_iff.mpr ⟨({ n with path := p }, annot), reached.tail ⟨.intra, ?_, rfl⟩, rfl⟩
  have there := List.mem_map.mpr ⟨_, step n rfl, rehome_of_homed homed⟩
  exact there

/-- A recorded source taints its `#value`. -/
theorem visits_value_of_source (source : ep ∈ facts.sources) (ends : ¬ EndsInValue ep.vertex.path)
    (recorded : facts.Recorded ep) : facts.Visits ep.label ep.valueVertex := by
  have start : facts.Visits ep.label ep.taintVertex :=
    visits_iff.mpr ⟨(ep.startNode, .free), .start (mem_starts.mpr ⟨ep, source, rfl, rfl⟩), rfl⟩
  apply visits_of_value_step start recorded.homed
  intro n here
  have path : ep.vertex.path = n.path := congrArg (fun x : TaintVertex => x.2.2) here.symm
  have found := valueOfSource_eq_some.mpr ⟨⟨ep, source, here.symm⟩,
    valuePath_eq_some.mpr ⟨path ▸ ends, rfl, path ▸ recorded.materialized⟩⟩
  have step : ({ n with path := ep.vertex.path.concat VALUE_PATH }, .intra) ∈
      (new facts).sourceValueSteps n :=
    List.mem_map.mpr ⟨_, Option.mem_toList.mpr found, by rw [path]⟩
  simp only [rawSuccessors, List.mem_append]
  tauto

/-- What reaches the `#value` of a recorded sink reaches the sink. -/
theorem visits_of_value (sink : ep ∈ facts.sinks) (ends : ¬ EndsInValue ep.vertex.path) (recorded : facts.Recorded ep)
    (visits : facts.Visits label ep.valueVertex) : facts.Visits label ep.taintVertex := by
  have last := recorded.last (mem_sinks.mp sink).2
  have found := (sinkOfValue_valueVertex ends recorded.materialized).mpr last
  apply visits_of_value_step visits recorded.homed
  intro n here
  have step : ({ n with path := ep.vertex.path }, .intra) ∈ (new facts).sinkValueSteps n :=
    List.mem_map.mpr ⟨_, Option.mem_toList.mpr (here ▸ found), rfl⟩
  simp only [rawSuccessors, List.mem_append]
  tauto

/-- A run that comes to the `#value` of recorded sinks alone reports what reaches it. -/
theorem observesValue_of_recorded (mem : ep ∈ facts.endpoints) (ends : ¬ EndsInValue ep.vertex.path)
    (recorded : (ep.direction = .backward → facts.Visits label ep.valueVertex) → facts.Recorded ep) :
    facts.ObservesValue label ep := by
  unfold QueryFacts.ObservesValue
  cases direction : ep.direction with
  | forward =>
    rintro rfl
    exact visits_value_of_source (mem_sources.mpr ⟨mem, direction⟩) ends (recorded (by simp [direction]))
  | backward =>
    have sink := mem_sinks.mpr ⟨mem, direction⟩
    intro visits
    have there : facts.Visits label ep.taintVertex := by
      rcases visits with own | value
      · exact own
      · exact visits_of_value sink ends (recorded fun _ => value) value
    obtain ⟨st, stored, at_vertex⟩ := there
    exact reported_of_reached sink stored at_vertex

/-- A reported sink is at a vertex that some label's search reaches. -/
theorem visits_of_reportedFor (reported : facts.ReportedFor label ep) : ∃ label, facts.Visits label ep.taintVertex := by
  obtain ⟨path, mem, rfl, source, -⟩ := reported
  obtain ⟨-, -, state, walk⟩ := QueryResult.exists_endpointPath_iff.mp ⟨path, mem, rfl, rfl⟩
  rcases Relation.ReflTransGen.cases_tail walk with same | ⟨s, -, edge, onPath, -⟩
  · have start := mem_starts.mpr ⟨path.source, source, rfl, rfl⟩
    exact ⟨path.source.label, visits_iff.mpr ⟨_, .start start, (Prod.mk.inj same).1.symm⟩⟩
  · obtain ⟨label, -, _, -, s, t, reached, ⟨-, there⟩, ⟨succ, crosses⟩, -⟩ := of_mem_taintEdge onPath
    exact ⟨label, visits_iff.mpr ⟨t, reached.tail ⟨_, succ, crosses⟩, there⟩⟩

end Steps

namespace QueryFacts

/-- Endpoints in a program without a statement. -/
def bare (facts : QueryFacts) (endpoints : List QueryEndpoint) : QueryFacts where
  formalParam := []
  call := []
  assign := []
  paths := facts.paths
  externalFunction := []
  endpoints := endpoints

end QueryFacts

section Exact

variable {facts : QueryFacts} {label : Label} {n : TaintNode} {ep : QueryEndpoint} {m : TaintNode × FlowEdge}

/-- Without statements, only endpoints make steps. -/
theorem rawSuccessors_bare {endpoints : List QueryEndpoint}
    (mem : m ∈ (new (facts.bare endpoints)).rawSuccessors n) :
    m ∈ (new (facts.bare endpoints)).sourceValueSteps n ∨
      m ∈ (new (facts.bare endpoints)).sinkValueSteps n ∨
      m ∈ (new (facts.bare endpoints)).saturatingSinkSteps n := by
  simp only [rawSuccessors, List.mem_append] at mem
  rcases mem with ((((((((value | sink) | assign) | addr) | load) | copy) | read) | ext) | ret) | call
  · exact .inl value
  · exact .inr (.inl sink)
  · exact absurd assign List.not_mem_nil
  · exact absurd addr List.not_mem_nil
  · exact absurd load List.not_mem_nil
  · unfold TaintSearchGraph.copySourceSteps at copy
    split at copy
    · exact absurd copy List.not_mem_nil
    · exact absurd copy List.not_mem_nil
  · unfold TaintSearchGraph.saturatingLoadSteps at read
    split at read
    · exact absurd read List.not_mem_nil
    · exact absurd read List.not_mem_nil
  · exact .inr (.inr ext)
  · exact absurd ret List.not_mem_nil
  · unfold callSteps at call
    split at call
    · exact absurd call List.not_mem_nil
    · exact absurd call List.not_mem_nil

/-- What holds where the sources start and is kept along the steps of a graph holds of what is visited. -/
theorem QueryFacts.Visits.rule {x : TaintVertex} (visits : facts.Visits label x) {p : TaintNode → Prop}
    (start : ∀ source ∈ facts.sources, p source.startNode)
    (step : ∀ n, p n → ∀ raw ∈ (new facts).rawSuccessors n,
      p (rehome n.func raw).1) : ∃ n, p n ∧ n.vertex = x := by
  obtain ⟨s, reached, there⟩ := visits_iff.mp visits
  refine ⟨s.1, ?_, there⟩
  apply reached.rule (p := fun s => p s.1)
  · intro n mem
    obtain ⟨source, forward, -, rfl⟩ := mem_starts.mp mem
    exact start source forward
  · rintro s t known ⟨edge, succ, -⟩
    obtain ⟨raw, mem, same⟩ := List.mem_map.mp succ
    have kept := step s.1 known raw mem
    rwa [same] at kept

theorem path_of_vertex {x : TaintVertex} (here : n.vertex = x) : n.path = x.2.2 :=
  congrArg (fun x : TaintVertex => x.2.2) here

/-- A source alone in a program without a statement taints its `#value` only if it is recorded. -/
theorem recorded_of_source (forward : ep.direction = .forward) (ends : ¬ EndsInValue ep.vertex.path)
    (visits : (facts.bare [ep]).Visits label ep.valueVertex) : facts.Recorded ep := by
  have sources : (facts.bare [ep]).sources = [ep] := by simp [QueryFacts.sources, QueryFacts.bare, forward]
  have sinks : (facts.bare [ep]).sinks = [] := by simp [QueryFacts.sinks, QueryFacts.bare, forward]
  -- The walk is at the source, or it took the one step there is, to the home of the variable.
  obtain ⟨n, there, at_value⟩ := visits.rule (p := fun n => n.vertex = ep.taintVertex ∨
      n.vertex = (home ep.infunc ep.vertex.var, ep.valueVertex.2) ∧ ep.valueVertex.2.2 ∈ facts.paths)
    (by
      intro source mem
      rw [sources, List.mem_singleton] at mem
      rw [mem]
      exact .inl rfl)
    (by
      intro n known raw mem
      rcases rawSuccessors_bare mem with value | sink | ext
      · obtain ⟨vp, found, rfl⟩ := List.mem_map.mp value
        obtain ⟨⟨source, mem, here⟩, value⟩ := valueOfSource_eq_some.mp (Option.mem_toList.mp found)
        rw [sources, List.mem_singleton] at mem
        subst mem
        obtain ⟨-, same, materialized⟩ := valuePath_eq_some.mp value
        have func : source.infunc = n.func := congrArg (fun x : TaintVertex => x.1) here
        have var : source.vertex.var = n.var := congrArg (fun x : TaintVertex => x.2.1) here
        have path : source.vertex.path = n.path := congrArg (fun x : TaintVertex => x.2.2) here
        refine .inr ⟨?_, ?_⟩
        · rw [vertex_rehome_value, QueryEndpoint.valueVertex, func, var, path, same]
        · rw [QueryEndpoint.valueVertex, path, same]
          exact materialized
      · obtain ⟨p, found, rfl⟩ := List.mem_map.mp sink
        obtain ⟨sink, mem, -⟩ := sinkOfValue_eq_some (Option.mem_toList.mp found)
        rw [sinks] at mem
        exact absurd mem List.not_mem_nil
      · unfold saturatingSinkSteps at ext
        split_ifs at ext
        · obtain ⟨q, found, -⟩ := List.mem_filterMap.mp ext
          obtain ⟨sink, mem, -⟩ := mem_sinkExt.mp found
          rw [sinks] at mem
          exact absurd mem List.not_mem_nil
        · exact absurd ext List.not_mem_nil)
  rcases there with start | ⟨stepped, materialized⟩
  · have path : ep.vertex.path.concat VALUE_PATH = ep.vertex.path :=
      (path_of_vertex at_value).symm.trans (path_of_vertex start)
    exact absurd (path ▸ endsInValue_concat ep.vertex.path) ends
  · have homed := congrArg (fun x : TaintVertex => x.1) (stepped.symm.trans at_value)
    exact ⟨materialized, homed, by simp [forward]⟩

/-- A source right at the `#value` of a vertex. -/
def valueProbe (ep : QueryEndpoint) : QueryEndpoint :=
  ⟨ep.infunc, ⟨ep.vertex.var, ep.vertex.path.concat VALUE_PATH⟩, "", .forward, none, false⟩

theorem sinks_bare : (facts.bare (valueProbe ep :: facts.sinks)).sinks = facts.sinks := by
  simp [QueryFacts.sinks, QueryFacts.bare, valueProbe, List.filter_filter]

theorem sources_bare : (facts.bare (valueProbe ep :: facts.sinks)).sources = [valueProbe ep] := by
  have none : facts.sinks.filter (·.direction = .forward) = [] := by
    apply List.filter_eq_nil_iff.mpr
    intro sink mem
    simp [(mem_sinks.mp mem).2]
  simp [QueryFacts.sources, QueryFacts.bare, valueProbe, none]

/-- Taint that starts at the `#value` of a sink, in a program without a statement, reaches the sink only if
it is recorded. -/
theorem recorded_of_sink (ends : ¬ EndsInValue ep.vertex.path)
    (visits : (facts.bare (valueProbe ep :: facts.sinks)).Visits label ep.taintVertex) : facts.Recorded ep := by
  obtain ⟨n, ⟨-, there⟩, at_sink⟩ := visits.rule (p := fun n => n.level = .plain ∧ (n.vertex = ep.valueVertex ∨
      ¬ EndsInValue n.path ∧ (n.vertex = ep.taintVertex → facts.Recorded ep)))
    (by
      intro source mem
      rw [sources_bare, List.mem_singleton] at mem
      rw [mem]
      exact ⟨rfl, .inl rfl⟩)
    (by
      rintro n ⟨plain, known⟩ raw mem
      rcases rawSuccessors_bare mem with value | sinkStep | ext
      · obtain ⟨vp, found, rfl⟩ := List.mem_map.mp value
        obtain ⟨⟨source, mem, here⟩, value⟩ := valueOfSource_eq_some.mp (Option.mem_toList.mp found)
        rw [sources_bare, List.mem_singleton] at mem
        subst mem
        have path : (valueProbe ep).vertex.path = n.path := congrArg (fun x : TaintVertex => x.2.2) here
        exact absurd (path ▸ endsInValue_concat ep.vertex.path) (valuePath_eq_some.mp value).1
      · obtain ⟨p, found, rfl⟩ := List.mem_map.mp sinkStep
        have found := Option.mem_toList.mp found
        obtain ⟨sink, -, ends_sink, here, materialized, rfl⟩ := sinkOfValue_eq_some found
        have value : EndsInValue n.path := by
          rw [path_of_vertex here.symm]
          exact endsInValue_concat _
        have here : n.vertex = ep.valueVertex := known.resolve_right fun other => other.1 value
        have landed := vertex_rehome_value (n := n) sink.vertex.path
        refine ⟨level_rehome.trans plain, .inr ⟨path_of_vertex landed ▸ ends_sink, fun at_sink => ?_⟩⟩
        obtain ⟨homed, -, path⟩ : home n.func n.var = ep.infunc ∧ n.var = ep.vertex.var ∧
            sink.vertex.path = ep.vertex.path := by
          simpa [QueryEndpoint.taintVertex] using landed.symm.trans at_sink
        obtain ⟨func, var, -⟩ : n.func = ep.infunc ∧ n.var = ep.vertex.var ∧ _ := by
          simpa [QueryEndpoint.valueVertex, TaintNode.vertex] using here
        rw [here] at found materialized
        rw [path] at found
        refine ⟨materialized, func ▸ var ▸ homed.trans func.symm, fun _ => ?_⟩
        have last := (sinkOfValue_valueVertex ends materialized).mp found
        rw [QueryFacts.LastAtValue, sinks_bare] at last
        exact last
      · rw [saturatingSinkSteps, plain, if_neg (by decide)] at ext
        exact absurd ext List.not_mem_nil)
  rcases there with start | ⟨-, recorded⟩
  · have path : ep.vertex.path = ep.vertex.path.concat VALUE_PATH :=
      (path_of_vertex at_sink).symm.trans (path_of_vertex start)
    exact absurd (path ▸ endsInValue_concat ep.vertex.path) ends
  · exact recorded at_sink

theorem recorded_congr {other : QueryFacts} (keeps : facts.Keeps ep other) :
    other.Recorded ep ↔ facts.Recorded ep := by
  have last (backward : ep.direction = .backward) : other.LastAtValue ep ↔ facts.LastAtValue ep := by
    rw [QueryFacts.LastAtValue, keeps.sinks backward, QueryFacts.LastAtValue]
  constructor
  · exact fun recorded => ⟨keeps.paths ▸ recorded.materialized, recorded.homed,
      fun backward => (last backward).mp (recorded.last backward)⟩
  · exact fun recorded => ⟨keeps.paths ▸ recorded.materialized, recorded.homed,
      fun backward => (last backward).mpr (recorded.last backward)⟩

/-- An endpoint observes its value in every program only if it is recorded. -/
theorem recorded_of_observesValue (mem : ep ∈ facts.endpoints) (ends : ¬ EndsInValue ep.vertex.path)
    (observes : ∀ other, facts.Keeps ep other → ∀ label, other.ObservesValue label ep) : facts.Recorded ep := by
  cases direction : ep.direction with
  | forward =>
    have keeps : facts.Keeps ep (facts.bare [ep]) := ⟨List.mem_singleton_self _, rfl, by simp [direction]⟩
    have observed := observes _ keeps ep.label
    rw [QueryFacts.ObservesValue, direction] at observed
    exact recorded_of_source direction ends (observed rfl)
  | backward =>
    have sink := mem_sinks.mpr ⟨mem, direction⟩
    have keeps : facts.Keeps ep (facts.bare (valueProbe ep :: facts.sinks)) :=
      ⟨List.mem_cons_of_mem _ sink, rfl, fun _ => sinks_bare⟩
    have observed := observes _ keeps ""
    rw [QueryFacts.ObservesValue, direction] at observed
    have start : (facts.bare (valueProbe ep :: facts.sinks)).Visits "" ep.valueVertex := by
      have source : valueProbe ep ∈ (facts.bare (valueProbe ep :: facts.sinks)).sources := by simp [sources_bare]
      exact visits_iff.mpr ⟨_, .start (mem_starts.mpr ⟨_, source, rfl, rfl⟩), rfl⟩
    obtain ⟨label, visits⟩ := visits_of_reportedFor (observed (.inr start))
    exact recorded_of_sink ends visits

/-- An endpoint observes its value in every run that comes to its `#value` only if it is recorded, and it is
recorded exactly when it observes its value in every program. -/
theorem observesValue_iff (facts : QueryFacts) (ep : QueryEndpoint) (mem : ep ∈ facts.endpoints)
    (ends : ¬ EndsInValue ep.vertex.path) :
    (∀ label, ((ep.direction = .backward → facts.Visits label ep.valueVertex) → facts.Recorded ep) →
      facts.ObservesValue label ep) ∧
    ((∀ other, facts.Keeps ep other → ∀ label, other.ObservesValue label ep) ↔ facts.Recorded ep) := by
  refine ⟨fun label recorded => observesValue_of_recorded mem ends recorded, ?_, ?_⟩
  · exact recorded_of_observesValue mem ends
  · intro recorded other keeps label
    exact observesValue_of_recorded keeps.mem ends fun _ => (recorded_congr keeps).mpr recorded

end Exact

section Shared

instance (facts : QueryFacts) (label : Label) (x : TaintVertex) : Decidable (facts.Visits label x) :=
  inferInstanceAs (Decidable (∃ st ∈ _, _))

instance (facts : QueryFacts) (label : Label) (sink : QueryEndpoint) : Decidable (facts.ReportedFor label sink) :=
  inferInstanceAs (Decidable (∃ path ∈ _, _))

/-- `t` is computed from `x` and stored through `y`; a source on `x`, and sinks on memory at `y`. -/
def storeComputed (sinks : List Path) : QueryFacts where
  formalParam := []
  call := []
  assign := [(0, .local "t", VALUE_PATH, .local "x", .empty),
    (0, .local "y", Path.fromAccesses [.deref], .local "t", .empty)]
  paths := [.empty, VALUE_PATH, Path.fromAccesses [.deref], Path.fromAccesses [.deref, .value],
    Path.fromAccesses [.deref, .offset 4]]
  externalFunction := []
  endpoints := sourceAt "A" (.local "x") .empty :: sinks.map (sinkAt "S" (.local "y"))

/-- The computed value reaches the `#value` of sinks on `y.deref` and `y.deref.[4]`, and the first is not
reported. -/
theorem not_observesValues_of_shared : ¬ ∀ facts : QueryFacts,
    (∀ ep ∈ facts.endpoints, ep.vertex.path.concat VALUE_PATH ∈ facts.paths) → facts.ObservesValues := by
  intro observed
  have first := observed (storeComputed [Path.fromAccesses [.deref], Path.fromAccesses [.deref, .offset 4]])
    (by decide +kernel) "A" (sinkAt "S" (.local "y") (Path.fromAccesses [.deref])) (by decide +kernel)
    (by decide +kernel)
  have reported := first (.inr (by decide +kernel))
  exact absurd reported (by decide +kernel)

/-- A sink on `y.deref` alone is reported. -/
theorem storeComputed_reported : (storeComputed [Path.fromAccesses [.deref]]).ReportedFor "A"
    (sinkAt "S" (.local "y") (Path.fromAccesses [.deref])) := by
  have recorded : (storeComputed [Path.fromAccesses [.deref]]).Recorded
      (sinkAt "S" (.local "y") (Path.fromAccesses [.deref])) :=
    ⟨by decide +kernel, by decide +kernel, fun _ => ⟨[], _, [], by decide +kernel, rfl, by simp⟩⟩
  have observes := (observesValue_iff (storeComputed [Path.fromAccesses [.deref]])
    (sinkAt "S" (.local "y") (Path.fromAccesses [.deref])) (by decide +kernel) (by decide +kernel)).1 "A"
    fun _ => recorded
  exact observes (.inr (by decide +kernel))

end Shared

end Ctadl.Query
