import Ctadl.Query.TaintSearch

/-! # Labels and sinks in one graph

All labels search one graph, and every source and sink put their steps into it. Whether a label's
search finds a path to a sink therefore depends on the endpoints of other labels and on other sinks:
their steps carry the label's taint on, and a sink whose `#value` vertex is another's takes its step
over. Two sets of endpoints that agree on the label's sources and on the sink give the same answer
exactly when the flows that use the differing steps do not matter.
-/

namespace Ctadl.Query

open Facts Index Graph
open TaintSearchGraph (new rawSuccessors saturatingSinkSteps)

/-- A walk along one relation keeps to the steps it shares with another, or escapes by one it does not. -/
theorem walk_shared_or_escapes {α : Type*} {r : α → α → Prop} {a b : α} (r' : α → α → Prop)
    (walk : Relation.ReflTransGen r a b) :
    Relation.ReflTransGen (fun x y => r x y ∧ r' x y) a b ∨
      ∃ x y, Relation.ReflTransGen (fun x y => r x y ∧ r' x y) a x ∧ (r x y ∧ ¬ r' x y) ∧
        Relation.ReflTransGen r y b := by
  induction walk with
  | refl => exact .inl .refl
  | @tail b c _ step ih =>
    rcases ih with shared | ⟨x, y, shared, escape, onward⟩
    · by_cases common : r' b c
      · exact .inl (shared.tail ⟨step, common⟩)
      · exact .inr ⟨b, c, shared, ⟨step, common⟩, .refl⟩
    · exact .inr ⟨x, y, shared, escape, onward.tail step⟩

private theorem or_iff_or_left_iff {a b c : Prop} : (a ∨ b ↔ a ∨ c) ↔ a ∨ (b ↔ c) := by tauto

/-- The sources of a label, and one sink. -/
def Own (label : Label) (sink ep : QueryEndpoint) : Prop :=
  (ep.direction = .forward ∧ ep.label = label) ∨ (ep.direction = .backward ∧ ep = sink)

instance (label : Label) (sink ep : QueryEndpoint) : Decidable (Own label sink ep) :=
  inferInstanceAs (Decidable (_ ∨ _))

namespace QueryFacts

/-- The label's search finds a path to the sink. -/
def Connects (facts : QueryFacts) (label : Label) (sink : QueryEndpoint) : Prop :=
  sink.taintVertex ∈ (facts.foundPaths label).map Prod.fst

instance (facts : QueryFacts) (label : Label) (sink : QueryEndpoint) : Decidable (facts.Connects label sink) :=
  inferInstanceAs (Decidable (_ ∈ _))

/-- The same program with other endpoints. -/
def withEndpoints (facts : QueryFacts) (endpoints : List QueryEndpoint) : QueryFacts := { facts with endpoints }

/-- The steps that `facts` has and `other` may lack, by the endpoint that puts them there. -/
inductive ForeignStep (facts other : QueryFacts) (n : TaintNode) : TaintNode × FlowEdge → Prop
  /-- A source at the node, where `other` has none, taints the node's `#value`. -/
  | sourceValue {source : QueryEndpoint} {vp : Path} (mem : source ∈ facts.sources)
      (here : source.taintVertex = n.vertex) (value : valuePath n.path facts.paths = some vp)
      (absent : ∀ ep ∈ other.sources, ep.taintVertex ≠ n.vertex) :
      ForeignStep facts other n ({ n with path := vp }, .intra)
  /-- Of the sinks whose `#value` is the node, the last is at `p`, and the last of `other` is not. -/
  | sinkValue {p : Path} (here : (TaintSearchGraph.new facts).sinkOfValue n.vertex = some p)
      (differs : (TaintSearchGraph.new other).sinkOfValue n.vertex ≠ some p) :
      ForeignStep facts other n ({ n with path := p }, .intra)
  /-- A sink, where `other` has none, is below the saturating node. -/
  | extension {sink : QueryEndpoint} {q : Path} (saturating : n.level = .saturating) (mem : sink ∈ facts.sinks)
      (here : sink.taintVertex = (n.func, n.var, q)) (longer : n.path.segs.length < q.segs.length)
      (extends_ : q.isExtensionOf n.path) (absent : ∀ ep ∈ other.sinks, ep.taintVertex ≠ (n.func, n.var, q)) :
      ForeignStep facts other n ({ n with path := q }, .intra)

/-- A step of a search that `facts` has and `other` may lack. -/
def Escapes (facts other : QueryFacts) (s t : TaintNode × TaintState) : Prop :=
  ∃ raw, facts.ForeignStep other s.1 raw ∧ (TaintSearchGraph.rehome s.1.func raw).1 = t.1 ∧
    s.2.expand (TaintSearchGraph.rehome s.1.func raw).2 = some t.2

/-- The states the label's sources reach by steps that both sets of facts have. -/
def SharedReach (facts other : QueryFacts) (label : Label) (s : TaintNode × TaintState) : Prop :=
  ∃ n ∈ facts.starts label,
    Relation.ReflTransGen (fun s t => facts.searchGraph.Step s t ∧ other.searchGraph.Step s t) (n, .free) s

/-- The label's taint reaches the sink by steps that both have. -/
def SharedFlow (facts other : QueryFacts) (label : Label) (sink : QueryEndpoint) : Prop :=
  ∃ s, facts.SharedReach other label s ∧ s.1.vertex = sink.taintVertex

/-- The label's taint, where it gets by steps that both have, takes a step that `other` may lack, and
goes on to the sink. -/
def Leaks (facts other : QueryFacts) (label : Label) (sink : QueryEndpoint) : Prop :=
  ∃ s t u, facts.SharedReach other label s ∧ facts.Escapes other s t ∧
    Relation.ReflTransGen facts.searchGraph.Step t u ∧ u.1.vertex = sink.taintVertex

end QueryFacts

section Isolation

variable {facts : QueryFacts} {endpoints : List QueryEndpoint} {label : Label} {sink : QueryEndpoint}

theorem connects_iff (mem : sink ∈ facts.sinks) : facts.Connects label sink ↔
    ∃ s, facts.searchGraph.Reached (facts.starts label) s ∧ s.1.vertex = sink.taintVertex := by
  rw [← exists_foundPath_iff label mem, QueryFacts.Connects, List.mem_map]
  constructor
  · rintro ⟨⟨_, path⟩, found, rfl⟩
    exact ⟨path, found⟩
  · rintro ⟨path, found⟩
    exact ⟨_, found, rfl⟩

/-- A source's `#value` step, in terms of the sources. -/
theorem valueOfSource_eq_some {n : TaintNode} {vp : Path} :
    (new facts).valueOfSource n.vertex = some vp ↔
      (∃ source ∈ facts.sources, source.taintVertex = n.vertex) ∧ valuePath n.path facts.paths = some vp := by
  have row {vp : Path} : (n.vertex, vp) ∈ facts.valueOfSourceRows ↔
      (∃ source ∈ facts.sources, source.taintVertex = n.vertex) ∧ valuePath n.path facts.paths = some vp := by
    rw [mem_valueOfSourceRows]
    constructor
    · rintro ⟨ep, mem, forward, here, value⟩
      have path : ep.vertex.path = n.path := congrArg (fun x : TaintVertex => x.2.2) here
      exact ⟨⟨ep, mem_sources.mpr ⟨mem, forward⟩, here⟩, path ▸ value⟩
    · rintro ⟨⟨ep, mem, here⟩, value⟩
      have path : ep.vertex.path = n.path := congrArg (fun x : TaintVertex => x.2.2) here
      obtain ⟨mem, forward⟩ := mem_sources.mp mem
      exact ⟨ep, mem, forward, here, path.symm ▸ value⟩
  constructor
  · exact fun found => row.mp (lastInserted_mem found)
  · intro there
    cases found : (new facts).valueOfSource n.vertex with
    | none => exact absurd (row.mpr there) (lastInserted_eq_none.mp found vp)
    | some other => rw [← there.2, (row.mp (lastInserted_mem found)).2]

theorem mem_sinkExt {f : FunctionId} {v : FlowVariable} {q : Path} :
    q ∈ (new facts).sinkExtByVar f v ↔ ∃ sink ∈ facts.sinks, sink.taintVertex = (f, v, q) := by
  rw [mem_sinkExtByVar]
  simp only [mem_sinks, and_assoc]

/-- The raw steps that other endpoints do not have. -/
theorem foreignStep_of_raw {n : TaintNode} {m : TaintNode × FlowEdge}
    (here : m ∈ (new facts).rawSuccessors n)
    (absent : m ∉ (new (facts.withEndpoints endpoints)).rawSuccessors n) :
    facts.ForeignStep (facts.withEndpoints endpoints) n m := by
  simp only [rawSuccessors, List.mem_append, not_or] at here absent
  obtain ⟨⟨⟨⟨⟨⟨⟨⟨⟨noValue, noSink⟩, noAssign⟩, noAddr⟩, noLoad⟩, noCopy⟩, noRead⟩, noExt⟩, noRet⟩, noCall⟩ := absent
  rcases here with ((((((((value | sink) | assign) | addr) | load) | copy) | read) | ext) | ret) | call
  · obtain ⟨vp, found, rfl⟩ := List.mem_map.mp value
    obtain ⟨⟨source, mem, here⟩, value⟩ := valueOfSource_eq_some.mp (Option.mem_toList.mp found)
    refine .sourceValue mem here value fun ep there same => noValue ?_
    have both := valueOfSource_eq_some.mpr ⟨⟨ep, there, same⟩, value⟩
    exact List.mem_map.mpr ⟨vp, Option.mem_toList.mpr both, rfl⟩
  · obtain ⟨p, found, rfl⟩ := List.mem_map.mp sink
    refine .sinkValue (Option.mem_toList.mp found) fun same => noSink ?_
    exact List.mem_map.mpr ⟨p, Option.mem_toList.mpr same, rfl⟩
  · exact absurd assign noAssign
  · exact absurd addr noAddr
  · exact absurd load noLoad
  · exact absurd copy noCopy
  · exact absurd read noRead
  · unfold saturatingSinkSteps at ext noExt
    split_ifs at ext noExt with saturating
    · obtain ⟨q, found, step⟩ := List.mem_filterMap.mp ext
      obtain ⟨⟨longer, extension⟩, rfl⟩ := by simpa using step
      obtain ⟨sink, mem, here⟩ := mem_sinkExt.mp found
      refine .extension saturating mem here longer extension fun ep there same => noExt ?_
      exact List.mem_filterMap.mpr ⟨q, mem_sinkExt.mpr ⟨ep, there, same⟩, by simp [longer, extension]⟩
    · exact absurd ext List.not_mem_nil
  · exact absurd ret noRet
  · exact absurd call noCall

/-- Every foreign step is a step of the graph. -/
theorem raw_of_foreignStep {other : QueryFacts} {n : TaintNode} {m : TaintNode × FlowEdge}
    (foreign : facts.ForeignStep other n m) : m ∈ (new facts).rawSuccessors n := by
  simp only [rawSuccessors, List.mem_append]
  cases foreign with
  | @sourceValue source vp mem here value =>
    have found := valueOfSource_eq_some.mpr ⟨⟨source, mem, here⟩, value⟩
    have step : ({ n with path := vp }, .intra) ∈ (new facts).sourceValueSteps n :=
      List.mem_map.mpr ⟨vp, Option.mem_toList.mpr found, rfl⟩
    tauto
  | @sinkValue p here =>
    have step : ({ n with path := p }, .intra) ∈ (new facts).sinkValueSteps n :=
      List.mem_map.mpr ⟨p, Option.mem_toList.mpr here, rfl⟩
    tauto
  | @extension sink q saturating mem here longer extension =>
    have step : ({ n with path := q }, .intra) ∈ (new facts).saturatingSinkSteps n := by
      rw [saturatingSinkSteps, if_pos saturating]
      exact List.mem_filterMap.mpr ⟨q, mem_sinkExt.mpr ⟨sink, mem, here⟩, by simp [longer, extension]⟩
    tauto

theorem step_of_escapes {other : QueryFacts} {s t : TaintNode × TaintState} (escapes : facts.Escapes other s t) :
    facts.searchGraph.Step s t := by
  obtain ⟨raw, foreign, node, crosses⟩ := escapes
  refine ⟨_, List.mem_map.mpr ⟨raw, raw_of_foreignStep foreign, ?_⟩, crosses⟩
  rw [← node]

theorem escapes_of_step {s t : TaintNode × TaintState} (step : facts.searchGraph.Step s t)
    (absent : ¬ (facts.withEndpoints endpoints).searchGraph.Step s t) :
    facts.Escapes (facts.withEndpoints endpoints) s t := by
  obtain ⟨label, mem, crosses⟩ := step
  obtain ⟨raw, here, same⟩ := List.mem_map.mp mem
  have missing : raw ∉ (new (facts.withEndpoints endpoints)).rawSuccessors s.1 :=
    fun there => absent ⟨label, List.mem_map.mpr ⟨raw, there, same⟩, crosses⟩
  refine ⟨raw, foreignStep_of_raw here missing, ?_, ?_⟩
  · rw [same]
  · rw [same]
    exact crosses

theorem own_steps {other : QueryFacts} {s t : TaintNode × TaintState}
    (shared : Relation.ReflTransGen (fun s t => facts.searchGraph.Step s t ∧ other.searchGraph.Step s t) s t) :
    Relation.ReflTransGen facts.searchGraph.Step s t := by
  induction shared with
  | refl => exact .refl
  | tail _ step ih => exact ih.tail step.1

/-- A label's taint reaches a sink by shared steps, or by way of a step that is not shared. -/
theorem connects_iff_shared_or_leaks (label : Label) (endpoints : List QueryEndpoint) (mem : sink ∈ facts.sinks) :
    facts.Connects label sink ↔
    facts.SharedFlow (facts.withEndpoints endpoints) label sink ∨
      facts.Leaks (facts.withEndpoints endpoints) label sink := by
  rw [connects_iff mem]
  constructor
  · rintro ⟨u, ⟨n, start, walk⟩, there⟩
    rcases walk_shared_or_escapes (facts.withEndpoints endpoints).searchGraph.Step walk with
      shared | ⟨s, t, shared, ⟨step, absent⟩, onward⟩
    · exact .inl ⟨u, ⟨n, start, shared⟩, there⟩
    · exact .inr ⟨s, t, u, ⟨n, start, shared⟩, escapes_of_step step absent, onward, there⟩
  · rintro (⟨u, ⟨n, start, shared⟩, there⟩ | ⟨s, t, u, ⟨n, start, shared⟩, escapes, onward, there⟩)
    · exact ⟨u, ⟨n, start, own_steps shared⟩, there⟩
    · refine ⟨u, ⟨n, start, ?_⟩, there⟩
      exact ((own_steps shared).tail (step_of_escapes escapes)).trans onward

theorem own_filter {keep : QueryEndpoint → Prop} [DecidablePred keep] (own : ∀ ep, keep ep → Own label sink ep)
    (same : facts.endpoints.filter (Own label sink) = endpoints.filter (Own label sink)) :
    facts.endpoints.filter keep = endpoints.filter keep := by
  have through (l : List QueryEndpoint) : l.filter keep = (l.filter (Own label sink)).filter keep := by
    rw [List.filter_filter]
    refine List.filter_congr fun ep _ => ?_
    by_cases kept : keep ep
    · simp [kept, own ep kept]
    · simp [kept]
  rw [through, same, ← through]

theorem starts_withEndpoints
    (same : facts.endpoints.filter (Own label sink) = endpoints.filter (Own label sink)) :
    (facts.withEndpoints endpoints).starts label = facts.starts label := by
  have sets : (facts.withEndpoints endpoints).sourceSet label = facts.sourceSet label := by
    simp only [QueryFacts.sourceSet, QueryFacts.sources, List.filter_filter, ← Bool.decide_and]
    exact (own_filter (fun ep kept => .inl ⟨kept.2, kept.1⟩) same).symm
  rw [QueryFacts.starts, sets, QueryFacts.starts]

theorem sink_mem_withEndpoints (mem : sink ∈ facts.sinks)
    (same : facts.endpoints.filter (Own label sink) = endpoints.filter (Own label sink)) :
    sink ∈ (facts.withEndpoints endpoints).sinks := by
  obtain ⟨there, backward⟩ := mem_sinks.mp mem
  have own : sink ∈ facts.endpoints.filter (Own label sink) :=
    List.mem_filter.mpr ⟨there, decide_eq_true (.inr ⟨backward, rfl⟩)⟩
  rw [same] at own
  exact mem_sinks.mpr ⟨(List.mem_filter.mp own).1, backward⟩

theorem sharedFlow_comm (same : facts.endpoints.filter (Own label sink) = endpoints.filter (Own label sink)) :
    (facts.withEndpoints endpoints).SharedFlow facts label sink ↔
      facts.SharedFlow (facts.withEndpoints endpoints) label sink := by
  simp only [QueryFacts.SharedFlow, QueryFacts.SharedReach, starts_withEndpoints same, and_comm]

/-- The other facts connect the label to the sink by shared steps, or by a step of their own. -/
theorem connects_other_iff (mem : sink ∈ facts.sinks)
    (same : facts.endpoints.filter (Own label sink) = endpoints.filter (Own label sink)) :
    (facts.withEndpoints endpoints).Connects label sink ↔
      facts.SharedFlow (facts.withEndpoints endpoints) label sink ∨
        (facts.withEndpoints endpoints).Leaks facts label sink := by
  have restored : (facts.withEndpoints endpoints).withEndpoints facts.endpoints = facts := rfl
  have back := connects_iff_shared_or_leaks label facts.endpoints (sink_mem_withEndpoints mem same)
  rw [restored, sharedFlow_comm same] at back
  exact back

/-- Without `#value` paths and with plain sources, a label's taint takes no foreign step. -/
theorem not_leaks_of_plain {other : QueryFacts} (valueless : ∀ p, valuePath p facts.paths = none)
    (plain : ∀ ep ∈ facts.sources, ep.label = label → ep.saturating = false) : ¬ facts.Leaks other label sink := by
  rintro ⟨s, t, u, ⟨n, start, shared⟩, ⟨raw, foreign, -⟩, -⟩
  have level : s.1.level = .plain := by
    clear foreign
    induction shared with
    | refl =>
      obtain ⟨ep, source, own, rfl⟩ := mem_starts.mp start
      simp [QueryEndpoint.startNode, plain ep source own]
    | tail _ step ih => exact (level_of_step step.1).trans ih
  cases foreign with
  | sourceValue mem here value => exact absurd value (by simp [valueless])
  | sinkValue here =>
    obtain ⟨ep, -, -, -, value⟩ := mem_sinkOfValueRows.mp (lastInserted_mem here)
    exact absurd value (by simp [valueless])
  | extension saturating => exact absurd (saturating.symm.trans level) (by simp)

end Isolation

section Foreign

/-- A source of a label. -/
def sourceAt (label : Label) (v : FlowVariable) (p : Path) : QueryEndpoint := ⟨0, ⟨v, p⟩, label, .forward, none, false⟩

def sinkAt (label : Label) (v : FlowVariable) (p : Path) : QueryEndpoint := ⟨0, ⟨v, p⟩, label, .backward, none, false⟩

/-- `y = x.f`, with a source on `x.f` and a sink on the value of `y`. -/
def readField : QueryFacts where
  formalParam := []
  call := []
  assign := [(0, .local "y", .empty, .local "x", Path.fromAccesses [.field "f"])]
  paths := [.empty, Path.fromAccesses [.field "f"], VALUE_PATH]
  externalFunction := []
  endpoints := [sourceAt "A" (.local "x") (Path.fromAccesses [.field "f"]), sinkAt "S" (.local "y") VALUE_PATH]

end Foreign

end Ctadl.Query
