import Ctadl.Query.SearchGraph

/-! # What a query's search can reach

Every step of the graph stays among the functions, variables and paths the facts mention, so a search
has a finite bound. A table's rows are the facts they were made from.
-/

namespace Ctadl.Query

open Facts Index Graph
open TaintSearchGraph (callSteps copySourceSteps new rawSuccessors rehome returnSteps saturatingLoadSteps saturatingSinkSteps)

section Tables

theorem lastInserted_mem {α β : Type} [DecidableEq α] {rows : List (α × β)} {key : α} {value : β}
    (found : lastInserted rows key = some value) : (key, value) ∈ rows := by
  obtain ⟨before, after, split, -⟩ := List.lookup_eq_some_iff.mp found
  have mem : (key, value) ∈ rows.reverse := by simp [split]
  exact List.mem_reverse.mp mem

theorem lastInserted_eq_none {α β : Type} [DecidableEq α] {rows : List (α × β)} {key : α} :
    lastInserted rows key = none ↔ ∀ value, (key, value) ∉ rows := by
  simp only [lastInserted, List.lookup_eq_none_iff, List.mem_reverse]
  constructor
  · exact fun absent value mem => by simpa using absent _ mem
  · rintro absent ⟨other, value⟩ mem
    simpa using fun same : key = other => absent value (same ▸ mem)

theorem mem_dedupAdjacent {α : Type} [DecidableEq α] {l : List α} {a : α} : a ∈ dedupAdjacent l ↔ a ∈ l := by
  induction l with
  | nil => rfl
  | cons b l ih =>
    cases l with
    | nil => rfl
    | cons c l =>
      rw [dedupAdjacent]
      split_ifs with same
      · simp [ih, same]
      · simp only [List.mem_cons, ih]

variable {facts : QueryFacts} {f h : FunctionId} {v w : FlowVariable} {p q dp sp : Path}

theorem mem_assignBySrc : (f, w, dp, sp) ∈ (new facts).assignBySrc h v ↔
    (f, w, dp, v, sp) ∈ facts.assign ∧ home f v = h := by
  simp only [new, List.mem_insertionSort, List.mem_filterMap]
  constructor
  · rintro ⟨⟨g, dst, dp', src, sp'⟩, fact, kept⟩
    simp only [Option.ite_none_right_eq_some, Option.some.injEq, Prod.mk.injEq] at kept
    obtain ⟨⟨at_home, rfl⟩, rfl, rfl, rfl, rfl⟩ := kept
    exact ⟨fact, at_home⟩
  · rintro ⟨fact, at_home⟩
    exact ⟨_, fact, by simp [at_home]⟩

theorem mem_loadsByDst : (w, q) ∈ (new facts).loadsByDst h v ↔
    (h, v, .empty, w, q) ∈ facts.assign ∧ q ≠ .empty := by
  simp only [new, List.mem_insertionSort, List.mem_filterMap]
  constructor
  · rintro ⟨⟨g, dst, dp', src, sp'⟩, fact, kept⟩
    simp only [Option.ite_none_right_eq_some, Option.some.injEq, Prod.mk.injEq, Path.isEmpty_iff] at kept
    obtain ⟨⟨⟨rfl, rfl⟩, rfl, field⟩, rfl, rfl⟩ := kept
    exact ⟨fact, by simpa [Path.isEmpty_iff, ← Bool.not_eq_true] using field⟩
  · rintro ⟨fact, field⟩
    exact ⟨_, fact, by simpa [Path.isEmpty_iff, ← Bool.not_eq_true] using field⟩

theorem mem_loadsBySrc : (f, w, q) ∈ (new facts).loadsBySrc h v ↔
    ((f, w, .empty, v, q) ∈ facts.assign ∧ q ≠ .empty) ∧ home f v = h := by
  simp only [new, List.mem_insertionSort, List.mem_filterMap]
  constructor
  · rintro ⟨⟨g, dst, dp', src, sp'⟩, fact, kept⟩
    simp only [Option.ite_none_right_eq_some, Option.some.injEq, Prod.mk.injEq, Path.isEmpty_iff] at kept
    obtain ⟨⟨⟨at_home, rfl⟩, rfl, field⟩, rfl, rfl, rfl⟩ := kept
    exact ⟨⟨fact, by simpa [Path.isEmpty_iff, ← Bool.not_eq_true] using field⟩, at_home⟩
  · rintro ⟨⟨fact, field⟩, at_home⟩
    exact ⟨_, fact, by simpa [Path.isEmpty_iff, ← Bool.not_eq_true, at_home] using field⟩

theorem mem_addrsBySrc : (p, f, w, dp) ∈ (new facts).addrsBySrc h v ↔
    ∃ sp, (f, w, dp, v, sp) ∈ facts.assign ∧ home f v = h ∧ ∃ m, sp.splitTrailingOffset = some (p, m) := by
  simp only [new, List.mem_insertionSort, List.mem_filterMap]
  constructor
  · rintro ⟨⟨g, dst, dp', src, sp'⟩, fact, kept⟩
    simp only [Option.ite_none_right_eq_some, Option.map_eq_some_iff, Prod.mk.injEq] at kept
    obtain ⟨⟨at_home, rfl⟩, ⟨k, m⟩, split, rfl, rfl, rfl, rfl⟩ := kept
    exact ⟨sp', fact, at_home, m, split⟩
  · rintro ⟨sp, fact, at_home, m, split⟩
    exact ⟨_, fact, by simp [at_home, split]⟩

theorem mem_callersByCallee {site : InsnSiteId} :
    site ∈ (new facts).callersByCallee f ↔ (site, f) ∈ facts.call := by
  simp [new, List.mem_insertionSort, List.mem_filterMap]

theorem mem_calleeBySite {site : InsnSiteId} :
    f ∈ (new facts).calleeBySite site ↔ (site, f) ∈ facts.call := by
  simp [new, List.mem_insertionSort, List.mem_filterMap]

theorem mem_copiesByDst (mem : w ∈ (new facts).copiesByDst h v) :
    (h, v, .empty, w, .empty) ∈ facts.assign := by
  simp only [new, mem_dedupAdjacent, List.mem_insertionSort, List.mem_filterMap] at mem
  obtain ⟨⟨g, dst, dp', src, sp'⟩, fact, kept⟩ := mem
  simp only [Option.ite_none_right_eq_some, Option.some.injEq, Path.isEmpty_iff] at kept
  obtain ⟨⟨⟨rfl, rfl⟩, rfl, rfl, -⟩, rfl⟩ := kept
  exact fact

theorem mem_sinkExtByVar : q ∈ (new facts).sinkExtByVar h v ↔
    ∃ ep ∈ facts.endpoints, ep.direction = .backward ∧ ep.taintVertex = (h, v, q) := by
  simp only [new, List.mem_insertionSort, List.mem_filterMap, Option.ite_none_right_eq_some,
    Option.some.injEq, QueryEndpoint.taintVertex, Prod.mk.injEq]
  constructor
  · rintro ⟨ep, mem, ⟨back, func, var⟩, path⟩
    exact ⟨ep, mem, back, func, var, path⟩
  · rintro ⟨ep, mem, back, func, var, path⟩
    exact ⟨ep, mem, ⟨back, func, var⟩, path⟩

theorem valuePath_mem {paths : List Path} {vp : Path} (value : valuePath p paths = some vp) : vp ∈ paths := by
  unfold valuePath at value
  split_ifs at value with ends
  dsimp only at value
  split_ifs at value with materialized
  cases value
  exact materialized

theorem mem_valueOfSourceRows {x : TaintVertex} {vp : Path} : (x, vp) ∈ facts.valueOfSourceRows ↔
    ∃ ep ∈ facts.endpoints, ep.direction = .forward ∧ ep.taintVertex = x ∧
      valuePath ep.vertex.path facts.paths = some vp := by
  simp only [QueryFacts.valueOfSourceRows, List.mem_filterMap]
  refine exists_congr fun ep => and_congr_right fun _ => ?_
  cases ep.direction <;> simp [and_comm]

theorem mem_sinkOfValueRows {vp : Path} : ((h, v, vp), p) ∈ facts.sinkOfValueRows ↔
    ∃ ep ∈ facts.endpoints, ep.direction = .backward ∧ ep.taintVertex = (h, v, p) ∧
      valuePath p facts.paths = some vp := by
  simp only [QueryFacts.sinkOfValueRows, List.mem_filterMap]
  refine exists_congr fun ep => and_congr_right fun _ => ?_
  cases ep.direction with
  | forward => simp
  | backward =>
    simp only [Option.map_eq_some_iff, Prod.mk.injEq, QueryEndpoint.taintVertex, true_and]
    constructor
    · rintro ⟨vp, value, ⟨rfl, rfl, rfl⟩, rfl⟩
      exact ⟨⟨rfl, rfl, rfl⟩, value⟩
    · rintro ⟨⟨rfl, rfl, rfl⟩, value⟩
      exact ⟨_, value, ⟨rfl, rfl, rfl⟩, rfl⟩

end Tables

namespace QueryFacts

variable (facts : QueryFacts)

/-- The functions the facts mention, and the frame. -/
def functions : List FunctionId :=
  GLOBAL_FRAME :: (facts.endpoints.map (·.infunc) ++ facts.assign.map (·.1) ++
    facts.call.flatMap fun (site, callee) => [site.funcId, callee])

/-- The variables the facts mention, and the actuals of every call for the formals they mention. -/
def flowVariables : List FlowVariable :=
  facts.endpoints.map (·.vertex.var) ++ (facts.assign.flatMap fun (_, dst, _, src, _) => [dst, src]) ++
    facts.formalParam.map (·.2.1) ++
    facts.call.flatMap fun (site, _) => facts.formalParam.filterMap fun (_, v, _) =>
      v.asFormal.map (FlowVariable.callArg site.insnId)

/-- The paths a taint may be on. -/
def taintPaths : List Path := .empty :: (facts.endpoints.map (·.vertex.path) ++ facts.paths)

/-- The nodes of the graph that a search can reach. -/
structure Inside (n : TaintNode) : Prop where
  func : n.func ∈ facts.functions
  var : n.var ∈ facts.flowVariables
  path : n.path ∈ facts.taintPaths

/-- Every state a search of these facts can reach. -/
def bound : Finset (TaintNode × TaintState) :=
  (facts.functions.flatMap fun f => facts.flowVariables.flatMap fun v => facts.taintPaths.flatMap fun p =>
    [TaintLevel.saturating, .plain].flatMap fun level => [ObjectScope.all, .fixed].flatMap fun scope =>
      [((⟨f, v, p, level, scope⟩ : TaintNode), TaintState.free), (⟨f, v, p, level, scope⟩, .restricted)]).toFinset

/-- Turns enough for any search of these facts. -/
def searchFuel : ℕ := facts.functions.length * (facts.flowVariables.length * (facts.taintPaths.length * 8))

variable {facts}

theorem mem_bound {s : TaintNode × TaintState} : s ∈ facts.bound ↔ facts.Inside s.1 := by
  obtain ⟨⟨f, v, p, level, scope⟩, state⟩ := s
  have levels : level = .saturating ∨ level = .plain := by cases level <;> simp
  have scopes : scope = .all ∨ scope = .fixed := by cases scope <;> simp
  have states : state = .free ∨ state = .restricted := by cases state <;> simp
  simp only [bound, List.mem_toFinset, List.mem_flatMap, List.mem_cons, Prod.mk.injEq, TaintNode.mk.injEq,
    List.not_mem_nil, or_false]
  constructor
  · rintro ⟨_, func, _, var, _, path, _, -, _, -, ⟨⟨rfl, rfl, rfl, -, -⟩, -⟩ | ⟨⟨rfl, rfl, rfl, -, -⟩, -⟩⟩
    · exact ⟨func, var, path⟩
    · exact ⟨func, var, path⟩
  · intro inside
    refine ⟨f, inside.func, v, inside.var, p, inside.path, level, levels, scope, scopes, ?_⟩
    rcases states with rfl | rfl
    · exact .inl ⟨⟨rfl, rfl, rfl, rfl, rfl⟩, rfl⟩
    · exact .inr ⟨⟨rfl, rfl, rfl, rfl, rfl⟩, rfl⟩

theorem card_bound_le : facts.bound.card ≤ facts.searchFuel := by
  refine (List.toFinset_card_le _).trans (le_of_eq ?_)
  simp [searchFuel, List.length_flatMap]

end QueryFacts

section Inside

variable {facts : QueryFacts} {n : TaintNode} {m : TaintNode × FlowEdge}

theorem mem_taintPaths_of_mem {p : Path} (mem : p ∈ facts.paths) : p ∈ facts.taintPaths :=
  .tail _ (List.mem_append_right _ mem)

theorem assign_inside {f : FunctionId} {dst src : FlowVariable} {dp sp : Path} (fact : (f, dst, dp, src, sp) ∈ facts.assign) :
    f ∈ facts.functions ∧ dst ∈ facts.flowVariables ∧ src ∈ facts.flowVariables := by
  refine ⟨.tail _ (List.mem_append_left _ (List.mem_append_right _ (List.mem_map.mpr ⟨_, fact, rfl⟩))), ?_, ?_⟩ <;>
    exact List.mem_append_left _ (List.mem_append_left _ (List.mem_append_right _
      (List.mem_flatMap.mpr ⟨_, fact, by simp⟩)))

theorem call_inside {site : InsnSiteId} {callee : FunctionId} (fact : (site, callee) ∈ facts.call) :
    site.funcId ∈ facts.functions ∧ callee ∈ facts.functions := by
  constructor <;>
    exact .tail _ (List.mem_append_right _ (List.mem_flatMap.mpr ⟨_, fact, by simp⟩))

theorem endpoint_inside {ep : QueryEndpoint} (mem : ep ∈ facts.endpoints) :
    ep.infunc ∈ facts.functions ∧ ep.vertex.var ∈ facts.flowVariables ∧ ep.vertex.path ∈ facts.taintPaths :=
  ⟨.tail _ (List.mem_append_left _ (List.mem_append_left _ (List.mem_map.mpr ⟨ep, mem, rfl⟩))),
    List.mem_append_left _ (List.mem_append_left _ (List.mem_append_left _ (List.mem_map.mpr ⟨ep, mem, rfl⟩))),
    .tail _ (List.mem_append_left _ (List.mem_map.mpr ⟨ep, mem, rfl⟩))⟩

theorem formal_mem {f : FunctionId} {v : FlowVariable} {ty : FormalType}
    (typed : (new facts).formalTy f v = some ty) : (f, v, ty) ∈ facts.formalParam := by
  obtain ⟨⟨g, w, ty'⟩, mem, same⟩ := List.mem_map.mp (lastInserted_mem typed)
  cases same
  exact mem

/-- The steps a node has before they are rehomed stay inside. -/
theorem raw_inside (inside : facts.Inside n) (mem : m ∈ (new facts).rawSuccessors n) :
    facts.Inside m.1 := by
  obtain ⟨func, var, path⟩ := inside
  simp only [rawSuccessors, List.mem_append] at mem
  rcases mem with ((((((((value | sink) | assign) | addr) | load) | copy) | read) | ext) | ret) | call
  · obtain ⟨vp, found, rfl⟩ := List.mem_map.mp value
    have row := lastInserted_mem (Option.mem_toList.mp found)
    obtain ⟨ep, -, -, -, value⟩ := mem_valueOfSourceRows.mp row
    exact ⟨func, var, mem_taintPaths_of_mem (valuePath_mem value)⟩
  · obtain ⟨sp, found, rfl⟩ := List.mem_map.mp sink
    have row := lastInserted_mem (Option.mem_toList.mp found)
    obtain ⟨ep, mem, -, same, -⟩ := mem_sinkOfValueRows.mp row
    obtain ⟨-, -, rfl⟩ : _ ∧ _ ∧ ep.vertex.path = sp := by simpa [QueryEndpoint.taintVertex] using same
    exact ⟨func, var, (endpoint_inside mem).2.2⟩
  · obtain ⟨⟨g, dst, dp, sp⟩, fact, step⟩ := List.mem_filterMap.mp assign
    obtain ⟨p2, -, step⟩ := Option.bind_eq_some_iff.mp step
    obtain ⟨materialized, rfl⟩ := by simpa using step
    have parts := assign_inside (mem_assignBySrc.mp fact).1
    exact ⟨parts.1, parts.2.1, mem_taintPaths_of_mem materialized⟩
  · obtain ⟨⟨key, g, dst, dp⟩, fact, step⟩ := List.mem_filterMap.mp addr
    obtain ⟨⟨-, materialized⟩, rfl⟩ := by simpa using step
    obtain ⟨sp, fact, -⟩ := mem_addrsBySrc.mp fact
    have parts := assign_inside fact
    exact ⟨parts.1, parts.2.1, mem_taintPaths_of_mem materialized⟩
  · obtain ⟨⟨a, q⟩, fact, step⟩ := List.mem_filterMap.mp load
    obtain ⟨-, materialized, rfl⟩ := by simpa using step
    have parts := assign_inside (mem_loadsByDst.mp fact).1
    exact ⟨func, parts.2.2, mem_taintPaths_of_mem materialized⟩
  · unfold copySourceSteps at copy
    split_ifs at copy with fresh
    · obtain ⟨src, fact, rfl⟩ := List.mem_map.mp copy
      exact ⟨func, (assign_inside (mem_copiesByDst fact)).2.2, path⟩
    · exact absurd copy List.not_mem_nil
  · unfold saturatingLoadSteps at read
    split_ifs at read with saturating
    · obtain ⟨⟨g, dst, q⟩, fact, step⟩ := List.mem_filterMap.mp read
      obtain ⟨-, rfl⟩ := by simpa using step
      have parts := assign_inside (mem_loadsBySrc.mp fact).1.1
      exact ⟨parts.1, parts.2.1, .head _⟩
    · exact absurd read List.not_mem_nil
  · unfold saturatingSinkSteps at ext
    split_ifs at ext with saturating
    · obtain ⟨q, fact, step⟩ := List.mem_filterMap.mp ext
      obtain ⟨-, rfl⟩ := by simpa using step
      obtain ⟨ep, mem, -, same⟩ := mem_sinkExtByVar.mp fact
      obtain ⟨-, -, rfl⟩ : _ ∧ _ ∧ ep.vertex.path = q := by simpa [QueryEndpoint.taintVertex] using same
      exact ⟨func, var, (endpoint_inside mem).2.2⟩
    · exact absurd ext List.not_mem_nil
  · unfold returnSteps at ret
    split at ret
    · next fty formal typed isFormal =>
      split_ifs at ret with out
      · obtain ⟨site, fact, rfl⟩ := List.mem_map.mp ret
        have call := mem_callersByCallee.mp fact
        refine ⟨(call_inside call).1, ?_, path⟩
        refine List.mem_append_right _ (List.mem_flatMap.mpr ⟨_, call, List.mem_filterMap.mpr ?_⟩)
        exact ⟨_, formal_mem typed, by simp [isFormal]⟩
      · exact absurd ret List.not_mem_nil
    · exact absurd ret List.not_mem_nil
  · unfold callSteps at call
    split at call
    · next insn formal isArg =>
      obtain ⟨callee, fact, step⟩ := List.mem_filterMap.mp call
      obtain ⟨typed, rfl⟩ := by simpa using step
      obtain ⟨ty, typed⟩ := Option.isSome_iff_exists.mp typed
      refine ⟨(call_inside (mem_calleeBySite.mp fact)).2, ?_, path⟩
      refine List.mem_append_left _ (List.mem_append_right _ ?_)
      exact List.mem_map.mpr ⟨_, formal_mem typed, rfl⟩
    · exact absurd call List.not_mem_nil

/-- The level of a taint rides along every step. -/
theorem level_of_raw (mem : m ∈ (new facts).rawSuccessors n) : m.1.level = n.level := by
  simp only [rawSuccessors, List.mem_append] at mem
  rcases mem with ((((((((value | sink) | assign) | addr) | load) | copy) | read) | ext) | ret) | call
  · obtain ⟨vp, -, rfl⟩ := List.mem_map.mp value
    rfl
  · obtain ⟨sp, -, rfl⟩ := List.mem_map.mp sink
    rfl
  · obtain ⟨⟨g, dst, dp, sp⟩, -, step⟩ := List.mem_filterMap.mp assign
    obtain ⟨p2, -, step⟩ := Option.bind_eq_some_iff.mp step
    obtain ⟨-, rfl⟩ := by simpa using step
    rfl
  · obtain ⟨⟨key, g, dst, dp⟩, -, step⟩ := List.mem_filterMap.mp addr
    obtain ⟨-, rfl⟩ := by simpa using step
    rfl
  · obtain ⟨⟨a, q⟩, -, step⟩ := List.mem_filterMap.mp load
    obtain ⟨-, -, rfl⟩ := by simpa using step
    rfl
  · unfold copySourceSteps at copy
    split_ifs at copy
    · obtain ⟨src, -, rfl⟩ := List.mem_map.mp copy
      rfl
    · exact absurd copy List.not_mem_nil
  · unfold saturatingLoadSteps at read
    split_ifs at read with saturating
    · obtain ⟨⟨g, dst, q⟩, -, step⟩ := List.mem_filterMap.mp read
      obtain ⟨-, rfl⟩ := by simpa using step
      exact saturating.symm
    · exact absurd read List.not_mem_nil
  · unfold saturatingSinkSteps at ext
    split_ifs at ext
    · obtain ⟨q, -, step⟩ := List.mem_filterMap.mp ext
      obtain ⟨-, rfl⟩ := by simpa using step
      rfl
    · exact absurd ext List.not_mem_nil
  · unfold returnSteps at ret
    split at ret
    · split_ifs at ret
      · obtain ⟨site, -, rfl⟩ := List.mem_map.mp ret
        rfl
      · exact absurd ret List.not_mem_nil
    · exact absurd ret List.not_mem_nil
  · unfold callSteps at call
    split at call
    · obtain ⟨callee, -, step⟩ := List.mem_filterMap.mp call
      obtain ⟨-, rfl⟩ := by simpa using step
      rfl
    · exact absurd call List.not_mem_nil

theorem level_rehome {f : FunctionId} : (rehome f m).1.level = m.1.level := by
  unfold rehome
  dsimp only
  split <;> rfl

theorem level_of_step {s t : TaintNode × TaintState} (step : facts.searchGraph.Step s t) : t.1.level = s.1.level := by
  obtain ⟨label, mem, -⟩ := step
  obtain ⟨raw, succ, same⟩ := List.mem_map.mp mem
  have moved : (rehome s.1.func raw).1.level = raw.1.level := level_rehome
  rw [same] at moved
  exact moved.trans (level_of_raw succ)

theorem rehome_inside {f : FunctionId} (inside : facts.Inside m.1) : facts.Inside (rehome f m).1 := by
  have homed : home m.1.func m.1.var ∈ facts.functions := by
    unfold home
    split_ifs
    · exact .head _
    · exact inside.func
  unfold rehome
  dsimp only
  split
  · exact ⟨homed, inside.var, inside.path⟩
  · exact inside

/-- The bound holds whatever a search from inside nodes reaches. -/
theorem bounds {starts : List TaintNode} (inside : ∀ n ∈ starts, facts.Inside n) :
    facts.searchGraph.Bounds starts facts.bound := by
  refine ⟨fun n mem => QueryFacts.mem_bound.mpr (inside n mem), fun s mem t step => ?_⟩
  obtain ⟨label, mem', -⟩ := step
  obtain ⟨raw, succ, same⟩ := List.mem_map.mp mem'
  have moved := rehome_inside (f := s.1.func) (raw_inside (QueryFacts.mem_bound.mp mem) succ)
  rw [same] at moved
  exact QueryFacts.mem_bound.mpr moved

end Inside

end Ctadl.Query
