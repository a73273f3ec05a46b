import Ctadl.Index.Propagation

/-! # Which paths the relations name

Every rule that builds a path looks it up in the admissible paths, and every path of the program and of
the models is registered there before the run. The imported flows between globals are not: they become
edges of the global frame as they are. So the paths of `locals` and the sources of `assign_like` stay
empty or admissible exactly when those of the imported flows do.
-/

namespace Ctadl.Facts.PathSet

/-- The trailing split of `p` is counted as a miss: `p` is neither empty nor a member. -/
def splitMiss (ps : PathSet) (p : Path) : Bool := !p.isEmpty && decide (p ∉ ps)

end Ctadl.Facts.PathSet

namespace Ctadl.Index

open Facts Datalog Cir

/-- No segment follows a `#value`. The verifier and the parser of ports let no other path through. -/
def ValueLast (p : Path) : Prop := ∀ i, p.segs.findIdx? (·.isValue) = some i → i + 1 = p.segs.length

namespace EngineInput

variable (input : EngineInput)

/-- The path is empty or admissible. -/
def Known (p : Path) : Prop := p = .empty ∨ p ∈ input.pathSet

/-- The paths the program and the models bring end at their `#value`. -/
structure PlainPaths : Prop where
  assign : ∀ site dst src, (site, dst, src) ∈ input.facts.assign → ValueLast dst.path ∧ ValueLast src.path
  actual : ∀ site n vx, (site, n, vx) ∈ input.facts.actualParam → ValueLast vx.path
  summary : ∀ f n1 p1 n2 p2, (f, n1, p1, n2, p2) ∈ input.facts.summary → ValueLast p1 ∧ ValueLast p2

/-- The sources of the imported flows between globals are empty or admissible, and so are their
destinations wherever the source has splits. -/
def FlowsKnown : Prop :=
  ∀ dst p1 src p2, (dst, p1, src, p2) ∈ input.facts.globalFlow →
    input.Known p2 ∧ (p2 ∈ input.pathSet → input.Known p1)

/-- What the rules rely on: each path of `locals` and each source of `assign_like` is empty or
admissible, no lookup of a trailing split misses, and the keyed joins lose no row of the naive rule (the
empty path has splits only as a member). -/
structure PathInvariant (s : input.State) : Prop where
  locals : ∀ f v p a q, Present s (.locals f v p a q) → input.Known p ∧ input.Known q
  assignLike : ∀ f v1 p1 v2 p2, Present s (.assignLike f v1 p1 v2 p2) → input.Known p2
  localsMiss : ∀ f v p, Present s (.reachVp f v p) → input.pathSet.splitMiss p = false
  assignMiss : ∀ f v1 p1 v2 p2, Present s (.assignLike f v1 p1 v2 p2) → input.pathSet.splitMiss p2 = false
  joins : ∀ r c, NaiveRule input (fun p => p.isEmpty = false ∨ Path.empty ∈ input.pathSet) s r c →
    ∃ t, Run (FieldRule input) s t ∧ (c : WithBot (CondOf input.hybridContext)) ≤ t r

/-- The paths of a row that are empty or admissible in every run: those of a flow, and those of an edge
as far as its splits reach. -/
def KnownEnds : Row → Prop
  | .locals _ _ p _ q | .summary _ _ p _ q | .aliasFlow _ _ p _ q | .contextSummaryD _ _ _ p _ q =>
    input.Known p ∧ input.Known q
  | .assignLike _ _ p1 _ p2 => input.Known p2 ∧ (p2 ∈ input.pathSet → input.Known p1)
  | .edgeSplit _ _ _ _ _ p1 | .edgeSplitWild _ _ _ _ _ p1 | .extDst _ _ p1 _ _ | .extFml _ _ p1 _ _ _ _ =>
    input.Known p1
  | .reachVp _ _ p => input.Known p
  | _ => True

variable {input} {s : input.State} {r : Row} {c : CondOf input.hybridContext}

section Registered

/-- Cutting a last `#value` off and putting it back gives the path again. -/
private theorem concat_value_of_last {p : Path} {i : Nat} (found : p.segs.findIdx? (·.isValue) = some i)
    (last : i + 1 = p.segs.length) : (Path.fromAccesses (p.segs.take i)).concat VALUE_PATH = p := by
  obtain ⟨bound, isValue, -⟩ := List.findIdx?_eq_some_iff_getElem.mp found
  have value : p.segs[i] = .value := by
    cases at_i : p.segs[i] <;> simp [at_i, PathSegment.isValue] at isValue ⊢
  have split : p.segs = p.segs.take i ++ [.value] := by
    conv_lhs => rw [← List.take_append_drop i p.segs]
    rw [List.drop_eq_getElem_cons bound, value, List.drop_eq_nil_of_le (by omega)]
  have front : normalize (p.segs.take i) = p.segs.take i :=
    normalize_of_clear (p.clear.of_isInfix (List.take_prefix i p.segs).isInfix)
  have cut : VALUE_PATH.segs = [.value] := by decide
  apply Facts.Path.ext
  rw [Facts.Path.concat, Path.segs_fromAccesses, Path.segs_fromAccesses, front, cut, ← split]
  exact p.normal

/-- Closing under `#value` keeps every path that ends at its `#value`. -/
theorem mem_withValuePaths {paths : List Path} {p : Path} (member : p ∈ paths) (plain : ValueLast p) :
    p ∈ withValuePaths paths := by
  unfold withValuePaths
  split_ifs with mentioned
  · simp only [List.mem_flatMap, List.mem_cons, List.not_mem_nil, or_false]
    cases found : p.segs.findIdx? (·.isValue) with
    | none =>
      refine ⟨p, .inr (List.mem_filterMap.mpr ⟨p, member, ?_⟩), .inl rfl⟩
      simp [valueBase, found]
    | some i =>
      have last := plain i found
      refine ⟨.fromAccesses (p.segs.take i), .inr (List.mem_filterMap.mpr ⟨p, member, ?_⟩), .inr ?_⟩
      · simp [valueBase, found, last]
      · exact (concat_value_of_last found last).symm
  · exact member

theorem mem_pathSet_of_program {p : Path} (member : p ∈ input.programPaths) (plain : ValueLast p) :
    p ∈ input.pathSet :=
  mem_withValuePaths (List.mem_append_left _ (List.mem_append_left _ member)) plain

theorem mem_pathSet_of_summary {p : Path} (member : p ∈ input.summaryPaths) (plain : ValueLast p) :
    p ∈ input.pathSet := by
  refine mem_withValuePaths (List.mem_append_left _ (List.mem_append_right _ ?_)) plain
  split_ifs
  · exact List.mem_append_left _ member
  · exact member

theorem mem_pathSet_of_assign {site : InsnSiteId} {dst src : FlowVertex} {p : Path}
    (fact : (site, dst, src) ∈ input.facts.assign) (here : p ∈ [dst.path, src.path]) (plain : ValueLast p) :
    p ∈ input.pathSet := by
  refine mem_pathSet_of_program (List.mem_append_left _ (List.mem_append_left _ (List.mem_append_left _ ?_))) plain
  exact List.mem_flatMap.mpr ⟨_, fact, here⟩

theorem mem_pathSet_of_actual {site : InsnSiteId} {n : FormalIndex} {vx : FlowVertex}
    (fact : (site, n, vx) ∈ input.facts.actualParam) (plain : ValueLast vx.path) : vx.path ∈ input.pathSet := by
  refine mem_pathSet_of_program (List.mem_append_left _ (List.mem_append_right _ ?_)) plain
  exact List.mem_map.mpr ⟨_, fact, rfl⟩

end Registered

section Invariant

/-- Every row of the state has its paths known. -/
def KnownState (s : input.State) : Prop := ∀ r, Present s r → input.KnownEnds r

theorem known_empty : input.Known .empty := .inl rfl

theorem known_of_mem {p : Path} (member : p ∈ input.pathSet) : input.Known p := .inr member

theorem known_of_concat {p q rest : Path} {adjust : Option Int64}
    (found : input.pathSet.concat p adjust rest = some q) : input.Known q :=
  .inr (PathSet.mem_of_concat found)

/-- A rule derives known paths from known paths. -/
theorem IndexRules.knownEnds (plain : input.PlainPaths) (state : input.KnownState s)
    (fires : IndexRules input s r c) : input.KnownEnds r := by
  have flow : ∀ {caller callee : FunctionId} {n1 n2 : Root} {p1 p2 : Path} {v1 v2 : FlowVariable},
      Present s (.summary callee n1 p1 n2 p2) → input.KnownEnds (.assignLike caller v1 p1 v2 p2) := by
    intro caller callee n1 n2 p1 p2 v1 v2 present
    obtain ⟨dst, src⟩ := state _ present
    exact ⟨src, fun _ => dst⟩
  cases fires with
  | root fires => cases fires with
    | formal | global => exact ⟨known_empty, known_empty⟩
    | _ => trivial
  | field fires => cases fires with
    | reachVp row => exact (state _ row).1
    | edgeSplit edge split => exact (state _ edge.present).2 (PathSet.mem_splits_exact.mp split).1
    | edgeSplitWild edge split => exact (state _ edge.present).2 (PathSet.mem_splits_wild.mp split).1
    | extDst _ _ admissible | extDstWild _ _ _ admissible => exact known_of_concat admissible
    | extFml ext => exact (state _ ext.present :)
    | localsDst ext row => exact ⟨(state _ ext.present :), (state _ row.present).2⟩
    | localsFml ext _ _ admissible | localsFmlWild ext _ _ admissible =>
      exact ⟨(state _ ext.present :), known_of_concat admissible⟩
    | _ => trivial
  | call fires => cases fires with
    | actualOut param =>
      exact ⟨known_empty, fun _ => known_of_mem (mem_pathSet_of_actual param (plain.actual _ _ _ param))⟩
    | actualIn param =>
      exact ⟨known_of_mem (mem_pathSet_of_actual param (plain.actual _ _ _ param)), fun _ => known_empty⟩
    | instantiate summary => exact flow summary.present
    | direct => trivial
  | summary fires => cases fires with
    | formal row => exact (state _ row.present :)
    | frameEdge row => exact ⟨(state _ row.present).2, fun _ => (state _ row.present).1⟩
    | aliased flow => exact (state _ flow :)
    | aliasFrame flow => exact ⟨(state _ flow).2, fun _ => (state _ flow).1⟩
    | aliasFlow row => exact (state _ row.present :)
  | globalSummary fires =>
    obtain ⟨row⟩ := fires
    exact (state _ row.present :)
  | scan fires => cases fires with
    | direct _ summary | via _ summary => exact flow summary.present
  | sets fires => cases fires with
    | direct _ summary | via _ summary => exact flow summary.present
    | _ => trivial
  | unfold fires => cases fires with
    | summaryD _ summary | topSummaryD _ _ summary => exact (state _ summary.present :)
    | direct row | via row => exact ⟨(state _ row).2, fun _ => (state _ row).1⟩
    | topFunc => trivial
  | _ fires => cases fires <;> trivial

/-- The facts loaded before the run have known paths. -/
theorem knownState_seed (plain : input.PlainPaths) (flows : input.FlowsKnown) : input.KnownState input.seed := by
  intro r present
  have seed := input.present_seed.mp present
  simp only [seeds, assignLike, List.mem_append, List.mem_map] at seed
  rcases seed with (⟨⟨f, n1, p1, n2, p2⟩, fact, rfl⟩ | ⟨_, ⟨⟨site, dst, src⟩, fact, rfl⟩ |
    ⟨⟨dst, p1, src, p2⟩, fact, rfl⟩, rfl⟩) | ⟨f, fact, rfl⟩
  · obtain ⟨dst, src⟩ := plain.summary _ _ _ _ _ fact
    have registered : ∀ p ∈ [p1, p2], p ∈ input.summaryPaths := fun p here =>
      List.mem_flatMap.mpr ⟨_, fact, here⟩
    exact ⟨known_of_mem (mem_pathSet_of_summary (registered _ (by simp)) dst),
      known_of_mem (mem_pathSet_of_summary (registered _ (by simp)) src)⟩
  · obtain ⟨plainDst, plainSrc⟩ := plain.assign _ _ _ fact
    exact ⟨known_of_mem (mem_pathSet_of_assign fact (by simp) plainSrc),
      fun _ => known_of_mem (mem_pathSet_of_assign fact (by simp) plainDst)⟩
  · exact flows _ _ _ _ fact
  · trivial

theorem knownState_of_run (plain : input.PlainPaths) (flows : input.FlowsKnown)
    (run : Run (IndexRules input) input.seed s) : input.KnownState s := by
  apply run.preserves (I := input.KnownState) (knownState_seed plain flows)
  intro s r c state fires r' present
  rcases Store.of_insert present with rfl | old
  · exact IndexRules.knownEnds plain state fires
  · exact state r' old

theorem Known.splitMiss {p : Path} (known : input.Known p) : input.pathSet.splitMiss p = false := by
  rcases known with rfl | member
  · rfl
  · simp [PathSet.splitMiss, member]

theorem Known.mem {p : Path} (known : input.Known p) (splits : p.isEmpty = false ∨ Path.empty ∈ input.pathSet) :
    p ∈ input.pathSet := by
  rcases known with rfl | member
  · exact splits.resolve_left (by decide)
  · exact member

/-- With known paths, every join of the naive rule is a join of admissible paths. -/
theorem KnownState.naive (state : input.KnownState s)
    (fires : NaiveRule input (fun p => p.isEmpty = false ∨ Path.empty ∈ input.pathSet) s r c) :
    NaiveRule input (· ∈ input.pathSet) s r c := by
  cases fires with
  | dst edge row both source reached moved admissible =>
    exact .dst edge row both ((state _ edge.present).1.mem source) ((state _ row.present).1.mem reached) moved
      admissible
  | fml edge row both source reached read admissible =>
    exact .fml edge row both ((state _ edge.present).1.mem source) ((state _ row.present).1.mem reached) read
      admissible

theorem KnownState.pathInvariant (state : input.KnownState s) (run : Run (IndexRules input) input.seed s) :
    input.PathInvariant s where
  locals _ _ _ _ _ present := state _ present
  assignLike _ _ _ _ _ present := (state _ present).1
  localsMiss _ _ _ present := Known.splitMiss (state _ present)
  assignMiss _ _ _ _ _ present := (state _ present).1.splitMiss
  joins _ _ fires := NaiveRule.reached run (state.naive fires)

end Invariant

section Necessary

theorem mem_seeds_of_globalFlow {dst src : GlobalId} {p1 p2 : Path}
    (fact : (dst, p1, src, p2) ∈ input.facts.globalFlow) :
    .assignLike GLOBAL_FRAME (.global dst) p1 (.global src) p2 ∈ input.seeds := by
  simp only [seeds, assignLike, List.mem_append, List.mem_map]
  exact .inl (.inr ⟨_, .inr ⟨_, fact, rfl⟩, rfl⟩)

/-- An imported flow whose source is admissible reaches its destination from the root of its source. -/
theorem locals_of_globalFlow {dst src : GlobalId} {p1 p2 : Path}
    (fact : (dst, p1, src, p2) ∈ input.facts.globalFlow) (member : p2 ∈ input.pathSet) :
    ∃ s, Run (IndexRules input) input.seed s ∧
      Present s (.locals GLOBAL_FRAME (.global dst) p1 (.global src) p2) := by
  have loaded : Certain input.seed (.assignLike GLOBAL_FRAME (.global dst) p1 (.global src) p2) :=
    input.certain_seed.mpr (mem_seeds_of_globalFlow fact)
  have fresh : ∀ (s : input.State) (r : Row), Certain (s.insert r ⊤) r := fun s r => certain_of_le (by simp)
  have run : Run (IndexRules input) input.seed _ := .refl
  have run := next run (.globalMention GLOBAL_FRAME src) ⊤ (.root (.mentionEdge loaded.present (.inr rfl)))
  have run := next run (.locals GLOBAL_FRAME (.global src) .empty (.global src) .empty) ⊤
    (.root (.global (fresh _ _).present))
  have run := next run (.edgeSplit GLOBAL_FRAME (.global src) .empty p2 (.global dst) p1) ⊤
    (.field (.edgeSplit ((loaded.insert _ _).insert _ _) (PathSet.mem_splits_exact.mpr ⟨member, rfl⟩)))
  have whole : input.pathSet.concat .empty none p2 = some p2 := by
    refine PathSet.concat_none_eq_some_iff.mpr ⟨member, Facts.Path.ext ?_⟩
    exact p2.normal.symm
  have run := next run (.locals GLOBAL_FRAME (.global dst) p1 (.global src) p2) ⊤
    (.field (.localsFml (fresh _ _) ((fresh _ _).insert _ _) rfl whole))
  exact ⟨_, run, (fresh _ _).present⟩

end Necessary

/-- In every reachable state the paths of `locals` and the sources of `assign_like` are empty or
admissible, and no split is missed, exactly when the imported flows between globals name known paths. -/
theorem pathInvariant_iff_flowsKnown (plain : input.PlainPaths) :
    (∀ s, Run (IndexRules input) input.seed s → input.PathInvariant s) ↔ input.FlowsKnown := by
  constructor
  · intro invariant dst p1 src p2 fact
    refine ⟨?_, fun member => ?_⟩
    · have loaded : Present input.seed (.assignLike GLOBAL_FRAME (.global dst) p1 (.global src) p2) :=
        input.present_seed.mpr (mem_seeds_of_globalFlow fact)
      exact (invariant _ .refl).assignLike _ _ _ _ _ loaded
    · obtain ⟨s, run, present⟩ := locals_of_globalFlow fact member
      exact ((invariant s run).locals _ _ _ _ _ present).1
  · intro flows s run
    exact (knownState_of_run plain flows run).pathInvariant run

/-- The facts of a program that only imports the flow `h.deref <- g.deref`, with the paths `paths` of its
own. -/
def importedFlow (paths : List Path) : EngineInput where
  facts :=
    { formalParam := [], actualParam := [], call := [], assign := [], callTargetAssign := [],
      constStrAssign := [], calleeInfo := [], calleeResolvents := [], summary := [], paths := paths,
      intentFrame := [], intentSend := [], intentFilter := [], intentComponent := [],
      globalFlow := [("h", .fromAccesses [.deref], "g", .fromAccesses [.deref])] }
  config := ⟨true, .decision, .scan, false⟩

private theorem importedFlow_plain (paths : List Path) : (importedFlow paths).PlainPaths where
  assign _ _ _ fact := nomatch fact
  actual _ _ _ fact := nomatch fact
  summary _ _ _ _ _ fact := nomatch fact

/-- With `deref` among the program's paths, every reachable state keeps to the admissible paths. -/
theorem pathInvariant_importedFlow :
    (importedFlow [.fromAccesses [.deref]]).PlainPaths ∧
      ∀ s, Run (IndexRules (importedFlow [.fromAccesses [.deref]])) (importedFlow [.fromAccesses [.deref]]).seed s →
        (importedFlow [.fromAccesses [.deref]]).PathInvariant s := by
  have plain := importedFlow_plain [.fromAccesses [.deref]]
  refine ⟨plain, (pathInvariant_iff_flowsKnown plain).mpr fun dst p1 src p2 fact => ?_⟩
  obtain ⟨rfl, rfl, rfl, rfl⟩ : dst = "h" ∧ p1 = .fromAccesses [.deref] ∧ src = "g" ∧ p2 = .fromAccesses [.deref] := by
    simpa [importedFlow] using fact
  exact ⟨.inr (by decide), fun _ => .inr (by decide)⟩

/-- Without it the first state already holds an edge whose source is neither empty nor admissible, and
the lookup of its split misses. -/
theorem pathInvariant_broken :
    ∃ s, Run (IndexRules (importedFlow [])) (importedFlow []).seed s ∧
      Present s (.assignLike GLOBAL_FRAME (.global "h") (.fromAccesses [.deref]) (.global "g")
        (.fromAccesses [.deref])) ∧
      ¬ (importedFlow []).Known (.fromAccesses [.deref]) ∧
      (importedFlow []).pathSet.splitMiss (.fromAccesses [.deref]) = true ∧ ¬ (importedFlow []).PathInvariant s := by
  have loaded : Present (importedFlow []).seed (.assignLike GLOBAL_FRAME (.global "h") (.fromAccesses [.deref])
      (.global "g") (.fromAccesses [.deref])) := present_seed _ |>.mpr (mem_seeds_of_globalFlow (.head _))
  have unknown : ¬ (importedFlow []).Known (.fromAccesses [.deref]) := by
    rintro (blank | member)
    · exact absurd blank (by decide)
    · exact absurd member (by decide)
  refine ⟨_, .refl, loaded, unknown, by decide, fun invariant => unknown ?_⟩
  exact invariant.assignLike _ _ _ _ _ loaded

end EngineInput

end Ctadl.Index
