import Ctadl.Index.ContextJoin

/-! # Does the order of firing matter

Every rule but one is covered by what a saturated state already holds, whatever order reached it. The
exception withholds the summary of a flow between two global paths once the flow is unconditional: fired
while the flow is still conditional it leaves a summary behind that the other order never derives.
`Slips` is that firing. Runs that do not slip end in the same relations, under any context join.
-/

namespace Ctadl.Index

open Facts Datalog

namespace EngineInput

variable {input : EngineInput}

/-- The output relations of a run, with their conditions. -/
structure SameFlows (input : EngineInput) (s t : input.State) : Prop where
  assignLike : ∀ f v1 p1 v2 p2, s (.assignLike f v1 p1 v2 p2) = t (.assignLike f v1 p1 v2 p2)
  locals : ∀ f v p a q, s (.locals f v p a q) = t (.locals f v p a q)
  summary : ∀ f n1 p1 n2 p2, s (.summary f n1 p1 n2 p2) = t (.summary f n1 p1 n2 p2)
  resolvedCall : ∀ f insn callee, s (.resolvedCall f insn callee) = t (.resolvedCall f insn callee)

/-- Some order of firing makes the row unconditional. -/
def Loose (input : EngineInput) (r : Row) : Prop := ∃ s, Run (IndexRules input) input.seed s ∧ Certain s r

/-- The global summary rule fires on a row between two global paths that is conditional now and that
`loose` says may become unconditional. -/
inductive Slips (input : EngineInput) (loose : Row → Prop) (s : input.State) :
    Row → CondOf input.hybridContext → Prop
  | mk {f v p1 n2 p2 g c} (row : Held s (.locals f v p1 n2 p2) c) (inside : f ≠ GLOBAL_FRAME)
      (dst : v.asGlobal = some g) (src : n2.isGlobal) (conditional : c ≠ ⊤)
      (moved : Root.global g ≠ n2 ∨ p1 ≠ p2) (unsettled : loose (.locals f v p1 n2 p2)) :
      Slips input loose s (.summary f (.global g) p1 n2 p2) c

/-- The firings that do not slip. -/
def SteadyRules (input : EngineInput) (loose : Row → Prop) : Rules Row (CondOf input.hybridContext) :=
  fun s r c => IndexRules input s r c ∧ ¬ Slips input loose s r c

theorem isAlways_iff {h : HybridContext} {c : CondOf h} : c.val.isAlways ↔ c = ⊤ := by
  rw [Cond.isAlways, decide_eq_true_eq]
  exact ⟨fun same => Subtype.ext same, fun same => congrArg Subtype.val same⟩

section Cover

variable {j k : ContextJoin} {s : (input.withJoin j).State} {t : (input.withJoin k).State} {r : Row}
  {c : CondOf (input.withJoin j).hybridContext} {loose : Row → Prop}

theorem GlobalSummaryRule.covered (below : input.AgreeBelow s t)
    (sat : Saturated (IndexRules (input.withJoin k)) t) (certain : ∀ r, Certain t r → loose r)
    (fires : GlobalSummaryRule (input.withJoin j) s r c) (steady : ¬ Slips (input.withJoin j) loose s r c) :
    (c : WithBot _) ≤ t r := by
  obtain ⟨row, inside, dst, guarded, moved⟩ := fires
  obtain ⟨c', row', raised⟩ := row.raise (below _ rfl)
  refine (WithBot.coe_le_coe.mpr raised).trans (sat _ _ (.globalSummary (.mk row' inside dst ?_ moved)))
  rintro ⟨src, unconditional⟩
  have top := isAlways_iff.mp unconditional
  subst top
  refine steady (.mk row inside dst src (fun top => guarded ⟨src, isAlways_iff.mpr top⟩) moved ?_)
  exact certain _ row'

/-- A firing that does not slip derives nothing a saturated state lacks. -/
theorem covered (explained : (input.withJoin j).Explained s) (below : input.AgreeBelow s t)
    (sat : Saturated (IndexRules (input.withJoin k)) t) (certain : ∀ r, Certain t r → loose r)
    (fires : SteadyRules (input.withJoin j) loose s r c) (core : r.auxiliary = false) :
    (c : WithBot _) ≤ t r := by
  obtain ⟨fires, steady⟩ := fires
  have context (fires : ContextRule (input.withJoin j) s r c) : (c : WithBot _) ≤ t r := by
    obtain ⟨c', fires', raised⟩ := ContextRule.mono (k := k) below fires
    exact (WithBot.coe_le_coe.mpr raised).trans (fires'.covered sat)
  have monotone {c'} (fires' : IndexRules (input.withJoin k) t r c') (raised : c ≤ c') : (c : WithBot _) ≤ t r :=
    (WithBot.coe_le_coe.mpr raised).trans (sat _ _ fires')
  cases fires with
  | root fires =>
    obtain ⟨c', fires', raised⟩ := RootRule.mono (k := k) below fires
    exact monotone (.root fires') raised
  | field fires =>
    obtain ⟨c', fires', raised⟩ := FieldRule.mono (k := k) below fires
    exact monotone (.field fires') raised
  | call fires =>
    obtain ⟨c', fires', raised⟩ := CallRule.mono (k := k) below fires
    exact monotone (.call fires') raised
  | string fires =>
    obtain ⟨c', fires', raised⟩ := StringRule.mono (k := k) below fires
    exact monotone (.string fires') raised
  | summary fires =>
    obtain ⟨c', fires', raised⟩ := SummaryRule.mono (k := k) below fires
    exact monotone (.summary fires') raised
  | globalSummary fires => exact GlobalSummaryRule.covered below sat certain fires steady
  | hybrid fires =>
    obtain ⟨c', fires', raised⟩ := HybridRule.mono (k := k) below fires
    exact monotone (.hybrid fires') raised
  | scan fires => exact context (ScanRule.context fires)
  | sets fires => exact context (SetsRule.context explained fires core)
  | unfold fires => exact context (UnfoldRule.context explained fires core)
  | tag fires =>
    obtain ⟨c', fires', raised⟩ := TagRule.mono (k := k) below fires
    exact monotone (.tag fires') raised
  | globals fires =>
    obtain ⟨c', fires', raised⟩ := GlobalRule.mono (k := k) below fires
    exact monotone (.globals fires') raised

/-- A run that does not slip stays below every saturated state. -/
theorem agreeBelow_of_steady (run : Run (SteadyRules (input.withJoin j) loose) (input.withJoin j).seed s)
    (reach : Run (IndexRules (input.withJoin k)) (input.withJoin k).seed t)
    (sat : Saturated (IndexRules (input.withJoin k)) t) (certain : ∀ r, Certain t r → loose r) :
    input.AgreeBelow s t := by
  have both : (input.withJoin j).Explained s ∧ input.AgreeBelow s t := by
    apply run.preserves (I := fun s => (input.withJoin j).Explained s ∧ input.AgreeBelow s t)
      ⟨explained_seed, fun r _ => reach.le r⟩
    rintro s r c ⟨explained, below⟩ fires
    refine ⟨explained.insert fires.1, fun r' core => ?_⟩
    by_cases same : r' = r
    · subst same
      rw [Store.insert_self]
      exact sup_le (below r' core) (covered explained below sat certain fires core)
    · rw [s.insert_of_ne c same]
      exact below r' core
  exact both.2

end Cover

theorem SameFlows.of_agree {s t : input.State} (below : input.AgreeBelow s t) (above : input.AgreeBelow t s) :
    input.SameFlows s t := by
  have same : ∀ r : Row, r.auxiliary = false → s r = t r := fun r core =>
    le_antisymm (below r core) (above r core)
  exact ⟨fun _ _ _ _ _ => same _ rfl, fun _ _ _ _ _ => same _ rfl, fun _ _ _ _ _ => same _ rfl,
    fun _ _ _ => same _ rfl⟩

/-- A run that does not slip is a run. -/
theorem run_of_steady {loose : Row → Prop} {s t : input.State} (run : Run (SteadyRules input loose) s t) :
    Run (IndexRules input) s t := run.mono fun _ _ _ fires => fires.1

section Unconditional

/-- Every row is unconditional, and none was unfolded from a conditional summary. -/
def Unconditional (input : EngineInput) (s : input.State) : Prop :=
  (∀ r c, Held s r c → c = ⊤) ∧ ∀ f d n1 p1 n2 p2, ¬ Present s (.contextSummaryD f d n1 p1 n2 p2)

private theorem set_top {h : HybridContext} {c : CondOf h} {ds : DecisionSet} (unconditional : c = ⊤)
    (set : c.val.set = some ds) : False := by
  subst unconditional
  simp [CondOf.top_def, CondOf.always, Cond.set] at set

variable {s : input.State} {r : Row} {c : CondOf input.hybridContext}

/-- Where no decision is recorded, no rule derives a conditional fact. -/
theorem top_of_none (none : input.hybridContext = .none) (plain : input.Unconditional s)
    (fires : IndexRules input s r c) : c = ⊤ := by
  have compose {a b : CondOf input.hybridContext} (left : a = ⊤) (right : b = ⊤)
      (both : CondOf.Composes a b c) : c = ⊤ := by
    subst left right
    exact top_le_iff.mp (CondOf.le_def.mpr (by simp [CondOf.composes_iff.mp both]))
  cases fires with
  | field fires =>
    cases fires with
    | assignWild edge | edgeSplit edge | edgeSplitWild edge | extDst _ edge | extDstWild _ edge | extFml edge =>
      exact plain.1 _ _ edge
    | localsDst ext row both | localsFml ext row both | localsFmlWild ext row both =>
      exact compose (plain.1 _ _ ext) (plain.1 _ _ row) both
    | _ => rfl
  | call fires =>
    cases fires with
    | instantiate _ site => exact plain.1 _ _ site
    | _ => rfl
  | summary fires =>
    cases fires with
    | formal row => exact plain.1 _ _ row
    | _ => rfl
  | globalSummary fires =>
    obtain ⟨row⟩ := fires
    exact plain.1 _ _ row
  | hybrid fires =>
    cases fires with
    | decidedSite => simp [resolveCond, none]
    | _ => rfl
  | scan fires => cases fires with
    | direct _ flow set | via _ flow set => exact (set_top (plain.1 _ _ flow) set).elim
  | sets fires => cases fires with
    | direct _ flow set | via _ flow set => exact (set_top (plain.1 _ _ flow) set).elim
    | _ => rfl
  | unfold fires => cases fires with
    | direct flow | via flow => exact (plain.2 _ _ _ _ _ _ flow).elim
    | _ => rfl
  | _ fires => cases fires <;> rfl

theorem Unconditional.insert (none : input.hybridContext = .none) (plain : input.Unconditional s)
    (fires : IndexRules input s r c) : input.Unconditional (s.insert r c) := by
  have top := top_of_none none plain fires
  refine ⟨fun r' c' held => ?_, fun f d n1 p1 n2 p2 present => ?_⟩
  · rcases Store.held_insert held with old | ⟨-, rfl | ⟨before, -, rfl⟩⟩
    · exact plain.1 r' c' old
    · exact top
    · rw [top, sup_top_eq]
  · rcases Store.of_insert present with rfl | old
    · rcases join_of_auxiliary fires rfl with fires | fires
      · cases fires
      · cases fires with
        | summaryD _ flow set | topSummaryD _ _ flow set => exact set_top (plain.1 _ _ flow) set
    · exact plain.2 _ _ _ _ _ _ old

theorem Unconditional.run {t : input.State} (none : input.hybridContext = .none)
    (run : Run (IndexRules input) input.seed t) : input.Unconditional t := by
  apply run.preserves (I := input.Unconditional)
  · refine ⟨fun r c held => ?_, fun f d n1 p1 n2 p2 => input.not_present_seed rfl⟩
    exact WithBot.coe_inj.mp (held.symm.trans (input.certain_seed.mpr (input.present_seed.mp held.present)))
  · exact fun s r c plain fires => plain.insert none fires

/-- Where no decision is recorded, no run slips. -/
theorem steady_of_none {loose : Row → Prop} {t : input.State} (none : input.hybridContext = .none)
    (run : Run (IndexRules input) input.seed t) : Run (SteadyRules input loose) input.seed t := by
  induction run with
  | refl => exact .refl
  | tail before step ih =>
    obtain ⟨r, c, fires, rfl⟩ := step
    refine ih.snoc ⟨fires, fun slip => ?_⟩
    obtain ⟨row, -, -, -, conditional⟩ := slip
    exact conditional ((Unconditional.run none before).1 _ _ row)

end Unconditional

/-- Some order of firing makes the row unconditional, under some context join. -/
def LooseAnyJoin (input : EngineInput) (r : Row) : Prop := ∃ j, (input.withJoin j).Loose r

/-- The facts of `f(fp) { $g = fp($h); $g = $h }` called as `f(id)`, where `id` returns its argument. -/
def globalRace (h : HybridContext) (join : ContextJoin) : EngineInput where
  facts :=
    { formalParam := [(1, .formal 0, .sharedFields), (2, .formal 0, .sharedFields), (2, .formal (-1), .shared)]
      actualParam := [(⟨1, 10⟩, 0, ⟨.global "h", .empty⟩), (⟨1, 10⟩, -1, ⟨.global "g", .empty⟩)]
      call := [(⟨3, 20⟩, 1)]
      assign := [(⟨1, 11⟩, ⟨.global "g", .empty⟩, ⟨.global "h", .empty⟩)]
      callTargetAssign := [(⟨3, 20⟩, ⟨.callArg 20 0, .empty⟩, .functionId 2)]
      constStrAssign := []
      calleeInfo := [(⟨1, 10⟩, ⟨.formal 0, .empty⟩, .c)]
      calleeResolvents := [(.functionId 2, .c, 2)]
      summary := [(2, .formal (-1), .empty, .formal 0, .empty)]
      paths := [.empty]
      intentFrame := []
      intentSend := []
      intentFilter := []
      intentComponent := []
      globalFlow := [] }
  config := ⟨true, h, join, false⟩

/-- The summary the race leaves behind: `$g <- $h` in `f`. -/
def raceSummary : Row := .summary 1 (.global "g") .empty (.global "h") .empty

/-- Resolving the call first leaves the conditional summary in the result. -/
theorem race_slips (join : ContextJoin) :
    ∃ t, Run (IndexRules (globalRace .decision join)) (globalRace .decision join).seed t ∧
      Saturated (IndexRules (globalRace .decision join)) t ∧ Present t raceSummary := by
  let d : Decision := ⟨0, .empty, .functionId 2⟩
  let under : CondOf (globalRace .decision join).hybridContext := .ofDecision _ d
  have run : Run (IndexRules (globalRace .decision join)) (globalRace .decision join).seed _ := .refl
  -- the indirect call in `f` is critical, so its caller establishes the decision `fp = id`
  have run := next run (.locals 1 (.formal 0) .empty (.formal 0) .empty) ⊤ (.root (.formal (.head _) rfl))
  have run := next run (.criticalSummary 1 0 .empty) ⊤ (.hybrid (.critical (.head _)
    (reads (.locals 1 (.formal 0) .empty (.formal 0) .empty) ⊤ rfl) rfl))
  have run := next run (.criticalCall 3) ⊤ (.tag (.criticalBelow
    (reads (.criticalSummary 1 0 .empty) ⊤ rfl).present (.head _)))
  have run := next run (.tagClosureFunc 3) ⊤ (.tag (.closureCritical (reads (.criticalCall 3) ⊤ rfl).present))
  have run := next run (.callTargetAssignLike 3 (.callArg 20 0) .empty (.functionId 2)) ⊤ (.tag (.stored
    ⟨20, .head _⟩ (reads (.tagClosureFunc 3) ⊤ rfl).present))
  have run := next run (.establishesDirect 1 d 3 20) ⊤ (.hybrid (.establishesDirect
    (reads (.criticalSummary 1 0 .empty) ⊤ rfl).present (.inl (.head _))
    (reads (.callTargetAssignLike 3 (.callArg 20 0) .empty (.functionId 2)) ⊤ rfl).present))
  have run := next run (.resolvent 1 0 .empty (.functionId 2) d) ⊤ (.hybrid (.resolventDirect (d := d)
    (reads (.establishesDirect 1 d 3 20) ⊤ rfl).present))
  -- the site calls `id` under that decision, and so does the flow through it
  have run := next run (.callSite 1 10 2) under (.hybrid (.decidedSite (.head _)
    (reads (.locals 1 (.formal 0) .empty (.formal 0) .empty) ⊤ rfl) rfl
    (reads (.resolvent 1 0 .empty (.functionId 2) d) ⊤ rfl).present (.head _)))
  have run := next run (.assignLike 1 (.callArg 10 (-1)) .empty (.callArg 10 0) .empty) under
    (.call (.instantiate (reads (.summary 2 (.formal (-1)) .empty (.formal 0) .empty) ⊤ rfl)
      (reads (.callSite 1 10 2) under rfl)))
  -- the flow from `$h` into the call's argument, through the call, and out to `$g`
  have run := next run (.globalMention 1 "h") ⊤ (.root (.mentionEdge
    (reads (.assignLike 1 (.global "g") .empty (.global "h") .empty) ⊤ rfl).present (.inr rfl)))
  have run := next run (.locals 1 (.global "h") .empty (.global "h") .empty) ⊤ (.root (.global
    (reads (.globalMention 1 "h") ⊤ rfl).present))
  have run := next run (.assignLike 1 (.callArg 10 0) .empty (.global "h") .empty) ⊤ (.call (.actualIn (.head _)))
  have run := next run (.assignLike 1 (.global "g") .empty (.callArg 10 (-1)) .empty) ⊤ (.call (.actualOut
    (.tail _ (.head _))))
  have run := next run (.edgeSplit 1 (.global "h") .empty .empty (.callArg 10 0) .empty) ⊤ (.field (.edgeSplit
    (reads (.assignLike 1 (.callArg 10 0) .empty (.global "h") .empty) ⊤ rfl) (.head _)))
  have run := next run (.locals 1 (.callArg 10 0) .empty (.global "h") .empty) ⊤ (.field (.localsFml
    (reads (.edgeSplit 1 (.global "h") .empty .empty (.callArg 10 0) .empty) ⊤ rfl)
    (reads (.locals 1 (.global "h") .empty (.global "h") .empty) ⊤ rfl) rfl rfl))
  have run := next run (.edgeSplit 1 (.callArg 10 0) .empty .empty (.callArg 10 (-1)) .empty) under
    (.field (.edgeSplit (reads (.assignLike 1 (.callArg 10 (-1)) .empty (.callArg 10 0) .empty) under rfl)
      (.head _)))
  have run := next run (.locals 1 (.callArg 10 (-1)) .empty (.global "h") .empty) under (.field (.localsFml
    (reads (.edgeSplit 1 (.callArg 10 0) .empty .empty (.callArg 10 (-1)) .empty) under rfl)
    (reads (.locals 1 (.callArg 10 0) .empty (.global "h") .empty) ⊤ rfl) rfl rfl))
  have run := next run (.edgeSplit 1 (.callArg 10 (-1)) .empty .empty (.global "g") .empty) ⊤ (.field (.edgeSplit
    (reads (.assignLike 1 (.global "g") .empty (.callArg 10 (-1)) .empty) ⊤ rfl) (.head _)))
  have run := next run (.locals 1 (.global "g") .empty (.global "h") .empty) under (.field (.localsFml
    (reads (.edgeSplit 1 (.callArg 10 (-1)) .empty .empty (.global "g") .empty) ⊤ rfl)
    (reads (.locals 1 (.callArg 10 (-1)) .empty (.global "h") .empty) under rfl) rfl rfl))
  -- still conditional, so it is a summary
  have run := next run raceSummary under (.globalSummary (.mk
    (reads (.locals 1 (.global "g") .empty (.global "h") .empty) under rfl) (by decide) rfl
    (fun both => Bool.noConfusion both.2) (.inl (by decide))))
  obtain ⟨t, more, sat⟩ := exists_saturated_of_active (fun _ _ _ fires => fires) (activeState_seed.run run)
  exact ⟨t, run.trans more, sat, (reads raceSummary under rfl).present.mono (more.le _)⟩

/-- Once the copy is unconditional, no rule derives the summary. -/
private theorem race_underivable {join : ContextJoin} {s : (globalRace .decision join).State}
    {c : CondOf (globalRace .decision join).hybridContext}
    (certain : Certain s (.locals 1 (.global "g") .empty (.global "h") .empty))
    (fires : IndexRules (globalRace .decision join) s raceSummary c) : False := by
  unfold raceSummary at fires
  cases fires with
  | summary fires =>
    cases fires with
    | formal row param root out moved =>
      simp only [FormalParam, globalRace, List.mem_cons, Prod.mk.injEq, List.not_mem_nil] at param
      rcases param with ⟨-, rfl, -⟩ | ⟨-, rfl, -⟩ | ⟨-, rfl, -⟩ | none
      all_goals simp_all [FlowVariable.asRoot]
    | aliased flow mixed => exact mixed ⟨rfl, rfl⟩
  | globalSummary fires =>
    cases fires with
    | mk row inside dst guarded moved =>
      obtain rfl := FlowVariable.asGlobal_eq_some.mp dst
      have unconditional : c = ⊤ := WithBot.coe_inj.mp (row.symm.trans certain)
      exact guarded ⟨rfl, isAlways_iff.mpr unconditional⟩
  | _ fires => cases fires

/-- Deriving the plain copy first leaves no such summary. -/
theorem race_settles (join : ContextJoin) :
    ∃ t, Run (IndexRules (globalRace .decision join)) (globalRace .decision join).seed t ∧
      Saturated (IndexRules (globalRace .decision join)) t ∧ ¬ Present t raceSummary := by
  have run : Run (IndexRules (globalRace .decision join)) (globalRace .decision join).seed _ := .refl
  have run := next run (.globalMention 1 "h") ⊤ (.root (.mentionEdge
    (reads (.assignLike 1 (.global "g") .empty (.global "h") .empty) ⊤ rfl).present (.inr rfl)))
  have run := next run (.locals 1 (.global "h") .empty (.global "h") .empty) ⊤ (.root (.global
    (reads (.globalMention 1 "h") ⊤ rfl).present))
  have run := next run (.edgeSplit 1 (.global "h") .empty .empty (.global "g") .empty) ⊤ (.field (.edgeSplit
    (reads (.assignLike 1 (.global "g") .empty (.global "h") .empty) ⊤ rfl) (.head _)))
  have run := next run (.locals 1 (.global "g") .empty (.global "h") .empty) ⊤ (.field (.localsFml
    (reads (.edgeSplit 1 (.global "h") .empty .empty (.global "g") .empty) ⊤ rfl)
    (reads (.locals 1 (.global "h") .empty (.global "h") .empty) ⊤ rfl) rfl rfl))
  obtain ⟨t, more, sat⟩ := exists_saturated_of_active (fun _ _ _ fires => fires) (activeState_seed.run run)
  refine ⟨t, run.trans more, sat, ?_⟩
  -- from here on the copy is unconditional, and no other rule derives the summary
  have settled := more.preserves (I := fun s : (globalRace .decision join).State =>
    Certain s (.locals 1 (.global "g") .empty (.global "h") .empty) ∧ ¬ Present s raceSummary)
    ⟨rfl, fun present => present rfl⟩ ?_
  · exact settled.2
  · rintro s r c ⟨certain, absent⟩ fires
    refine ⟨certain.mono (s.le_insert r c _), fun present => ?_⟩
    rcases Store.of_insert present with rfl | old
    · exact race_underivable certain fires
    · exact absent old

end EngineInput

end Ctadl.Index
