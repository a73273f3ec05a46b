import Ctadl.Index.Termination

/-! # What the resolvent table decides

`callee_resolvents` is read by the resolution rules only, each time beside a deferred site and a target its
receiver may hold. Rows that no reachable state joins can be dropped: the runs over the smaller table are the
runs over the whole one (`run_withResolvents_iff`), so every outcome is the same.
-/

namespace Ctadl.Index

open Facts Datalog

/-- A row of the resolvent table: what the receiver holds, how the site dispatches, what it calls. -/
abbrev Resolvent := CallTargetObject × CallDispatchKey × FunctionId

namespace EngineInput

/-- The same run over another resolvent table. -/
def withResolvents (input : EngineInput) (rows : List Resolvent) : EngineInput :=
  { input with facts := { input.facts with calleeResolvents := rows } }

/-- A state meets a row at a site: the site dispatches on the row's key, and its receiver holds the row's target or
has been decided to hold it. -/
def Joins (input : EngineInput) (s : input.State) (row : Resolvent) (f : FunctionId) (insn : InsnId) : Prop :=
  ∃ v p, input.CalleeInfo f insn v p row.2.1 ∧
    (Present s (.callTargetAssignLike f v p row.1) ∨
      ∃ r n q d, Certain s (.locals f v p r q) ∧ r.asFormal = some n ∧ Present s (.resolvent f n q row.1 d))

end EngineInput

section Transfer

variable {input : EngineInput} {rows : List Resolvent} {s : input.State} {r : Row} {c : CondOf input.hybridContext}

theorem EngineInput.AliasOfFormal.withResolvents {f : FunctionId} {v : FlowVariable} {n : Root} (aliased : input.AliasOfFormal f v n) :
    (input.withResolvents rows).AliasOfFormal f v n := by
  induction aliased with
  | formal param shared => exact .formal param shared
  | global copied => exact .global copied
  | copy _ copied away ih => exact .copy ih copied away

theorem RootRule.withResolvents (fires : RootRule input s r c) :
    RootRule (input.withResolvents rows) s r c := by
  cases fires with
  | formal param index => exact .formal param index
  | mentionEdge edge named => exact .mentionEdge edge named
  | mentionCallee info named => exact .mentionCallee info named
  | mentionTarget stored named => exact .mentionTarget stored named
  | mentionString stored named => exact .mentionString stored named
  | mentionFrame mention => exact .mentionFrame mention
  | global mention => exact .global mention

theorem FieldRule.withResolvents (fires : FieldRule input s r c) :
    FieldRule (input.withResolvents rows) s r c := by
  cases fires with
  | reachVp row => exact .reachVp row
  | localsKey reach split => exact .localsKey reach split
  | localsKeyWild reach split => exact .localsKeyWild reach split
  | localsWild reach split => exact .localsWild reach split
  | assignWild edge split => exact .assignWild edge split
  | edgeSplit edge split => exact .edgeSplit edge split
  | edgeSplitWild edge split => exact .edgeSplitWild edge split
  | extDst keyed edge admissible => exact .extDst keyed edge admissible
  | extDstWild keyed edge wild admissible => exact .extDstWild keyed edge wild admissible
  | localsDst ext row both => exact .localsDst ext row both
  | localsFml ext row both admissible => exact .localsFml ext row both admissible
  | extFml ext keyed wild => exact .extFml ext keyed wild
  | localsFmlWild ext row both admissible => exact .localsFmlWild ext row both admissible

theorem CallRule.withResolvents (fires : CallRule input s r c) :
    CallRule (input.withResolvents rows) s r c := by
  cases fires with
  | actualOut param => exact .actualOut param
  | actualIn param => exact .actualIn param
  | direct call => exact .direct call
  | instantiate flow site => exact .instantiate flow site

theorem StringRule.withResolvents (fires : StringRule input s r c) :
    StringRule (input.withResolvents rows) s r c := by
  cases fires with
  | stored frame fact => exact .stored frame fact
  | step frame label edge admissible => exact .step frame label edge admissible
  | explicit send label component => exact .explicit send label component
  | implicit send label filter untyped => exact .implicit send label filter untyped
  | implicitTyped send label typed filter some accepts => exact .implicitTyped send label typed filter some accepts
  | resolve pair => exact .resolve pair

theorem SummaryRule.withResolvents (fires : SummaryRule input s r c) :
    SummaryRule (input.withResolvents rows) s r c := by
  cases fires with
  | formal row param root out moved => exact .formal row param root out moved
  | frameEdge row inside dst src moved => exact .frameEdge row inside dst src moved
  | aliased flow mixed => exact .aliased flow mixed
  | aliasFrame flow dst src => exact .aliasFrame flow dst src
  | aliasFlow row field shared store aliased enabled moved =>
    exact .aliasFlow row field shared store aliased.withResolvents enabled moved

theorem GlobalSummaryRule.withResolvents (fires : GlobalSummaryRule input s r c) :
    GlobalSummaryRule (input.withResolvents rows) s r c := by
  cases fires with
  | mk row inside dst guarded moved => exact .mk row inside dst guarded moved

theorem ScanRule.withResolvents (fires : ScanRule input s r c) :
    ScanRule (input.withResolvents rows) s r c := by
  cases fires with
  | direct join flow set established member site => exact .direct join flow set established member site
  | via join flow set established member site both => exact .via join flow set established member site both

theorem SetsRule.withResolvents (fires : SetsRule input s r c) :
    SetsRule (input.withResolvents rows) s r c := by
  cases fires with
  | summarySet join flow set => exact .summarySet join flow set
  | member row listed member => exact .member row listed member
  | top row widened => exact .top row widened
  | memberDirect member established => exact .memberDirect member established
  | topDirect widened established => exact .topDirect widened established
  | memberVia member established => exact .memberVia member established
  | topVia widened established => exact .topVia widened established
  | direct join flow set established site => exact .direct join flow set established site
  | via join flow set established site both => exact .via join flow set established site both

theorem UnfoldRule.withResolvents (fires : UnfoldRule input s r c) :
    UnfoldRule (input.withResolvents rows) s r c := by
  cases fires with
  | summaryD join flow set listed member => exact .summaryD join flow set listed member
  | topFunc join flow set widened => exact .topFunc join flow set widened
  | topSummaryD func decided flow set widened => exact .topSummaryD func decided flow set widened
  | direct flow established site => exact .direct flow established site
  | via flow established site both => exact .via flow established site both

theorem TagRule.withResolvents (fires : TagRule input s r c) :
    TagRule (input.withResolvents rows) s r c := by
  cases fires with
  | closureCritical critical => exact .closureCritical critical
  | closureCalled stored call => exact .closureCalled stored call
  | closureCaller tag param index out call => exact .closureCaller tag param index out call
  | stored fact demand => exact .stored fact demand
  | vp demand tag => exact .vp demand tag
  | key vp split => exact .key vp split
  | keyWild vp split => exact .keyWild vp split
  | edge keyed edge admissible => exact .edge keyed edge admissible
  | edgeWild keyed edge wild admissible => exact .edgeWild keyed edge wild admissible
  | step edge tag => exact .step edge tag
  | returned tag param index out call => exact .returned tag param index out call
  | criticalHere info => exact .criticalHere info
  | criticalBelow crit call => exact .criticalBelow crit call

theorem GlobalRule.withResolvents (fires : GlobalRule input s r c) :
    GlobalRule (input.withResolvents rows) s r c := by
  cases fires with
  | readEdge edge inside named => exact .readEdge edge inside named
  | readCallee info named => exact .readCallee info named
  | closureFrame => exact .closureFrame
  | closureMention stored mention inside => exact .closureMention stored mention inside
  | tagUp tag inside global => exact .tagUp tag inside global
  | frameUp frame inside => exact .frameUp frame inside
  | stringUp label inside global => exact .stringUp label inside global
  | tagKey tag named split => exact .tagKey tag named split
  | stringKey label named split => exact .stringKey label named split
  | labelRead keyed read => exact .labelRead keyed read
  | tagDown read tag => exact .tagDown read tag
  | closureDown read tag => exact .closureDown read tag
  | stringDown read frame label => exact .stringDown read frame label

/-- The resolution rules over another table that holds every row a state joins. -/
theorem HybridRule.withResolvents
    (holds : ∀ row ∈ input.facts.calleeResolvents, ∀ f insn, input.Joins s row f insn → row ∈ rows)
    (fires : HybridRule input s r c) : HybridRule (input.withResolvents rows) s r c := by
  cases fires with
  | critical info row index => exact .critical info row index
  | criticalUp call crit split row index admissible => exact .criticalUp call crit split row index admissible
  | establishesDirect crit call tag => exact .establishesDirect crit call tag
  | resolventDirect established => exact .resolventDirect established
  | criticalArg crit call split => exact .criticalArg crit call split
  | criticalReach row index passed admissible => exact .criticalReach row index passed admissible
  | establishesVia reach decided => exact .establishesVia reach decided
  | resolventVia established => exact .resolventVia established
  | decidedSite info row index decided resolves =>
    exact .decidedSite info row index decided (holds _ resolves _ _ ⟨_, _, info, .inr ⟨_, _, _, _, row, index, decided⟩⟩)
  | decidedCall info row index decided resolves =>
    exact .decidedCall info row index decided (holds _ resolves _ _ ⟨_, _, info, .inr ⟨_, _, _, _, row, index, decided⟩⟩)
  | localCall info tag resolves => exact .localCall info tag (holds _ resolves _ _ ⟨_, _, info, .inl tag⟩)
  | fnptrCall resolved info => exact .fnptrCall resolved info
  | localSite info tag resolves => exact .localSite info tag (holds _ resolves _ _ ⟨_, _, info, .inl tag⟩)

/-- A firing over one table is a firing over another that holds every row the state joins. -/
theorem IndexRules.withResolvents
    (holds : ∀ row ∈ input.facts.calleeResolvents, ∀ f insn, input.Joins s row f insn → row ∈ rows)
    (fires : IndexRules input s r c) : IndexRules (input.withResolvents rows) s r c := by
  cases fires with
  | root fires => exact .root fires.withResolvents
  | field fires => exact .field fires.withResolvents
  | call fires => exact .call fires.withResolvents
  | string fires => exact .string fires.withResolvents
  | summary fires => exact .summary fires.withResolvents
  | globalSummary fires => exact .globalSummary fires.withResolvents
  | hybrid fires => exact .hybrid (fires.withResolvents holds)
  | scan fires => exact .scan fires.withResolvents
  | sets fires => exact .sets fires.withResolvents
  | unfold fires => exact .unfold fires.withResolvents
  | tag fires => exact .tag fires.withResolvents
  | globals fires => exact .globals fires.withResolvents

/-- And back. -/
theorem IndexRules.of_withResolvents
    (dead : ∀ row ∈ rows, ∀ f insn, input.Joins s row f insn → row ∈ input.facts.calleeResolvents)
    (fires : IndexRules (input.withResolvents rows) s r c) : IndexRules input s r c := by
  have back : IndexRules ((input.withResolvents rows).withResolvents input.facts.calleeResolvents) s r c :=
    fires.withResolvents dead
  exact back

end Transfer

namespace EngineInput

section Runs

variable {input : EngineInput} {rows : List Resolvent}

/-- More rows let every run go on. -/
theorem run_withResolvents_of_subset {s t : input.State} (grows : input.facts.calleeResolvents ⊆ rows)
    (run : Run (IndexRules input) s t) : Run (IndexRules (input.withResolvents rows)) s t :=
  Run.mono (fun _ _ _ fires => IndexRules.withResolvents (fun _ row _ _ _ => grows row) fires) run

/-- Where no state reached over the smaller table joins a row outside it, the larger table has the same runs. -/
theorem run_withResolvents_iff (grows : input.facts.calleeResolvents ⊆ rows)
    (dead : ∀ s, Run (IndexRules input) input.seed s → ∀ row ∈ rows, ∀ f insn, input.Joins s row f insn →
      row ∈ input.facts.calleeResolvents) {t : input.State} :
    Run (IndexRules (input.withResolvents rows)) (input.withResolvents rows).seed t ↔
      Run (IndexRules input) input.seed t := by
  constructor
  · intro run
    induction run with
    | refl => exact .refl
    | tail _ step ih =>
      obtain ⟨r, c, fires, rfl⟩ := step
      exact ih.snoc (IndexRules.of_withResolvents (dead _ ih) fires)
  · exact run_withResolvents_of_subset grows

/-- The same states are saturated. -/
theorem saturated_withResolvents_iff (grows : input.facts.calleeResolvents ⊆ rows) {t : input.State}
    (dead : ∀ row ∈ rows, ∀ f insn, input.Joins t row f insn → row ∈ input.facts.calleeResolvents) :
    Saturated (IndexRules (input.withResolvents rows)) t ↔ Saturated (IndexRules input) t := by
  constructor
  · intro sat r c fires
    exact sat r c (IndexRules.withResolvents (fun _ row _ _ _ => grows row) fires)
  · intro sat r c fires
    exact sat r c (IndexRules.of_withResolvents dead fires)

end Runs

private theorem not_intentPair {input : EngineInput} (intents : input.facts.intentSend = []) {s : input.State}
    {c : CondOf input.hybridContext} {f : FunctionId} {insn : InsnId} {recv : FunctionId} {kind : IntentPairKind}
    (fires : IndexRules input s (.intentPair f insn recv kind) c) : False := by
  cases fires with
  | string fires =>
    cases fires with
    | explicit send | implicit send | implicitTyped send => simp [intents] at send
  | root fires | field fires | call fires | summary fires | globalSummary fires | hybrid fires | scan fires | sets fires
  | unfold fires | tag fires | globals fires => cases fires

/-- A resolved call comes from a pair of intents or from a row of the table. -/
private theorem resolvedCall_cases {input : EngineInput} {s : input.State} {c : CondOf input.hybridContext}
    {f : FunctionId} {insn : InsnId} {callee : FunctionId} (fires : IndexRules input s (.resolvedCall f insn callee) c) :
    (∃ kind, Present s (.intentPair f insn callee kind)) ∨ ∃ row ∈ input.facts.calleeResolvents, row.2.2 = callee := by
  cases fires with
  | string fires =>
    cases fires with
    | resolve pair => exact .inl ⟨_, pair⟩
  | hybrid fires =>
    cases fires with
    | decidedCall _ _ _ _ resolves | localCall _ _ resolves => exact .inr ⟨_, resolves, rfl⟩
  | root fires | field fires | call fires | summary fires | globalSummary fires | scan fires | sets fires | unfold fires
  | tag fires | globals fires => cases fires

/-- Without intents, a resolved call calls what a row of the table says. -/
theorem resolvedCall_callee {input : EngineInput} (intents : input.facts.intentSend = []) {t : input.State}
    (run : Run (IndexRules input) input.seed t) {f : FunctionId} {insn : InsnId} {callee : FunctionId}
    (resolved : Present t (.resolvedCall f insn callee)) : ∃ row ∈ input.facts.calleeResolvents, row.2.2 = callee := by
  have rows : (∀ f insn recv kind, ¬ Present t (.intentPair f insn recv kind)) ∧ ∀ f insn callee,
      Present t (.resolvedCall f insn callee) → ∃ row ∈ input.facts.calleeResolvents, row.2.2 = callee := by
    apply run.preserves (I := fun t => (∀ f insn recv kind, ¬ Present t (.intentPair f insn recv kind)) ∧
      ∀ f insn callee, Present t (.resolvedCall f insn callee) →
        ∃ row ∈ input.facts.calleeResolvents, row.2.2 = callee)
    · exact ⟨fun _ _ _ _ => input.not_present_seed rfl, fun _ _ _ row => absurd row (input.not_present_seed rfl)⟩
    · rintro s r c ⟨unpaired, known⟩ fires
      constructor
      · intro f insn recv kind paired
        rcases Store.present_insert.mp paired with rfl | old
        · exact not_intentPair intents fires
        · exact unpaired _ _ _ _ old
      · intro f insn callee resolved
        rcases Store.present_insert.mp resolved with rfl | old
        · rcases resolvedCall_cases fires with ⟨kind, pair⟩ | row
          · exact absurd pair (unpaired _ _ _ kind)
          · exact row
        · exact known _ _ _ old
  exact rows.2 _ _ _ resolved

end EngineInput

end Ctadl.Index
