import Ctadl.Index.Order

/-! # Walking call targets on demand

Call targets are propagated only in the functions `tag_closure_func` admits. The rows this gate decides
are the tags and what leads to them (`onDemand`); every other row reads a tag only where the gate is open
anyway. A run with the gate open everywhere holds more tags than a gated one, but each of them is either
derived by the gated run or a tag the function stored itself and no rule outside it reads (`OwnTag`). Both
kinds of run can be driven through the same firings of the other rules, so they reach the same results.
-/

namespace Ctadl.Index

open Facts Datalog

/-- The rows of the call-target walk, and those that only decide where it goes. -/
def Row.onDemand : Row → Bool
  | callTargetAssignLike .. | callTargetVp .. | callTargetKey .. | callTargetKeyWild .. | callTargetEdge ..
  | tagClosureFunc .. | criticalCall .. | globalMention .. => true
  | _ => false

namespace EngineInput

variable {input : EngineInput}

/-- The state with `tag_closure_func` at every function. -/
def opened (s : input.State) : input.State
  | .tagClosureFunc _ => ((⊤ : CondOf input.hybridContext) : WithBot _)
  | r => s r

/-- The state a run starts from when `tag_closure_func` holds of every function. -/
def openGate (input : EngineInput) : input.State := opened input.seed

/-- The rows off the walk are the same. -/
def AgreeOffDemand (input : EngineInput) (s t : input.State) : Prop := ∀ r : Row, r.onDemand = false → s r = t r

/-- What the rules off the walk read carries over from one state to another. -/
structure Transfers (input : EngineInput) (s t : input.State) : Prop where
  agree : input.AgreeOffDemand s t
  mention : ∀ {f g}, Present s (.globalMention f g) → Present t (.globalMention f g)
  established : ∀ {f n p caller insn tgt}, Present s (.criticalSummary f n p) → input.Calls s caller insn f →
    Present s (.callTargetAssignLike caller (.callArg insn n) p tgt) →
    Present t (.callTargetAssignLike caller (.callArg insn n) p tgt)
  callee : ∀ {f insn v p key tgt}, input.CalleeInfo f insn v p key →
    Present s (.callTargetAssignLike f v p tgt) → Present t (.callTargetAssignLike f v p tgt)
  frame : ∀ {v p tgt}, Present s (.callTargetAssignLike GLOBAL_FRAME v p tgt) →
    Present t (.callTargetAssignLike GLOBAL_FRAME v p tgt)

section Transfer

variable {s t : input.State} {r : Row} {c : CondOf input.hybridContext}

theorem Calls.transfer {caller callee : FunctionId} {insn : InsnId} (agree : input.AgreeOffDemand s t)
    (call : input.Calls s caller insn callee) : input.Calls t caller insn callee :=
  call.imp id fun row => row.of_eq (agree _ rfl)

theorem FieldRule.transfer (agree : input.AgreeOffDemand s t) (fires : FieldRule input s r c) : FieldRule input t r c := by
  cases fires with
  | reachVp row => exact .reachVp (row.of_eq (agree _ rfl))
  | localsKey reach split => exact .localsKey (reach.of_eq (agree _ rfl)) split
  | localsKeyWild reach split => exact .localsKeyWild (reach.of_eq (agree _ rfl)) split
  | localsWild reach split => exact .localsWild (reach.of_eq (agree _ rfl)) split
  | assignWild edge split => exact .assignWild (edge.of_eq (agree _ rfl)) split
  | edgeSplit edge split => exact .edgeSplit (edge.of_eq (agree _ rfl)) split
  | edgeSplitWild edge split => exact .edgeSplitWild (edge.of_eq (agree _ rfl)) split
  | extDst keyed edge admissible =>
    exact .extDst (keyed.of_eq (agree _ rfl)) (edge.of_eq (agree _ rfl)) admissible
  | extDstWild keyed edge wild admissible =>
    exact .extDstWild (keyed.of_eq (agree _ rfl)) (edge.of_eq (agree _ rfl)) wild admissible
  | localsDst ext row both =>
    exact .localsDst (ext.of_eq (agree _ rfl)) (row.of_eq (agree _ rfl)) both
  | localsFml ext row both admissible =>
    exact .localsFml (ext.of_eq (agree _ rfl)) (row.of_eq (agree _ rfl)) both admissible
  | extFml ext keyed wild => exact .extFml (ext.of_eq (agree _ rfl)) (keyed.of_eq (agree _ rfl)) wild
  | localsFmlWild ext row both admissible =>
    exact .localsFmlWild (ext.of_eq (agree _ rfl)) (row.of_eq (agree _ rfl)) both admissible

theorem CallRule.transfer (agree : input.AgreeOffDemand s t) (fires : CallRule input s r c) : CallRule input t r c := by
  cases fires with
  | actualOut param => exact .actualOut param
  | actualIn param => exact .actualIn param
  | direct call => exact .direct call
  | instantiate flow site => exact .instantiate (flow.of_eq (agree _ rfl)) (site.of_eq (agree _ rfl))

theorem StringRule.transfer (agree : input.AgreeOffDemand s t) (fires : StringRule input s r c) : StringRule input t r c := by
  cases fires with
  | stored frame fact => exact .stored (frame.of_eq (agree _ rfl)) fact
  | step frame label edge admissible =>
    exact .step (frame.of_eq (agree _ rfl)) (label.of_eq (agree _ rfl)) (edge.of_eq (agree _ rfl)) admissible
  | explicit send label component => exact .explicit send (label.of_eq (agree _ rfl)) component
  | implicit send label filter untyped =>
    exact .implicit send (label.of_eq (agree _ rfl)) filter untyped
  | implicitTyped send label typed filter some accepts =>
    exact .implicitTyped send (label.of_eq (agree _ rfl)) (typed.of_eq (agree _ rfl)) filter some accepts
  | resolve pair => exact .resolve (pair.of_eq (agree _ rfl))

theorem SummaryRule.transfer (agree : input.AgreeOffDemand s t) (fires : SummaryRule input s r c) : SummaryRule input t r c := by
  cases fires with
  | formal row param root out moved => exact .formal (row.of_eq (agree _ rfl)) param root out moved
  | frameEdge row inside dst src moved =>
    exact .frameEdge (row.of_eq (agree _ rfl)) inside dst src moved
  | aliased flow mixed => exact .aliased (flow.of_eq (agree _ rfl)) mixed
  | aliasFrame flow dst src => exact .aliasFrame (flow.of_eq (agree _ rfl)) dst src
  | aliasFlow row field shared store aliased enabled moved =>
    exact .aliasFlow (row.of_eq (agree _ rfl)) field shared store aliased enabled moved

theorem GlobalSummaryRule.transfer (agree : input.AgreeOffDemand s t) (fires : GlobalSummaryRule input s r c) : GlobalSummaryRule input t r c := by
  cases fires with
  | mk row inside dst guarded moved => exact .mk (row.of_eq (agree _ rfl)) inside dst guarded moved

theorem ScanRule.transfer (agree : input.AgreeOffDemand s t) (fires : ScanRule input s r c) : ScanRule input t r c := by
  cases fires with
  | direct join flow set established member site =>
    exact .direct join (flow.of_eq (agree _ rfl)) set (established.of_eq (agree _ rfl)) member (site.of_eq (agree _ rfl))
  | via join flow set established member site both =>
    exact .via join (flow.of_eq (agree _ rfl)) set (established.of_eq (agree _ rfl)) member (site.of_eq (agree _ rfl)) both

theorem SetsRule.transfer (agree : input.AgreeOffDemand s t) (fires : SetsRule input s r c) : SetsRule input t r c := by
  cases fires with
  | summarySet join flow set => exact .summarySet join (flow.of_eq (agree _ rfl)) set
  | member row listed member => exact .member (row.of_eq (agree _ rfl)) listed member
  | top row widened => exact .top (row.of_eq (agree _ rfl)) widened
  | memberDirect member established =>
    exact .memberDirect (member.of_eq (agree _ rfl)) (established.of_eq (agree _ rfl))
  | topDirect widened established =>
    exact .topDirect (widened.of_eq (agree _ rfl)) (established.of_eq (agree _ rfl))
  | memberVia member established =>
    exact .memberVia (member.of_eq (agree _ rfl)) (established.of_eq (agree _ rfl))
  | topVia widened established =>
    exact .topVia (widened.of_eq (agree _ rfl)) (established.of_eq (agree _ rfl))
  | direct join flow set established site =>
    exact .direct join (flow.of_eq (agree _ rfl)) set (established.of_eq (agree _ rfl)) (site.of_eq (agree _ rfl))
  | via join flow set established site both =>
    exact .via join (flow.of_eq (agree _ rfl)) set (established.of_eq (agree _ rfl)) (site.of_eq (agree _ rfl)) both

theorem UnfoldRule.transfer (agree : input.AgreeOffDemand s t) (fires : UnfoldRule input s r c) : UnfoldRule input t r c := by
  cases fires with
  | summaryD join flow set listed member =>
    exact .summaryD join (flow.of_eq (agree _ rfl)) set listed member
  | topFunc join flow set widened => exact .topFunc join (flow.of_eq (agree _ rfl)) set widened
  | topSummaryD func decided flow set widened =>
    exact .topSummaryD (func.of_eq (agree _ rfl)) (decided.of_eq (agree _ rfl)) (flow.of_eq (agree _ rfl)) set widened
  | direct flow established site =>
    exact .direct (flow.of_eq (agree _ rfl)) (established.of_eq (agree _ rfl)) (site.of_eq (agree _ rfl))
  | via flow established site both =>
    exact .via (flow.of_eq (agree _ rfl)) (established.of_eq (agree _ rfl)) (site.of_eq (agree _ rfl)) both

theorem HybridRule.transfer (transfers : input.Transfers s t) (fires : HybridRule input s r c) :
    HybridRule input t r c := by
  have agree := transfers.agree
  cases fires with
  | critical info row index => exact .critical info (row.of_eq (agree _ rfl)) index
  | criticalUp call crit split row index admissible =>
    exact .criticalUp (Calls.transfer agree call) (crit.of_eq (agree _ rfl)) split (row.of_eq (agree _ rfl))
      index admissible
  | establishesDirect crit call tag =>
    exact .establishesDirect (crit.of_eq (agree _ rfl)) (Calls.transfer agree call)
      (transfers.established crit call tag)
  | resolventDirect established => exact .resolventDirect (established.of_eq (agree _ rfl))
  | criticalArg crit call split => exact .criticalArg (crit.of_eq (agree _ rfl)) (Calls.transfer agree call) split
  | criticalReach row index passed admissible =>
    exact .criticalReach (row.of_eq (agree _ rfl)) index (passed.of_eq (agree _ rfl)) admissible
  | establishesVia reach decided => exact .establishesVia (reach.of_eq (agree _ rfl)) (decided.of_eq (agree _ rfl))
  | resolventVia established => exact .resolventVia (established.of_eq (agree _ rfl))
  | decidedSite info row index decided resolves =>
    exact .decidedSite info (row.of_eq (agree _ rfl)) index (decided.of_eq (agree _ rfl)) resolves
  | decidedCall info row index decided resolves =>
    exact .decidedCall info (row.of_eq (agree _ rfl)) index (decided.of_eq (agree _ rfl)) resolves
  | localCall info tag resolves => exact .localCall info (transfers.callee info tag) resolves
  | fnptrCall resolved info => exact .fnptrCall (resolved.of_eq (agree _ rfl)) info
  | localSite info tag resolves => exact .localSite info (transfers.callee info tag) resolves

theorem GlobalRule.transfer (transfers : input.Transfers s t) (off : r.onDemand = false)
    (fires : GlobalRule input s r c) : GlobalRule input t r c := by
  have agree := transfers.agree
  cases fires with
  | readEdge edge inside named => exact .readEdge (edge.of_eq (agree _ rfl)) inside named
  | readCallee info named => exact .readCallee info named
  | frameUp frame inside => exact .frameUp (frame.of_eq (agree _ rfl)) inside
  | stringUp label inside global => exact .stringUp (label.of_eq (agree _ rfl)) inside global
  | tagKey tag named split => exact .tagKey (transfers.frame tag) named split
  | stringKey label named split => exact .stringKey (label.of_eq (agree _ rfl)) named split
  | labelRead keyed read => exact .labelRead (keyed.of_eq (agree _ rfl)) (read.of_eq (agree _ rfl))
  | stringDown read frame label =>
    exact .stringDown (read.of_eq (agree _ rfl)) (frame.of_eq (agree _ rfl)) (label.of_eq (agree _ rfl))
  | _ => simp [Row.onDemand] at off

/-- A rule off the walk fires in both states alike. -/
theorem IndexRules.transfer (transfers : input.Transfers s t) (off : r.onDemand = false)
    (fires : IndexRules input s r c) : IndexRules input t r c := by
  have agree := transfers.agree
  cases fires with
  | root fires =>
    refine .root ?_
    cases fires with
    | formal param index => exact .formal param index
    | global mention => exact .global (transfers.mention mention)
    | _ => simp [Row.onDemand] at off
  | field fires => exact .field (FieldRule.transfer agree fires)
  | call fires => exact .call (CallRule.transfer agree fires)
  | string fires => exact .string (StringRule.transfer agree fires)
  | summary fires => exact .summary (SummaryRule.transfer agree fires)
  | globalSummary fires => exact .globalSummary (GlobalSummaryRule.transfer agree fires)
  | hybrid fires => exact .hybrid (HybridRule.transfer transfers fires)
  | scan fires => exact .scan (ScanRule.transfer agree fires)
  | sets fires => exact .sets (SetsRule.transfer agree fires)
  | unfold fires => exact .unfold (UnfoldRule.transfer agree fires)
  | tag fires => cases fires <;> simp [Row.onDemand] at off
  | globals fires => exact .globals (GlobalRule.transfer transfers off fires)

end Transfer

/-- An edge of `f` that carries a tag on `v2.p23` to `v1.p13`. -/
inductive TagStep (input : EngineInput) (s : input.State) (f : FunctionId) :
    FlowVariable → Path → FlowVariable → Path → Prop
  | exact {v1 p1 v2 key rest p13 p23} (split : (key, rest) ∈ tagSplits input.pathSet p23)
      (edge : Certain s (.assignLike f v1 p1 v2 key))
      (admissible : input.pathSet.concat p1 none rest = some p13) : TagStep input s f v1 p13 v2 p23
  | wild {v1 p1 v2 key rest m adj tail p13 p23} (split : (key, rest) ∈ (input.pathSet.splits p23).wild)
      (edge : Certain s (.assignWild f v2 key m v1 p1)) (wild : rest.wildRest m = some (adj, tail))
      (admissible : input.pathSet.concat p1 (some adj) tail = some p13) : TagStep input s f v1 p13 v2 p23

/-- A tag `f` stores itself, carried along its own edges. -/
inductive OwnTag (input : EngineInput) (s : input.State) (f : FunctionId) :
    FlowVariable → Path → CallTargetObject → Prop
  | stored {v p tgt} (fact : input.CallTargetAssign f v p tgt) : OwnTag input s f v p tgt
  | step {v1 p13 v2 p23 tgt} (tag : OwnTag input s f v2 p23 tgt) (edge : input.TagStep s f v1 p13 v2 p23) :
      OwnTag input s f v1 p13 tgt

/-- What the rows of the walk stand for, and where function-pointer calls and wild edges come from. -/
structure Walked (input : EngineInput) (s : input.State) : Prop where
  fnptr : ∀ {f insn callee}, Present s (.fnptrCall f insn callee) → ∃ v p, input.CalleeInfo f insn v p .c
  wild : ∀ {f v2 key m v1 p1}, Present s (.assignWild f v2 key m v1 p1) →
    ∃ p2, Present s (.assignLike f v1 p1 v2 p2)
  key : ∀ {f v key rest p}, Present s (.callTargetKey f v key rest p) → (key, rest) ∈ tagSplits input.pathSet p
  keyWild : ∀ {f v key rest p}, Present s (.callTargetKeyWild f v key rest p) →
    (key, rest) ∈ (input.pathSet.splits p).wild
  edge : ∀ {f v1 p13 v2 p23}, Present s (.callTargetEdge f v1 p13 v2 p23) → input.TagStep s f v1 p13 v2 p23

/-- The firings of the walk. -/
def DemandRules (input : EngineInput) : Rules Row (CondOf input.hybridContext) :=
  fun s r c => IndexRules input s r c ∧ r.onDemand

section Walk

variable {s t : input.State} {f : FunctionId} {v v1 v2 : FlowVariable} {p p13 p23 : Path} {tgt : CallTargetObject}

theorem TagStep.mono (below : input.AgreeOffDemand s t ∨ s ≤ t) (step : input.TagStep s f v1 p13 v2 p23) :
    input.TagStep t f v1 p13 v2 p23 := by
  have up {r : Row} (certain : Certain s r) (off : r.onDemand = false) : Certain t r := by
    rcases below with agree | below
    · exact certain.of_eq (agree r off)
    · exact certain.mono (below r)
  cases step with
  | exact split edge admissible => exact .exact split (up edge rfl) admissible
  | wild split edge wild admissible => exact .wild split (up edge rfl) wild admissible

theorem OwnTag.mono (below : s ≤ t) (tag : input.OwnTag s f v p tgt) : input.OwnTag t f v p tgt := by
  induction tag with
  | stored fact => exact .stored fact
  | step _ edge ih => exact .step ih (edge.mono (.inr below))

/-- A function with a tag of its own stores a target. -/
theorem OwnTag.stores (tag : input.OwnTag s f v p tgt) : ∃ v p tgt, input.CallTargetAssign f v p tgt := by
  induction tag with
  | stored fact => exact ⟨_, _, _, fact⟩
  | step _ _ ih => exact ih

theorem Walked.seed : input.Walked input.seed :=
  ⟨fun row => absurd row (input.not_present_seed rfl), fun row => absurd row (input.not_present_seed rfl),
    fun row => absurd row (input.not_present_seed rfl), fun row => absurd row (input.not_present_seed rfl),
    fun row => absurd row (input.not_present_seed rfl)⟩

theorem Walked.openGate : input.Walked input.openGate :=
  ⟨fun row => absurd row (input.not_present_seed rfl), fun row => absurd row (input.not_present_seed rfl),
    fun row => absurd row (input.not_present_seed rfl), fun row => absurd row (input.not_present_seed rfl),
    fun row => absurd row (input.not_present_seed rfl)⟩

theorem Walked.insert {r : Row} {c : CondOf input.hybridContext} (walked : input.Walked s)
    (fires : IndexRules input s r c) : input.Walked (s.insert r c) := by
  have below := s.le_insert r c
  refine ⟨fun row => ?_, fun row => ?_, fun row => ?_, fun row => ?_, fun row => ?_⟩
  · rcases Store.of_insert row with rfl | old
    · cases fires with
      | hybrid fires => cases fires with
        | fnptrCall _ info => exact ⟨_, _, info⟩
      | _ fires => cases fires
    · exact walked.fnptr old
  · rcases Store.of_insert row with rfl | old
    · cases fires with
      | field fires => cases fires with
        | assignWild edge _ => exact ⟨_, edge.present.mono (below _)⟩
      | _ fires => cases fires
    · obtain ⟨p2, edge⟩ := walked.wild old
      exact ⟨p2, edge.mono (below _)⟩
  · rcases Store.of_insert row with rfl | old
    · cases fires with
      | tag fires => cases fires with
        | key _ split => exact split
      | _ fires => cases fires
    · exact walked.key old
  · rcases Store.of_insert row with rfl | old
    · cases fires with
      | tag fires => cases fires with
        | keyWild _ split => exact split
      | _ fires => cases fires
    · exact walked.keyWild old
  · rcases Store.of_insert row with rfl | old
    · cases fires with
      | tag fires => cases fires with
        | edge keyed edge admissible => exact (TagStep.exact (walked.key keyed) edge admissible).mono (.inr below)
        | edgeWild keyed edge wild admissible =>
          exact (TagStep.wild (walked.keyWild keyed) edge wild admissible).mono (.inr below)
      | _ fires => cases fires
    · exact (walked.edge old).mono (.inr below)

end Walk

/-- The gate is open at `f`, or some rule is about to open it. -/
inductive Due (input : EngineInput) (s : input.State) (f : FunctionId) : Prop
  | admitted (demand : Present s (.tagClosureFunc f))
  | critical {insn v p key} (info : input.CalleeInfo f insn v p key)
  | caller {callee v p tgt ty n insn} (tag : Present s (.callTargetAssignLike callee v p tgt))
      (param : input.FormalParam callee v ty) (index : v.asFormal = some n) (out : isout n ty p)
      (call : input.Call f insn callee)
  | reader {g p tgt} (read : Present s (.globalLabelRead f g p))
      (tag : Present s (.callTargetAssignLike GLOBAL_FRAME (.global g) p tgt))
  | frame (same : f = GLOBAL_FRAME)

/-- A gated state: it carries tags only where the gate is due. -/
structure Gated (input : EngineInput) (s : input.State) : Prop where
  walked : input.Walked s
  due : ∀ {f v p tgt}, Present s (.callTargetAssignLike f v p tgt) → input.Due s f

section Gate

variable {s t : input.State} {f : FunctionId} {v v1 v2 : FlowVariable} {p p13 p23 : Path} {tgt : CallTargetObject}

theorem Due.mono (below : s ≤ t) (due : input.Due s f) : input.Due t f := by
  cases due with
  | admitted demand => exact .admitted (demand.mono (below _))
  | critical info => exact .critical info
  | caller tag param index out call => exact .caller (tag.mono (below _)) param index out call
  | reader read tag => exact .reader (read.mono (below _)) (tag.mono (below _))
  | frame same => exact .frame same

theorem Gated.seed : input.Gated input.seed :=
  ⟨.seed, fun row => absurd row (input.not_present_seed rfl)⟩

theorem Gated.insert {r : Row} {c : CondOf input.hybridContext} (gated : input.Gated s)
    (fires : IndexRules input s r c) : input.Gated (s.insert r c) := by
  have below := s.le_insert r c
  refine ⟨gated.walked.insert fires, fun {f v p tgt} row => ?_⟩
  rcases Store.of_insert row with rfl | old
  · apply Due.mono below
    cases fires with
    | tag fires => cases fires with
      | stored _ demand => exact .admitted demand
      | step _ tag => exact gated.due tag
      | returned tag param index out call =>
        rcases call with call | call
        · exact .caller tag param index out call
        · obtain ⟨_, _, info⟩ := gated.walked.fnptr call
          exact .critical info
    | globals fires => cases fires with
      | tagUp => exact .frame rfl
      | tagDown read tag => exact .reader read tag
    | _ fires => cases fires
  · exact (gated.due old).mono below

variable (sat : Saturated input.DemandRules t)
include sat

theorem closure_of_critical {insn : InsnId} {key : CallDispatchKey} (info : input.CalleeInfo f insn v p key) :
    Present t (.tagClosureFunc f) := by
  have critical : Present t (.criticalCall f) := present_of_le (sat _ _ ⟨.tag (.criticalHere info), rfl⟩)
  exact present_of_le (sat _ _ ⟨.tag (.closureCritical critical), rfl⟩)

theorem closure_of_due (due : input.Due t f) : Present t (.tagClosureFunc f) := by
  cases due with
  | admitted demand => exact demand
  | critical info => exact closure_of_critical sat info
  | caller tag param index out call =>
    exact present_of_le (sat _ _ ⟨.tag (.closureCaller tag param index out call), rfl⟩)
  | reader read tag => exact present_of_le (sat _ _ ⟨.globals (.closureDown read tag), rfl⟩)
  | frame same =>
    subst same
    exact present_of_le (sat _ _ ⟨.globals .closureFrame, rfl⟩)

/-- Where the gate is open, a tag crosses every edge that carries it. -/
theorem tag_step (demand : Present t (.tagClosureFunc f)) (tag : Present t (.callTargetAssignLike f v2 p23 tgt))
    (step : input.TagStep t f v1 p13 v2 p23) : Present t (.callTargetAssignLike f v1 p13 tgt) := by
  have vp : Present t (.callTargetVp f v2 p23) := present_of_le (sat _ _ ⟨.tag (.vp demand tag), rfl⟩)
  have edge : Present t (.callTargetEdge f v1 p13 v2 p23) := by
    cases step with
    | exact split edge admissible =>
      have keyed := present_of_le (sat _ _ ⟨.tag (.key vp split), rfl⟩)
      exact present_of_le (sat _ _ ⟨.tag (.edge keyed edge admissible), rfl⟩)
    | wild split edge wild admissible =>
      have keyed := present_of_le (sat _ _ ⟨.tag (.keyWild vp split), rfl⟩)
      exact present_of_le (sat _ _ ⟨.tag (.edgeWild keyed edge wild admissible), rfl⟩)
  exact present_of_le (sat _ _ ⟨.tag (.step edge tag), rfl⟩)

/-- Where the gate is open, a function's own tags are derived. -/
theorem present_of_own (demand : Present t (.tagClosureFunc f)) (tag : input.OwnTag t f v p tgt) :
    Present t (.callTargetAssignLike f v p tgt) := by
  induction tag with
  | stored fact => exact present_of_le (sat _ _ ⟨.tag (.stored fact demand), rfl⟩)
  | step _ edge ih => exact tag_step sat demand ih edge

/-- A function with a tag of its own at a global mentions the global. -/
theorem mention_of_own {g : GlobalId} (walked : input.Walked t) (tag : input.OwnTag t f (.global g) p tgt) :
    Present t (.globalMention f g) := by
  have edge {v1 p1 v2 p2} (edge : Present t (.assignLike f v1 p1 v2 p2)) (named : v1.asGlobal = some g) :
      Present t (.globalMention f g) :=
    present_of_le (sat _ _ ⟨.root (.mentionEdge edge (.inl named)), rfl⟩)
  cases tag with
  | stored fact => exact present_of_le (sat _ _ ⟨.root (.mentionTarget fact rfl), rfl⟩)
  | step _ step => cases step with
    | exact _ row => exact edge row.present rfl
    | wild _ row =>
      obtain ⟨p2, row⟩ := walked.wild row.present
      exact edge row rfl

end Gate

/-- A gated state and an ungated one agree off the walk, and every tag of the ungated one is derived by
the gated one or is the function's own. -/
structure Mirrors (input : EngineInput) (t u : input.State) : Prop where
  agree : input.AgreeOffDemand t u
  mention : ∀ {f g}, Present u (.globalMention f g) → Present t (.globalMention f g)
  tag : ∀ {f v p tgt}, Present u (.callTargetAssignLike f v p tgt) →
    Present t (.callTargetAssignLike f v p tgt) ∨ input.OwnTag t f v p tgt

section Mirror

variable {t u : input.State}

theorem AgreeOffDemand.symm (agree : input.AgreeOffDemand t u) : input.AgreeOffDemand u t :=
  fun r off => (agree r off).symm

theorem Mirrors.tag_of_closure {f : FunctionId} {v : FlowVariable} {p : Path} {tgt : CallTargetObject}
    (mirrors : input.Mirrors t u) (sat : Saturated input.DemandRules t)
    (demand : Present t (.tagClosureFunc f)) (tag : Present u (.callTargetAssignLike f v p tgt)) :
    Present t (.callTargetAssignLike f v p tgt) :=
  (mirrors.tag tag).elim id (present_of_own sat demand)

/-- The caller of a function with a critical summary walks its tags. -/
theorem closure_of_critical_call {f caller : FunctionId} {insn : InsnId} {n : FormalIndex} {p : Path}
    (walked : input.Walked t) (sat : Saturated input.DemandRules t)
    (crit : Present t (.criticalSummary f n p)) (call : input.Calls t caller insn f) :
    Present t (.tagClosureFunc caller) := by
  rcases call with call | call
  · have critical := present_of_le (sat _ _ ⟨.tag (.criticalBelow crit call), rfl⟩)
    exact present_of_le (sat _ _ ⟨.tag (.closureCritical critical), rfl⟩)
  · obtain ⟨_, _, info⟩ := walked.fnptr call
    exact closure_of_critical sat info

/-- What the rules off the walk read of the ungated state is in the gated one. -/
theorem Mirrors.transfers (mirrors : input.Mirrors t u) (gated : input.Gated t)
    (sat : Saturated input.DemandRules t) : input.Transfers u t where
  agree := mirrors.agree.symm
  mention := mirrors.mention
  established crit call tag := by
    have demand := closure_of_critical_call gated.walked sat (crit.of_eq (mirrors.agree.symm _ rfl))
      (Calls.transfer mirrors.agree.symm call)
    exact mirrors.tag_of_closure sat demand tag
  callee info tag := mirrors.tag_of_closure sat (closure_of_critical sat info) tag
  frame tag := mirrors.tag_of_closure sat (closure_of_due sat (.frame rfl)) tag

/-- A tag the ungated state derives at a function the gated one walks, or at the function itself. -/
private theorem Mirrors.derived {f : FunctionId} {v : FlowVariable} {p : Path} {tgt : CallTargetObject}
    {c : CondOf input.hybridContext} (mirrors : input.Mirrors t u) (gated : input.Gated t)
    (sat : Saturated input.DemandRules t) (walked : input.Walked u)
    (fires : IndexRules input u (.callTargetAssignLike f v p tgt) c) :
    Present t (.callTargetAssignLike f v p tgt) ∨ input.OwnTag t f v p tgt := by
  have off := mirrors.agree.symm
  cases fires with
  | tag fires => cases fires with
    | stored fact => exact .inr (.stored fact)
    | step edge tag =>
      have edge := (walked.edge edge).mono (.inl off)
      rcases mirrors.tag tag with tag | own
      · exact .inl (tag_step sat (closure_of_due sat (gated.due tag)) tag edge)
      · exact .inr (.step own edge)
    | @returned callee v p tgt ty n caller insn tag param index out call =>
      have call := Calls.transfer off call
      have tag : Present t (.callTargetAssignLike callee v p tgt) := by
        rcases mirrors.tag tag with tag | own
        · exact tag
        · obtain ⟨_, _, _, fact⟩ := own.stores
          have demand := present_of_le (sat _ _ ⟨.tag (.closureCalled fact call), rfl⟩)
          exact present_of_own sat demand own
      exact .inl (present_of_le (sat _ _ ⟨.tag (.returned tag param index out call), rfl⟩))
  | globals fires => cases fires with
    | @tagUp f v p tgt tag inside global =>
      have tag : Present t (.callTargetAssignLike f v p tgt) := by
        rcases mirrors.tag tag with tag | own
        · exact tag
        · obtain ⟨g, named⟩ := Option.isSome_iff_exists.mp global
          obtain rfl := FlowVariable.asGlobal_eq_some.mp named
          obtain ⟨_, _, _, fact⟩ := own.stores
          have mention := mention_of_own sat gated.walked own
          have demand := present_of_le (sat _ _ ⟨.globals (.closureMention fact mention inside), rfl⟩)
          exact present_of_own sat demand own
      exact .inl (present_of_le (sat _ _ ⟨.globals (.tagUp tag inside global), rfl⟩))
    | tagDown read tag =>
      have tag := mirrors.tag_of_closure sat (closure_of_due sat (.frame rfl)) tag
      exact .inl (present_of_le (sat _ _ ⟨.globals (.tagDown (read.of_eq (off _ rfl)) tag), rfl⟩))
  | _ fires => cases fires

/-- A step of the ungated walk keeps the two states alike. -/
theorem Mirrors.demand {r : Row} {c : CondOf input.hybridContext} (mirrors : input.Mirrors t u)
    (gated : input.Gated t) (sat : Saturated input.DemandRules t) (walked : input.Walked u)
    (fires : input.DemandRules u r c) : input.Mirrors t (u.insert r c) := by
  obtain ⟨fires, walk⟩ := fires
  have off := mirrors.agree.symm
  refine ⟨fun r' side => ?_, fun row => ?_, fun row => ?_⟩
  · have other : r' ≠ r := by
      rintro rfl
      simp [walk] at side
    rw [u.insert_of_ne c other]
    exact mirrors.agree r' side
  · rcases Store.of_insert row with rfl | old
    · cases fires with
      | root fires => cases fires with
        | mentionEdge edge named =>
          exact present_of_le (sat _ _ ⟨.root (.mentionEdge (edge.of_eq (off _ rfl)) named), rfl⟩)
        | mentionCallee info named => exact present_of_le (sat _ _ ⟨.root (.mentionCallee info named), rfl⟩)
        | mentionTarget stored named => exact present_of_le (sat _ _ ⟨.root (.mentionTarget stored named), rfl⟩)
        | mentionString stored named => exact present_of_le (sat _ _ ⟨.root (.mentionString stored named), rfl⟩)
        | mentionFrame mention =>
          exact present_of_le (sat _ _ ⟨.root (.mentionFrame (mirrors.mention mention)), rfl⟩)
      | _ fires => cases fires
    · exact mirrors.mention old
  · rcases Store.of_insert row with rfl | old
    · exact mirrors.derived gated sat walked fires
    · exact mirrors.tag old

end Mirror

section Opened

variable {s t : input.State} {r : Row} {c : CondOf input.hybridContext}

theorem le_opened (s : input.State) : s ≤ opened s := by
  intro r
  cases r with
  | tagClosureFunc f => exact le_top
  | _ => exact le_rfl

theorem agree_opened (s : input.State) : input.AgreeOffDemand s (opened s) := by
  intro r off
  cases r with
  | tagClosureFunc f => simp [Row.onDemand] at off
  | _ => rfl

theorem top_of_demand (fires : input.DemandRules s r c) : c = ⊤ := by
  obtain ⟨fires, walk⟩ := fires
  cases fires with
  | root fires | tag fires | globals fires => cases fires <;> rfl
  | _ fires => cases fires <;> simp [Row.onDemand] at walk

/-- The walk is monotone. -/
theorem DemandRules.mono (below : s ≤ t) (fires : input.DemandRules s r c) : input.DemandRules t r c := by
  have top := top_of_demand fires
  obtain ⟨fires, walk⟩ := fires
  have below : input.AgreeBelow s t := fun r _ => below r
  have same {c'} (raised : c ≤ c') : c' = c := le_antisymm (top ▸ le_top) raised
  refine ⟨?_, walk⟩
  cases fires with
  | root fires =>
    obtain ⟨c', fires', raised⟩ :=
      RootRule.mono (j := input.config.contextJoin) (k := input.config.contextJoin) below fires
    exact .root (same raised ▸ fires')
  | tag fires =>
    obtain ⟨c', fires', raised⟩ :=
      TagRule.mono (j := input.config.contextJoin) (k := input.config.contextJoin) below fires
    exact .tag (same raised ▸ fires')
  | globals fires =>
    obtain ⟨c', fires', raised⟩ :=
      GlobalRule.mono (j := input.config.contextJoin) (k := input.config.contextJoin) below fires
    exact .globals (same raised ▸ fires')
  | _ fires => cases fires <;> simp [Row.onDemand] at walk

/-- Whatever fires with the gate closed fires with it open. -/
theorem IndexRules.opened (fires : IndexRules input s r c) : IndexRules input (opened s) r c := by
  cases walk : r.onDemand with
  | true => exact (DemandRules.mono (le_opened s) ⟨fires, walk⟩).1
  | false =>
    refine IndexRules.transfer ⟨agree_opened s, id, fun _ _ => id, fun _ => id, id⟩ walk fires

theorem opened_insert (fires : IndexRules input s r c) :
    EngineInput.opened (s.insert r c) = (EngineInput.opened s).insert r c := by
  funext r'
  by_cases same : r' = r
  · subst same
    cases r' with
    | tagClosureFunc f =>
      rw [Store.insert_self, top_of_demand ⟨fires, rfl⟩]
      exact (sup_idem _).symm
    | _ => rw [Store.insert_self]; exact Store.insert_self ..
  · rw [Store.insert_of_ne _ _ same]
    cases r' with
    | tagClosureFunc f => rfl
    | _ => exact Store.insert_of_ne _ _ same

theorem opened_run (run : Run (IndexRules input) input.seed t) : Run (IndexRules input) input.openGate (opened t) := by
  induction run with
  | refl => exact .refl
  | tail _ step ih =>
    obtain ⟨r, c, fires, rfl⟩ := step
    rw [opened_insert fires]
    exact ih.snoc (IndexRules.opened fires)

theorem activeState_openGate : input.ActiveState input.openGate := by
  intro r c held
  cases r with
  | tagClosureFunc f =>
    have top : c = ⊤ := (WithBot.coe_inj.mp held).symm
    exact ⟨.inr ⟨f, rfl⟩, top ▸ within_top⟩
  | _ => exact activeState_seed _ c held

/-- The walk leaves the other rows alone. -/
theorem agree_of_demandRun (run : Run input.DemandRules s t) : input.AgreeOffDemand s t := by
  apply run.preserves (I := fun t => input.AgreeOffDemand s t) (fun _ _ => rfl)
  intro t r c agree fires r' off
  have other : r' ≠ r := by
    rintro rfl
    simp [fires.2] at off
  rw [t.insert_of_ne c other]
  exact agree r' off

theorem run_of_demandRun (run : Run input.DemandRules s t) : Run (IndexRules input) s t :=
  run.mono fun _ _ _ fires => fires.1

end Opened

/-- The relations the calls and flows of a program are read from. -/
structure SameCalls (input : EngineInput) (s t : input.State) : Prop where
  resolvedCall : ∀ f insn callee, s (.resolvedCall f insn callee) = t (.resolvedCall f insn callee)
  callSite : ∀ f insn callee, s (.callSite f insn callee) = t (.callSite f insn callee)
  resolvent : ∀ f n p tgt d, s (.resolvent f n p tgt d) = t (.resolvent f n p tgt d)
  summary : ∀ f n1 p1 n2 p2, s (.summary f n1 p1 n2 p2) = t (.summary f n1 p1 n2 p2)
  locals : ∀ f v p a q, s (.locals f v p a q) = t (.locals f v p a q)

section Lossless

variable {t u : input.State}

theorem AgreeOffDemand.sameCalls (agree : input.AgreeOffDemand t u) : input.SameCalls t u :=
  ⟨fun _ _ _ => agree _ rfl, fun _ _ _ => agree _ rfl, fun _ _ _ _ _ => agree _ rfl,
    fun _ _ _ _ _ => agree _ rfl, fun _ _ _ _ _ => agree _ rfl⟩

/-- A gated result is the result of an ungated run. -/
theorem exists_ungated (run : Run (IndexRules input) input.seed t) (sat : Saturated (IndexRules input) t) :
    ∃ u, Run (IndexRules input) input.openGate u ∧ Saturated (IndexRules input) u ∧ input.AgreeOffDemand t u := by
  have gated : input.Gated t := run.preserves .seed fun _ _ _ gated fires => gated.insert fires
  have walkSat : Saturated input.DemandRules t := fun r c fires => sat r c fires.1
  have start := opened_run run
  obtain ⟨u, more, full⟩ : ∃ u, Run input.DemandRules (opened t) u ∧ Saturated input.DemandRules u :=
    exists_saturated_of_active (fun _ _ _ fires => fires.1) (activeState_openGate.run start)
  -- the walk that catches up keeps every tag it adds either derived or a function's own
  have both : input.Mirrors t u ∧ input.Walked u := by
    apply more.preserves (I := fun u => input.Mirrors t u ∧ input.Walked u)
    · exact ⟨⟨agree_opened t, id, .inl⟩,
        start.preserves .openGate fun _ _ _ walked fires => walked.insert fires⟩
    · rintro u r c ⟨mirrors, walked⟩ fires
      exact ⟨mirrors.demand gated walkSat walked fires, walked.insert fires.1⟩
  refine ⟨u, start.trans (run_of_demandRun more), fun r c fires => ?_, both.1.agree⟩
  cases walk : r.onDemand with
  | true => exact full r c ⟨fires, walk⟩
  | false =>
    have fires' := IndexRules.transfer (both.1.transfers gated walkSat) walk fires
    exact both.1.agree r walk ▸ sat r c fires'

/-- A gated run keeps up with an ungated one below a saturated state. -/
private theorem keeps_up {top : input.State} (sat : Saturated (IndexRules input) top)
    (run : Run (IndexRules input) input.openGate u) (below : u ≤ top) :
    ∃ t, Run (IndexRules input) input.seed t ∧ Saturated input.DemandRules t ∧ input.Mirrors t u ∧ t ≤ top := by
  -- saturating the walk stays below a saturated state
  have settle {s : input.State} (run : Run (IndexRules input) input.seed s) (below : s ≤ top) :
      ∃ t, Run (IndexRules input) input.seed t ∧ Saturated input.DemandRules t ∧ s ≤ t ∧
        input.AgreeOffDemand s t ∧ t ≤ top := by
    obtain ⟨t, more, full⟩ : ∃ t, Run input.DemandRules s t ∧ Saturated input.DemandRules t :=
      exists_saturated_of_active (fun _ _ _ fires => fires.1) (activeState_seed.run run)
    refine ⟨t, run.trans (run_of_demandRun more), full, more.le, agree_of_demandRun more, ?_⟩
    exact more.le_of_cover (I := fun _ => True) below trivial (fun _ _ _ _ _ => trivial)
      fun _ r c _ le fires => sat r c (DemandRules.mono le fires).1
  induction run with
  | refl =>
    obtain ⟨t, run, full, -, agree, le⟩ := settle .refl ((le_opened input.seed).trans below)
    refine ⟨t, run, full, ⟨fun r off => (agree r off).symm.trans (agree_opened _ r off), fun row => ?_, fun row => ?_⟩, le⟩
    · exact absurd row (input.not_present_seed rfl)
    · exact absurd row (input.not_present_seed rfl)
  | @tail u _ before step ih =>
    obtain ⟨r, c, fires, rfl⟩ := step
    obtain ⟨t, run, full, mirrors, le⟩ := ih ((u.le_insert r c).trans below)
    have gated : input.Gated t := run.preserves .seed fun _ _ _ gated fires => gated.insert fires
    cases walk : r.onDemand with
    | true =>
      have walked : input.Walked u := Run.preserves before .openGate fun _ _ _ walked fires => walked.insert fires
      exact ⟨t, run, full, mirrors.demand gated full walked ⟨fires, walk⟩, le⟩
    | false =>
      have fires' := IndexRules.transfer (mirrors.transfers gated full) walk fires
      have covered : (c : WithBot _) ≤ top r := by
        refine le_trans ?_ (below r)
        rw [Store.insert_self]
        exact le_sup_right
      obtain ⟨t', run', full', grows, agree, le'⟩ := settle (run.snoc fires') (Store.insert_le le covered)
      have grows : t ≤ t' := (t.le_insert r c).trans grows
      have old {r' : Row} (row : Present (u.insert r c) r') (side : r'.onDemand) : Present u r' := by
        rcases Store.of_insert row with rfl | old
        · simp [walk] at side
        · exact old
      refine ⟨t', run', full', ⟨fun r' off => ?_, fun row => ?_, fun row => ?_⟩, le'⟩
      · rw [← agree r' off]
        by_cases same : r' = r
        · subst same
          rw [Store.insert_self, Store.insert_self, mirrors.agree r' off]
        · rw [t.insert_of_ne c same, u.insert_of_ne c same, mirrors.agree r' off]
      · exact (mirrors.mention (old row rfl)).mono (grows _)
      · exact (mirrors.tag (old row rfl)).imp (fun tag => tag.mono (grows _)) fun own => own.mono grows

/-- An ungated result is the result of a gated run. -/
theorem exists_gated (run : Run (IndexRules input) input.openGate u) (sat : Saturated (IndexRules input) u) :
    ∃ t, Run (IndexRules input) input.seed t ∧ Saturated (IndexRules input) t ∧ input.AgreeOffDemand t u := by
  obtain ⟨t, run', full, mirrors, le⟩ := keeps_up sat run le_rfl
  refine ⟨t, run', fun r c fires => ?_, mirrors.agree⟩
  cases walk : r.onDemand with
  | true => exact full r c ⟨fires, walk⟩
  | false =>
    have transfers : input.Transfers t u :=
      ⟨mirrors.agree, fun row => row.mono (le _), fun _ _ row => row.mono (le _), fun _ row => row.mono (le _),
        fun row => row.mono (le _)⟩
    have fires' := IndexRules.transfer transfers walk fires
    exact mirrors.agree r walk ▸ sat r c fires'

/-- Walking call targets only on demand loses nothing: the results of the gated rules and of the rules
with the gate open everywhere are the same calls and flows. -/
theorem demand_gating_lossless (input : EngineInput) :
    (∀ t, Run (IndexRules input) input.seed t → Saturated (IndexRules input) t →
      ∃ u, Run (IndexRules input) input.openGate u ∧ Saturated (IndexRules input) u ∧ input.SameCalls t u) ∧
    ∀ u, Run (IndexRules input) input.openGate u → Saturated (IndexRules input) u →
      ∃ t, Run (IndexRules input) input.seed t ∧ Saturated (IndexRules input) t ∧ input.SameCalls t u := by
  constructor
  · intro t run sat
    obtain ⟨u, run', sat', agree⟩ := exists_ungated run sat
    exact ⟨u, run', sat', agree.sameCalls⟩
  · intro u run sat
    obtain ⟨t, run', sat', agree⟩ := exists_gated run sat
    exact ⟨t, run', sat', agree.sameCalls⟩

end Lossless

end EngineInput

end Ctadl.Index
