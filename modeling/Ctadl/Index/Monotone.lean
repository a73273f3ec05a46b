import Ctadl.Index.Termination

/-! # Which rules are monotone

Raising the rows a rule reads raises what it derives, for every rule but three kinds: the summary of a
flow between globals, which is withheld once the flow is unconditional, and the rules of the context
joins, which read the set a summary holds under now. The lemmas compare two runs that may use different
context joins, so they ignore the rows only a join reads.
-/

namespace Ctadl.Index

open Facts Datalog

/-- The rows that only the context joins read. -/
def Row.auxiliary : Row → Bool
  | contextSummarySet .. | setMember .. | contextSummaryTop .. | setEstablishesDirect ..
  | setEstablishesVia .. | contextSummaryD .. | topSummaryFunc .. => true
  | _ => false

namespace EngineInput

/-- The same facts under another context join. -/
abbrev withJoin (input : EngineInput) (join : ContextJoin) : EngineInput :=
  { input with config := { input.config with contextJoin := join } }

variable {input : EngineInput}

/-- Every row but the auxiliary ones holds at least as much in `t`. -/
def AgreeBelow (input : EngineInput) (s t : input.State) : Prop := ∀ r : Row, r.auxiliary = false → s r ≤ t r

variable {j k : ContextJoin} {s : (input.withJoin j).State} {t : (input.withJoin k).State} {r : Row}
  {c : CondOf (input.withJoin j).hybridContext}

theorem Calls.mono {caller callee : FunctionId} {insn : InsnId} (below : input.AgreeBelow s t)
    (call : (input.withJoin j).Calls s caller insn callee) : (input.withJoin k).Calls t caller insn callee :=
  call.imp id fun row => row.mono (below _ rfl)

theorem AliasOfFormal.withJoin {f : FunctionId} {v : FlowVariable} {root : Root}
    (aliased : (input.withJoin j).AliasOfFormal f v root) : (input.withJoin k).AliasOfFormal f v root := by
  induction aliased with
  | formal param shared => exact .formal param shared
  | global copied => exact .global copied
  | copy _ copied away ih => exact .copy ih copied away

theorem RootRule.mono (below : input.AgreeBelow s t) (fires : RootRule (input.withJoin j) s r c) :
    ∃ c', RootRule (input.withJoin k) t r c' ∧ c ≤ c' := by
  cases fires with
  | formal param index => exact ⟨_, .formal param index, le_rfl⟩
  | mentionEdge edge named => exact ⟨_, .mentionEdge (edge.mono (below _ rfl)) named, le_rfl⟩
  | mentionCallee info named => exact ⟨_, .mentionCallee info named, le_rfl⟩
  | mentionTarget stored named => exact ⟨_, .mentionTarget stored named, le_rfl⟩
  | mentionString stored named => exact ⟨_, .mentionString stored named, le_rfl⟩
  | mentionFrame mention => exact ⟨_, .mentionFrame (mention.mono (below _ rfl)), le_rfl⟩
  | global mention => exact ⟨_, .global (mention.mono (below _ rfl)), le_rfl⟩

theorem FieldRule.mono (below : input.AgreeBelow s t) (fires : FieldRule (input.withJoin j) s r c) :
    ∃ c', FieldRule (input.withJoin k) t r c' ∧ c ≤ c' := by
  cases fires with
  | reachVp row => exact ⟨_, .reachVp (row.mono (below _ rfl)), le_rfl⟩
  | localsKey reach split => exact ⟨_, .localsKey (reach.mono (below _ rfl)) split, le_rfl⟩
  | localsKeyWild reach split =>
    exact ⟨_, .localsKeyWild (reach.mono (below _ rfl)) split, le_rfl⟩
  | localsWild reach split => exact ⟨_, .localsWild (reach.mono (below _ rfl)) split, le_rfl⟩
  | assignWild edge split =>
    obtain ⟨c', edge', raised⟩ := edge.raise (below _ rfl)
    exact ⟨c', .assignWild edge' split, raised⟩
  | edgeSplit edge split =>
    obtain ⟨c', edge', raised⟩ := edge.raise (below _ rfl)
    exact ⟨c', .edgeSplit edge' split, raised⟩
  | edgeSplitWild edge split =>
    obtain ⟨c', edge', raised⟩ := edge.raise (below _ rfl)
    exact ⟨c', .edgeSplitWild edge' split, raised⟩
  | extDst keyed edge admissible =>
    obtain ⟨c', edge', raised⟩ := edge.raise (below _ rfl)
    exact ⟨c', .extDst (keyed.mono (below _ rfl)) edge' admissible, raised⟩
  | extDstWild keyed edge wild admissible =>
    obtain ⟨c', edge', raised⟩ := edge.raise (below _ rfl)
    exact ⟨c', .extDstWild (keyed.mono (below _ rfl)) edge' wild admissible, raised⟩
  | localsDst ext row both =>
    obtain ⟨_, ext', extRaised⟩ := ext.raise (below _ rfl)
    obtain ⟨_, row', rowRaised⟩ := row.raise (below _ rfl)
    obtain ⟨c', both', raised⟩ := both.mono extRaised rowRaised
    exact ⟨c', .localsDst ext' row' both', raised⟩
  | localsFml ext row both admissible =>
    obtain ⟨_, ext', extRaised⟩ := ext.raise (below _ rfl)
    obtain ⟨_, row', rowRaised⟩ := row.raise (below _ rfl)
    obtain ⟨c', both', raised⟩ := both.mono extRaised rowRaised
    exact ⟨c', .localsFml ext' row' both' admissible, raised⟩
  | extFml ext keyed wild =>
    obtain ⟨c', ext', raised⟩ := ext.raise (below _ rfl)
    exact ⟨c', .extFml ext' (keyed.mono (below _ rfl)) wild, raised⟩
  | localsFmlWild ext row both admissible =>
    obtain ⟨_, ext', extRaised⟩ := ext.raise (below _ rfl)
    obtain ⟨_, row', rowRaised⟩ := row.raise (below _ rfl)
    obtain ⟨c', both', raised⟩ := both.mono extRaised rowRaised
    exact ⟨c', .localsFmlWild ext' row' both' admissible, raised⟩

theorem CallRule.mono (below : input.AgreeBelow s t) (fires : CallRule (input.withJoin j) s r c) :
    ∃ c', CallRule (input.withJoin k) t r c' ∧ c ≤ c' := by
  cases fires with
  | actualOut param => exact ⟨_, .actualOut param, le_rfl⟩
  | actualIn param => exact ⟨_, .actualIn param, le_rfl⟩
  | direct call => exact ⟨_, .direct call, le_rfl⟩
  | instantiate flow site =>
    obtain ⟨c', site', raised⟩ := site.raise (below _ rfl)
    exact ⟨c', .instantiate (flow.mono (below _ rfl)) site', raised⟩

theorem StringRule.mono (below : input.AgreeBelow s t) (fires : StringRule (input.withJoin j) s r c) :
    ∃ c', StringRule (input.withJoin k) t r c' ∧ c ≤ c' := by
  cases fires with
  | stored frame fact => exact ⟨_, .stored (frame.mono (below _ rfl)) fact, le_rfl⟩
  | step frame label edge admissible =>
    exact ⟨_, .step (frame.mono (below _ rfl)) (label.mono (below _ rfl)) (edge.mono (below _ rfl)) admissible, le_rfl⟩
  | explicit send label component =>
    exact ⟨_, .explicit send (label.mono (below _ rfl)) component, le_rfl⟩
  | implicit send label filter untyped =>
    exact ⟨_, .implicit send (label.mono (below _ rfl)) filter untyped, le_rfl⟩
  | implicitTyped send label typed filter some accepts =>
    exact ⟨_, .implicitTyped send (label.mono (below _ rfl)) (typed.mono (below _ rfl)) filter some accepts, le_rfl⟩
  | resolve pair => exact ⟨_, .resolve (pair.mono (below _ rfl)), le_rfl⟩

theorem SummaryRule.mono (below : input.AgreeBelow s t) (fires : SummaryRule (input.withJoin j) s r c) :
    ∃ c', SummaryRule (input.withJoin k) t r c' ∧ c ≤ c' := by
  cases fires with
  | formal row param root out moved =>
    obtain ⟨c', row', raised⟩ := row.raise (below _ rfl)
    exact ⟨c', .formal row' param root out moved, raised⟩
  | frameEdge row inside dst src moved =>
    exact ⟨_, .frameEdge (row.mono (below _ rfl)) inside dst src moved, le_rfl⟩
  | aliased flow mixed => exact ⟨_, .aliased (flow.mono (below _ rfl)) mixed, le_rfl⟩
  | aliasFrame flow dst src => exact ⟨_, .aliasFrame (flow.mono (below _ rfl)) dst src, le_rfl⟩
  | aliasFlow row field shared store aliased enabled moved =>
    exact ⟨_, .aliasFlow (row.mono (below _ rfl)) field shared store
      (AliasOfFormal.withJoin aliased) enabled moved, le_rfl⟩

theorem HybridRule.mono (below : input.AgreeBelow s t) (fires : HybridRule (input.withJoin j) s r c) :
    ∃ c', HybridRule (input.withJoin k) t r c' ∧ c ≤ c' := by
  cases fires with
  | critical info row index => exact ⟨_, .critical info (row.mono (below _ rfl)) index, le_rfl⟩
  | criticalUp call crit split row index admissible =>
    exact ⟨_, .criticalUp (Calls.mono below call) (crit.mono (below _ rfl)) split (row.mono (below _ rfl)) index admissible, le_rfl⟩
  | establishesDirect crit call tag =>
    exact ⟨_, .establishesDirect (crit.mono (below _ rfl)) (Calls.mono below call) (tag.mono (below _ rfl)), le_rfl⟩
  | resolventDirect established =>
    exact ⟨_, .resolventDirect (established.mono (below _ rfl)), le_rfl⟩
  | criticalArg crit call split =>
    exact ⟨_, .criticalArg (crit.mono (below _ rfl)) (Calls.mono below call) split, le_rfl⟩
  | criticalReach row index passed admissible =>
    exact ⟨_, .criticalReach (row.mono (below _ rfl)) index (passed.mono (below _ rfl)) admissible, le_rfl⟩
  | establishesVia reach decided =>
    exact ⟨_, .establishesVia (reach.mono (below _ rfl)) (decided.mono (below _ rfl)), le_rfl⟩
  | resolventVia established => exact ⟨_, .resolventVia (established.mono (below _ rfl)), le_rfl⟩
  | decidedSite info row index decided resolves =>
    exact ⟨_, .decidedSite info (row.mono (below _ rfl)) index (decided.mono (below _ rfl)) resolves, le_rfl⟩
  | decidedCall info row index decided resolves =>
    exact ⟨_, .decidedCall info (row.mono (below _ rfl)) index (decided.mono (below _ rfl)) resolves, le_rfl⟩
  | localCall info tag resolves =>
    exact ⟨_, .localCall info (tag.mono (below _ rfl)) resolves, le_rfl⟩
  | fnptrCall resolved info => exact ⟨_, .fnptrCall (resolved.mono (below _ rfl)) info, le_rfl⟩
  | localSite info tag resolves =>
    exact ⟨_, .localSite info (tag.mono (below _ rfl)) resolves, le_rfl⟩

theorem TagRule.mono (below : input.AgreeBelow s t) (fires : TagRule (input.withJoin j) s r c) :
    ∃ c', TagRule (input.withJoin k) t r c' ∧ c ≤ c' := by
  cases fires with
  | closureCritical critical => exact ⟨_, .closureCritical (critical.mono (below _ rfl)), le_rfl⟩
  | closureCalled stored call => exact ⟨_, .closureCalled stored (Calls.mono below call), le_rfl⟩
  | closureCaller tag param index out call =>
    exact ⟨_, .closureCaller (tag.mono (below _ rfl)) param index out call, le_rfl⟩
  | stored fact demand => exact ⟨_, .stored fact (demand.mono (below _ rfl)), le_rfl⟩
  | vp demand tag => exact ⟨_, .vp (demand.mono (below _ rfl)) (tag.mono (below _ rfl)), le_rfl⟩
  | key vp split => exact ⟨_, .key (vp.mono (below _ rfl)) split, le_rfl⟩
  | keyWild vp split => exact ⟨_, .keyWild (vp.mono (below _ rfl)) split, le_rfl⟩
  | edge keyed edge admissible =>
    exact ⟨_, .edge (keyed.mono (below _ rfl)) (edge.mono (below _ rfl)) admissible, le_rfl⟩
  | edgeWild keyed edge wild admissible =>
    exact ⟨_, .edgeWild (keyed.mono (below _ rfl)) (edge.mono (below _ rfl)) wild admissible, le_rfl⟩
  | step edge tag => exact ⟨_, .step (edge.mono (below _ rfl)) (tag.mono (below _ rfl)), le_rfl⟩
  | returned tag param index out call =>
    exact ⟨_, .returned (tag.mono (below _ rfl)) param index out (Calls.mono below call), le_rfl⟩
  | criticalHere info => exact ⟨_, .criticalHere info, le_rfl⟩
  | criticalBelow crit call => exact ⟨_, .criticalBelow (crit.mono (below _ rfl)) call, le_rfl⟩

theorem GlobalRule.mono (below : input.AgreeBelow s t) (fires : GlobalRule (input.withJoin j) s r c) :
    ∃ c', GlobalRule (input.withJoin k) t r c' ∧ c ≤ c' := by
  cases fires with
  | readEdge edge inside named =>
    exact ⟨_, .readEdge (edge.mono (below _ rfl)) inside named, le_rfl⟩
  | readCallee info named => exact ⟨_, .readCallee info named, le_rfl⟩
  | closureFrame => exact ⟨_, .closureFrame, le_rfl⟩
  | closureMention stored mention inside =>
    exact ⟨_, .closureMention stored (mention.mono (below _ rfl)) inside, le_rfl⟩
  | tagUp tag inside global => exact ⟨_, .tagUp (tag.mono (below _ rfl)) inside global, le_rfl⟩
  | frameUp frame inside => exact ⟨_, .frameUp (frame.mono (below _ rfl)) inside, le_rfl⟩
  | stringUp label inside global =>
    exact ⟨_, .stringUp (label.mono (below _ rfl)) inside global, le_rfl⟩
  | tagKey tag named split => exact ⟨_, .tagKey (tag.mono (below _ rfl)) named split, le_rfl⟩
  | stringKey label named split =>
    exact ⟨_, .stringKey (label.mono (below _ rfl)) named split, le_rfl⟩
  | labelRead keyed read =>
    exact ⟨_, .labelRead (keyed.mono (below _ rfl)) (read.mono (below _ rfl)), le_rfl⟩
  | tagDown read tag =>
    exact ⟨_, .tagDown (read.mono (below _ rfl)) (tag.mono (below _ rfl)), le_rfl⟩
  | closureDown read tag =>
    exact ⟨_, .closureDown (read.mono (below _ rfl)) (tag.mono (below _ rfl)), le_rfl⟩
  | stringDown read frame label =>
    exact ⟨_, .stringDown (read.mono (below _ rfl)) (frame.mono (below _ rfl)) (label.mono (below _ rfl)), le_rfl⟩

end EngineInput

end Ctadl.Index
