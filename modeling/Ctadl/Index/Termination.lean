import Ctadl.Index.Domain

/-! # Every run can be driven to saturation

A state is active when its rows and conditions name active atoms only. Every rule keeps a state active,
so a run draws its rows and values from finite sets and some continuation of it is saturated.
-/

namespace Ctadl.Index

open Facts Datalog
open IndexFacts (funcs indices insns namedPaths roots vars)

namespace EngineInput

variable {input : EngineInput}

/-- Every column of the row is active. -/
def ActiveRow (input : EngineInput) (r : Row) : Prop := ∀ a ∈ r.atoms, input.Active a

/-- Rows and conditions name active atoms only. The gate `tagClosureFunc` may be open anywhere. -/
def ActiveState (input : EngineInput) (s : input.State) : Prop :=
  ∀ r c, Held s r c → (input.ActiveRow r ∨ ∃ f, r = .tagClosureFunc f) ∧ input.Within c

theorem ActiveState.row {s : input.State} {r : Row} (active : input.ActiveState s) (present : Present s r) :
    input.ActiveRow r ∨ ∃ f, r = .tagClosureFunc f := by
  obtain ⟨c, held⟩ := present.held
  exact (active r c held).1

section Facts

theorem root_of_var {v : FlowVariable} {r : Root} (active : input.ActiveVar v) (root : v.asRoot = some r) :
    r ∈ input.facts.roots := by
  rcases active with fact | ⟨insn, -, n, -, rfl⟩ | ⟨g, global, rfl⟩
  · exact List.mem_append_left _ (List.mem_filterMap.mpr ⟨v, fact, root⟩)
  · simp [FlowVariable.asRoot] at root
  · simpa [FlowVariable.asRoot, ← Option.some.inj root] using global

theorem index_of_root {r : Root} {n : FormalIndex} (active : r ∈ input.facts.roots) (index : r.asFormal = some n) :
    n ∈ input.facts.indices := List.mem_append_left _ (List.mem_filterMap.mpr ⟨r, active, index⟩)

theorem asRoot_of_asFormal {v : FlowVariable} {n : FormalIndex} (index : v.asFormal = some n) :
    v.asRoot = some (.formal n) := by
  cases v <;> simp_all [FlowVariable.asFormal, FlowVariable.asRoot]

theorem asRoot_of_asGlobal {v : FlowVariable} {g : GlobalId} (global : v.asGlobal = some g) :
    v.asRoot = some (.global g) := by
  cases v <;> simp_all [FlowVariable.asGlobal, FlowVariable.asRoot]

@[simp] theorem activeVar_callArg {insn : InsnId} {n : FormalIndex} (site : insn ∈ input.facts.insns)
    (index : n ∈ input.facts.indices) : input.ActiveVar (.callArg insn n) := .inr (.inl ⟨insn, site, n, index, rfl⟩)

@[simp] theorem activeVar_callRoot {insn : InsnId} {r : Root} (site : insn ∈ input.facts.insns)
    (root : r ∈ input.facts.roots) : input.ActiveVar (.callRoot insn r) := by
  cases r with
  | formal n => exact activeVar_callArg site (index_of_root root rfl)
  | global g => exact .inr (.inr ⟨g, root, rfl⟩)

@[simp] theorem activeVar_global {g : GlobalId} (root : Root.global g ∈ input.facts.roots) :
    input.ActiveVar (.global g) := .inr (.inr ⟨g, root, rfl⟩)

theorem activePath_of_mem {p : Path} (member : p ∈ input.pathSet) : input.ActivePath p :=
  .inr ⟨p, List.mem_append_left _ member, List.infix_rfl⟩

theorem activePath_of_named {p : Path} (named : p ∈ input.facts.namedPaths) : input.ActivePath p :=
  .inr ⟨p, List.mem_append_right _ named, List.infix_rfl⟩

theorem ActivePath.of_infix {p q : Path} (active : input.ActivePath q) (piece : p.segs <:+: q.segs) :
    input.ActivePath p := by
  rcases active with blank | ⟨base, member, within⟩
  · exact .inl (List.infix_nil.mp (blank ▸ piece))
  · exact .inr ⟨base, member, piece.trans within⟩

@[simp] theorem activePath_empty : input.ActivePath .empty := .inl rfl

theorem FormalParam.active {f : FunctionId} {v : FlowVariable} {ty : FormalType} (fact : input.FormalParam f v ty) :
    f ∈ input.facts.funcs ∧ input.ActiveVar v := by
  have var : v ∈ input.facts.vars := by
    simp only [vars, List.mem_append, List.mem_map]
    grind [FormalParam]
  refine ⟨?_, .inl var⟩
  simp only [funcs, List.mem_cons, List.mem_append, List.mem_map]
  grind [FormalParam]

theorem ActualParam.active {f : FunctionId} {insn : InsnId} {n : FormalIndex} {v : FlowVariable} {p : Path}
    (fact : input.ActualParam f insn n v p) :
    f ∈ input.facts.funcs ∧ insn ∈ input.facts.insns ∧ n ∈ input.facts.indices ∧ input.ActiveVar v ∧
      input.ActivePath p := by
  have var : v ∈ input.facts.vars := by
    simp only [vars, List.mem_append, List.mem_map]
    grind [ActualParam]
  have path : p ∈ input.facts.namedPaths := by
    simp only [namedPaths, List.mem_append, List.mem_map]
    grind [ActualParam]
  refine ⟨?_, ?_, ?_, .inl var, activePath_of_named path⟩
  · simp only [funcs, List.mem_cons, List.mem_append, List.mem_map]
    grind [ActualParam]
  · simp only [insns, List.mem_append, List.mem_map]
    grind [ActualParam]
  · simp only [indices, List.mem_append, List.mem_map]
    grind [ActualParam]

theorem Call.active {caller callee : FunctionId} {insn : InsnId} (fact : input.Call caller insn callee) :
    caller ∈ input.facts.funcs ∧ insn ∈ input.facts.insns ∧ callee ∈ input.facts.funcs := by
  have site : ∀ f, f = caller ∨ f = callee → f ∈ input.facts.funcs := by
    intro f named
    simp only [funcs, List.mem_cons, List.mem_append, List.mem_map, List.mem_flatMap]
    grind [Call]
  refine ⟨site _ (.inl rfl), ?_, site _ (.inr rfl)⟩
  simp only [insns, List.mem_append, List.mem_map]
  grind [Call]

theorem CalleeInfo.active {f : FunctionId} {insn : InsnId} {v : FlowVariable} {p : Path} {key : CallDispatchKey}
    (fact : input.CalleeInfo f insn v p key) :
    f ∈ input.facts.funcs ∧ insn ∈ input.facts.insns ∧ input.ActiveVar v ∧ input.ActivePath p := by
  have var : v ∈ input.facts.vars := by
    simp only [vars, List.mem_append, List.mem_map]
    grind [CalleeInfo]
  have path : p ∈ input.facts.namedPaths := by
    simp only [namedPaths, List.mem_append, List.mem_map]
    grind [CalleeInfo]
  refine ⟨?_, ?_, .inl var, activePath_of_named path⟩
  · simp only [funcs, List.mem_cons, List.mem_append, List.mem_map]
    grind [CalleeInfo]
  · simp only [insns, List.mem_append, List.mem_map]
    grind [CalleeInfo]

theorem CallTargetAssign.active {f : FunctionId} {v : FlowVariable} {p : Path} {tgt : CallTargetObject}
    (fact : input.CallTargetAssign f v p tgt) :
    f ∈ input.facts.funcs ∧ input.ActiveVar v ∧ input.ActivePath p ∧ tgt ∈ input.facts.targets := by
  obtain ⟨insn, fact⟩ := fact
  have var : v ∈ input.facts.vars := by
    simp only [vars, List.mem_append, List.mem_map]
    grind
  have path : p ∈ input.facts.namedPaths := by
    simp only [namedPaths, List.mem_append, List.mem_map]
    grind
  refine ⟨?_, .inl var, activePath_of_named path, List.mem_map.mpr ⟨_, fact, rfl⟩⟩
  simp only [funcs, List.mem_cons, List.mem_append, List.mem_map]
  grind

theorem ConstStrAssign.active {f : FunctionId} {v : FlowVariable} {p : Path} {str : Str}
    (fact : input.ConstStrAssign f v p str) :
    f ∈ input.facts.funcs ∧ input.ActiveVar v ∧ input.ActivePath p ∧ str ∈ input.facts.strings := by
  obtain ⟨insn, fact⟩ := fact
  have var : v ∈ input.facts.vars := by
    simp only [vars, List.mem_append, List.mem_map]
    grind
  have path : p ∈ input.facts.namedPaths := by
    simp only [namedPaths, List.mem_append, List.mem_map]
    grind
  refine ⟨?_, .inl var, activePath_of_named path, List.mem_map.mpr ⟨_, fact, rfl⟩⟩
  simp only [funcs, List.mem_cons, List.mem_append, List.mem_map]
  grind

/-- A function a resolution names. -/
theorem resolved_active {f : FunctionId}
    (named : (∃ tgt key, input.CalleeResolvents tgt key f) ∨
      (∃ cls kind, (cls, kind, f) ∈ input.facts.intentComponent) ∨
      ∃ action mime kind, (action, mime, kind, f) ∈ input.facts.intentFilter) : f ∈ input.facts.funcs := by
  simp only [funcs, List.mem_cons, List.mem_append, List.mem_map]
  grind [CalleeResolvents]

theorem intentSend_active {f : FunctionId} {bridge insn : InsnId} {n : FormalIndex} {kind : IntentKind}
    (send : (f, bridge, insn, n, kind) ∈ input.facts.intentSend) :
    f ∈ input.facts.funcs ∧ bridge ∈ input.facts.insns := by
  refine ⟨?_, ?_⟩
  · simp only [funcs, List.mem_cons, List.mem_append, List.mem_map]
    grind
  · simp only [insns, List.mem_append, List.mem_map]
    grind

@[simp] theorem frame_active : GLOBAL_FRAME ∈ input.facts.funcs := List.mem_cons_self

end Facts

/-- The rows of the tag closure, the only ones that need not be over the facts' columns. -/
def Closes : Row → Bool
  | .tagClosureFunc _ => true
  | _ => false

theorem ActiveState.columns {s : input.State} {r : Row} (active : input.ActiveState s) (present : Present s r)
    (ungated : Closes r = false) : input.ActiveRow r := by
  rcases active.row present with row | ⟨f, rfl⟩
  · exact row
  · cases ungated

section Splits

variable {p key rest q start : Path} {m adj : Int64} {adjust : Option Int64}

theorem ActivePath.split (active : input.ActivePath p) (parts : p.segs = key.segs ++ rest.segs) :
    input.ActivePath key ∧ input.ActivePath rest :=
  ⟨active.of_infix ⟨[], rest.segs, by simp [parts]⟩, active.of_infix ⟨key.segs, [], by simp [parts]⟩⟩

theorem ActivePath.exact (active : input.ActivePath p) (split : (key, rest) ∈ (input.pathSet.splits p).exact) :
    input.ActivePath key ∧ input.ActivePath rest := active.split (PathSet.mem_splits_exact.mp split).2

theorem ActivePath.wild (active : input.ActivePath p) (split : (key, rest) ∈ (input.pathSet.splits p).wild) :
    input.ActivePath key ∧ input.ActivePath rest := active.split (PathSet.mem_splits_wild.mp split).2.1

theorem ActivePath.tag (active : input.ActivePath p) (split : (key, rest) ∈ tagSplits input.pathSet p) :
    input.ActivePath key ∧ input.ActivePath rest := by
  unfold tagSplits at split
  split_ifs at split
  · obtain ⟨rfl, rfl⟩ := Prod.mk.inj (List.mem_singleton.mp split)
    exact ⟨activePath_empty, activePath_empty⟩
  · exact active.exact split

theorem ActivePath.trailing (active : input.ActivePath p)
    (split : input.pathSet.splitTrailingOffset p = some (key, m)) : input.ActivePath key :=
  active.of_infix ⟨[], [.offset m], by simp [(PathSet.splitTrailingOffset_eq_some.mp split).2]⟩

theorem ActivePath.wildRest (active : input.ActivePath rest) (wild : rest.wildRest m = some (adj, q)) :
    input.ActivePath q := by
  rcases Path.wildRest_eq_some.mp wild with ⟨n, segs, -⟩ | ⟨-, -, rfl⟩
  · exact active.of_infix ⟨[.offset n], [], by simp [segs]⟩
  · exact active

theorem activePath_concat (found : input.pathSet.concat start adjust rest = some q) : input.ActivePath q :=
  activePath_of_mem (PathSet.mem_of_concat found)

theorem activePath_substitute {p shorter front : Path}
    (found : input.pathSet.substitutePrefix p shorter front = some q) : input.ActivePath q := by
  obtain ⟨_, -, admissible⟩ := Option.bind_eq_some_iff.mp found
  exact activePath_concat admissible

end Splits

theorem AliasOfFormal.active {f : FunctionId} {v : FlowVariable} {r : Root} (aliased : input.AliasOfFormal f v r) :
    r ∈ input.facts.roots := by
  induction aliased with
  | formal param shared => exact root_of_var (FormalParam.active param).2 rfl
  | @global _ g copied =>
    obtain ⟨insn, fact⟩ := mem_copyEdge.mp copied
    refine root_of_var (v := .global g) (.inl ?_) rfl
    simp only [vars, List.mem_append, List.mem_flatMap]
    grind
  | copy _ _ _ ih => exact ih

section Rules

attribute [local simp] ActiveRow Row.atoms Active

variable {s : input.State} {r : Row} {c : CondOf input.hybridContext}

theorem Calls.active {caller callee : FunctionId} {insn : InsnId} (active : input.ActiveState s)
    (call : input.Calls s caller insn callee) :
    caller ∈ input.facts.funcs ∧ insn ∈ input.facts.insns ∧ callee ∈ input.facts.funcs := by
  rcases call with fact | row
  · exact fact.active
  · simpa [ActiveRow, Row.atoms, Active] using active.columns row rfl

theorem FieldRule.active (active : input.ActiveState s) (fires : FieldRule input s r c) :
    input.ActiveRow r ∧ input.Within c := by
  cases fires with
  | reachVp row =>
    have columns := active.columns row rfl
    simp_all
  | localsKey reach split =>
    have columns := active.columns reach rfl
    have pieces (path : input.ActivePath _) := path.exact split
    simp_all
  | localsKeyWild reach split =>
    have columns := active.columns reach rfl
    have pieces (path : input.ActivePath _) := path.wild split
    simp_all
  | localsWild reach split =>
    have columns := active.columns reach rfl
    have pieces (path : input.ActivePath _) := path.trailing split
    simp_all
  | assignWild edge split =>
    have columns := active.columns edge.present rfl
    have pieces (path : input.ActivePath _) := path.trailing split
    have within := (active _ _ edge).2
    simp_all
  | edgeSplit edge split =>
    have columns := active.columns edge.present rfl
    have pieces (path : input.ActivePath _) := path.exact split
    have within := (active _ _ edge).2
    simp_all
  | edgeSplitWild edge split =>
    have columns := active.columns edge.present rfl
    have pieces (path : input.ActivePath _) := path.wild split
    have within := (active _ _ edge).2
    simp_all
  | extDst keyed edge admissible =>
    have columns0 := active.columns keyed rfl
    have columns1 := active.columns edge.present rfl
    have path := activePath_concat admissible
    have within := (active _ _ edge).2
    simp_all
  | extDstWild keyed edge wild admissible =>
    have columns0 := active.columns keyed rfl
    have columns1 := active.columns edge.present rfl
    have path := activePath_concat admissible
    have within := (active _ _ edge).2
    simp_all
  | localsDst ext row both =>
    have columns0 := active.columns ext.present rfl
    have columns1 := active.columns row.present rfl
    have within := (active _ _ ext).2.composes (active _ _ row).2 both
    simp_all
  | localsFml ext row both admissible
  | localsFmlWild ext row both admissible =>
    have columns0 := active.columns ext.present rfl
    have columns1 := active.columns row.present rfl
    have path := activePath_concat admissible
    have within := (active _ _ ext).2.composes (active _ _ row).2 both
    simp_all
  | extFml ext keyed wild =>
    have columns0 := active.columns ext.present rfl
    have columns1 := active.columns keyed rfl
    have pieces (path : input.ActivePath _) := path.wildRest wild
    have within := (active _ _ ext).2
    simp_all

theorem RootRule.active (active : input.ActiveState s) (fires : RootRule input s r c) :
    input.ActiveRow r ∧ input.Within c := by
  cases fires with
  | formal param index =>
    have fact := param.active
    have root (var : input.ActiveVar _) := root_of_var var (asRoot_of_asFormal index)
    simp_all
  | mentionEdge edge named =>
    have columns := active.columns edge rfl
    rcases named with dst | src
    · have root (var : input.ActiveVar _) := root_of_var var (asRoot_of_asGlobal dst)
      simp_all
    · have root (var : input.ActiveVar _) := root_of_var var (asRoot_of_asGlobal src)
      simp_all
  | mentionCallee row named
  | mentionTarget row named
  | mentionString row named =>
    have fact := row.active
    have root (var : input.ActiveVar _) := root_of_var var (asRoot_of_asGlobal named)
    simp_all
  | mentionFrame mention
  | global mention =>
    have columns := active.columns mention rfl
    simp_all

theorem CallRule.active (active : input.ActiveState s) (fires : CallRule input s r c) :
    input.ActiveRow r ∧ input.Within c := by
  cases fires with
  | actualOut param =>
    have fact := param.active
    simp_all
  | actualIn param =>
    have fact := param.active
    simp_all
  | direct call =>
    have fact := call.active
    simp_all
  | instantiate flow site =>
    have columns0 := active.columns flow.present rfl
    have columns1 := active.columns site.present rfl
    have within := (active _ _ site).2
    simp_all

theorem StringRule.active (active : input.ActiveState s) (fires : StringRule input s r c) :
    input.ActiveRow r ∧ input.Within c := by
  cases fires with
  | stored frame fact =>
    have fact := fact.active
    simp_all
  | step frame label edge admissible =>
    have columns0 := active.columns label rfl
    have columns1 := active.columns edge.present rfl
    have path := activePath_substitute admissible
    simp_all
  | explicit send label component =>
    have sent := intentSend_active send
    have named := resolved_active (.inr (.inl ⟨_, _, component⟩))
    simp_all
  | implicit send label filter untyped =>
    have sent := intentSend_active send
    have named := resolved_active (.inr (.inr ⟨_, _, _, filter⟩))
    simp_all
  | implicitTyped send label typed filter some accepts =>
    have sent := intentSend_active send
    have named := resolved_active (.inr (.inr ⟨_, _, _, filter⟩))
    simp_all
  | resolve pair =>
    have columns := active.columns pair rfl
    simp_all

theorem SummaryRule.active (active : input.ActiveState s) (fires : SummaryRule input s r c) :
    input.ActiveRow r ∧ input.Within c := by
  cases fires with
  | formal row param root out moved =>
    have columns := active.columns row.present rfl
    have dst (var : input.ActiveVar _) := root_of_var var root
    have within := (active _ _ row).2
    simp_all
  | frameEdge row inside dst src moved =>
    have columns := active.columns row.present rfl
    obtain rfl := Root.asGlobal_eq_some.mp src
    simp_all
  | aliased flow mixed =>
    have columns := active.columns flow rfl
    simp_all
  | aliasFrame flow dst src =>
    have columns := active.columns flow rfl
    obtain rfl := Root.asGlobal_eq_some.mp dst
    obtain rfl := Root.asGlobal_eq_some.mp src
    simp_all
  | aliasFlow row field shared store aliased enabled moved =>
    have columns := active.columns row.present rfl
    have root := aliased.active
    simp_all

theorem GlobalSummaryRule.active (active : input.ActiveState s) (fires : GlobalSummaryRule input s r c) :
    input.ActiveRow r ∧ input.Within c := by
  cases fires with
  | mk row inside dst guarded moved =>
    have columns := active.columns row.present rfl
    have root (var : input.ActiveVar _) := root_of_var var (asRoot_of_asGlobal dst)
    have within := (active _ _ row).2
    simp_all

theorem HybridRule.active (active : input.ActiveState s) (fires : HybridRule input s r c) :
    input.ActiveRow r ∧ input.Within c := by
  cases fires with
  | critical info row index =>
    have columns := active.columns row.present rfl
    have index (root : _ ∈ input.facts.roots) := index_of_root root index
    simp_all
  | criticalUp call crit split row index admissible =>
    have columns := active.columns row.present rfl
    have index (root : _ ∈ input.facts.roots) := index_of_root root index
    have path := activePath_concat admissible
    simp_all
  | establishesDirect crit call tag =>
    have columns0 := active.columns crit rfl
    have columns1 := active.columns tag rfl
    have called := Calls.active active call
    simp_all [ActiveDecision]
  | resolventDirect established
  | resolventVia established =>
    have columns := active.columns established rfl
    simp_all [ActiveDecision]
  | criticalArg crit call split =>
    have columns := active.columns crit rfl
    have called := Calls.active active call
    have pieces (path : input.ActivePath _) := path.exact split
    simp_all
  | criticalReach row index passed admissible =>
    have columns0 := active.columns row.present rfl
    have columns1 := active.columns passed rfl
    have index (root : _ ∈ input.facts.roots) := index_of_root root index
    have path := activePath_concat admissible
    simp_all
  | establishesVia reach decided =>
    have columns0 := active.columns reach rfl
    have columns1 := active.columns decided rfl
    simp_all [ActiveDecision]
  | decidedSite info row index decided resolves
  | decidedCall info row index decided resolves =>
    have columns := active.columns decided rfl
    have site := info.active
    have named := resolved_active (.inl ⟨_, _, resolves⟩)
    simp_all
  | localCall info tag resolves
  | localSite info tag resolves =>
    have columns := active.columns tag rfl
    have site := info.active
    have named := resolved_active (.inl ⟨_, _, resolves⟩)
    simp_all
  | fnptrCall resolved info =>
    have columns := active.columns resolved rfl
    simp_all

theorem ScanRule.active (active : input.ActiveState s) (fires : ScanRule input s r c) :
    input.ActiveRow r ∧ input.Within c := by
  cases fires with
  | direct join flow set established member site =>
    have columns0 := active.columns flow.present rfl
    have columns1 := active.columns site.present rfl
    have within := (active _ _ site).2
    simp_all
  | via join flow set established member site both =>
    have columns0 := active.columns flow.present rfl
    have columns1 := active.columns site.present rfl
    have columns2 := active.columns established rfl
    have within (decision : input.ActiveDecision _) :=
      (within_ofDecision decision).composes (active _ _ site).2 (CondOf.composes_of_set set both)
    simp_all

theorem SetsRule.active (active : input.ActiveState s) (fires : SetsRule input s r c) :
    input.ActiveRow r ∧ input.Within c := by
  cases fires with
  | summarySet join flow set =>
    have columns := active.columns flow.present rfl
    have within := (active _ _ flow).2.set set
    simp_all
  | member row listed member =>
    have columns := active.columns row rfl
    simp_all
  | top row widened =>
    have columns := active.columns row rfl
    simp_all
  | memberDirect row established
  | topDirect row established
  | memberVia row established
  | topVia row established =>
    have columns0 := active.columns row rfl
    have columns1 := active.columns established rfl
    simp_all
  | direct join flow set established site =>
    have columns0 := active.columns flow.present rfl
    have columns1 := active.columns site.present rfl
    have within := (active _ _ site).2
    simp_all
  | via join flow set established site both =>
    have columns0 := active.columns flow.present rfl
    have columns1 := active.columns site.present rfl
    have columns2 := active.columns established rfl
    have within (decision : input.ActiveDecision _) :=
      (within_ofDecision decision).composes (active _ _ site).2 (CondOf.composes_of_set set both)
    simp_all

theorem UnfoldRule.active (active : input.ActiveState s) (fires : UnfoldRule input s r c) :
    input.ActiveRow r ∧ input.Within c := by
  cases fires with
  | summaryD join flow set listed member =>
    have columns := active.columns flow.present rfl
    have within := (active _ _ flow).2.set set
    simp_all
  | topFunc join flow set widened =>
    have columns := active.columns flow.present rfl
    simp_all
  | topSummaryD func decided flow set widened =>
    have columns0 := active.columns flow.present rfl
    have columns1 := active.columns decided rfl
    simp_all
  | direct flow established site =>
    have columns0 := active.columns flow rfl
    have columns1 := active.columns site.present rfl
    have within := (active _ _ site).2
    simp_all
  | via flow established site both =>
    have columns0 := active.columns flow rfl
    have columns1 := active.columns site.present rfl
    have columns2 := active.columns established rfl
    have within (decision : input.ActiveDecision _) :=
      (within_ofDecision decision).composes (active _ _ site).2 (CondOf.composes_ofDecision both)
    simp_all

theorem TagRule.active (active : input.ActiveState s) (fires : TagRule input s r c) :
    input.ActiveRow r ∧ input.Within c := by
  cases fires with
  | closureCritical critical =>
    have columns := active.columns critical rfl
    simp_all
  | closureCalled stored call =>
    have fact := stored.active
    simp_all
  | closureCaller tag param index out call =>
    have fact := call.active
    simp_all
  | stored fact demand =>
    have fact := fact.active
    simp_all
  | vp demand tag =>
    have columns := active.columns tag rfl
    simp_all
  | key vp split =>
    have columns := active.columns vp rfl
    have pieces (path : input.ActivePath _) := path.tag split
    simp_all
  | keyWild vp split =>
    have columns := active.columns vp rfl
    have pieces (path : input.ActivePath _) := path.wild split
    simp_all
  | edge keyed edge admissible =>
    have columns0 := active.columns keyed rfl
    have columns1 := active.columns edge.present rfl
    have path := activePath_concat admissible
    simp_all
  | edgeWild keyed edge wild admissible =>
    have columns0 := active.columns keyed rfl
    have columns1 := active.columns edge.present rfl
    have path := activePath_concat admissible
    simp_all
  | step edge tag =>
    have columns0 := active.columns edge rfl
    have columns1 := active.columns tag rfl
    simp_all
  | returned tag param index out call =>
    have columns := active.columns tag rfl
    have called := Calls.active active call
    have root (var : input.ActiveVar _) := index_of_root (root_of_var var (asRoot_of_asFormal index)) rfl
    simp_all
  | criticalHere info =>
    have fact := info.active
    simp_all
  | criticalBelow crit call =>
    have fact := call.active
    simp_all

theorem GlobalRule.active (active : input.ActiveState s) (fires : GlobalRule input s r c) :
    input.ActiveRow r ∧ input.Within c := by
  cases fires with
  | readEdge edge inside named =>
    have columns := active.columns edge rfl
    have root (var : input.ActiveVar _) := root_of_var var (asRoot_of_asGlobal named)
    simp_all
  | readCallee info named =>
    have fact := info.active
    have root (var : input.ActiveVar _) := root_of_var var (asRoot_of_asGlobal named)
    simp_all
  | closureFrame =>
    simp_all
  | closureMention stored mention inside =>
    have fact := stored.active
    simp_all
  | tagUp row inside global
  | stringUp row inside global =>
    have columns := active.columns row rfl
    simp_all
  | frameUp frame inside =>
    simp_all
  | tagKey row named split
  | stringKey row named split =>
    have columns := active.columns row rfl
    have root (var : input.ActiveVar _) := root_of_var var (asRoot_of_asGlobal named)
    have pieces (path : input.ActivePath _) := path.tag split
    simp_all
  | labelRead row read
  | tagDown row read =>
    have columns0 := active.columns row rfl
    have columns1 := active.columns read rfl
    simp_all
  | closureDown read tag =>
    have columns := active.columns read rfl
    simp_all
  | stringDown read frame label =>
    have columns0 := active.columns read rfl
    have columns1 := active.columns label rfl
    simp_all

theorem IndexRules.active (active : input.ActiveState s) (fires : IndexRules input s r c) :
    input.ActiveRow r ∧ input.Within c := by
  cases fires with
  | root fires => exact RootRule.active active fires
  | field fires => exact FieldRule.active active fires
  | call fires => exact CallRule.active active fires
  | string fires => exact StringRule.active active fires
  | summary fires => exact SummaryRule.active active fires
  | globalSummary fires => exact GlobalSummaryRule.active active fires
  | hybrid fires => exact HybridRule.active active fires
  | scan fires => exact ScanRule.active active fires
  | sets fires => exact SetsRule.active active fires
  | unfold fires => exact UnfoldRule.active active fires
  | tag fires => exact TagRule.active active fires
  | globals fires => exact GlobalRule.active active fires

theorem ActiveState.insert (active : input.ActiveState s) (row : input.ActiveRow r) (within : input.Within c) :
    input.ActiveState (s.insert r c) := by
  intro r' c' held
  rcases Store.held_insert held with old | ⟨rfl, rfl | ⟨before, old, rfl⟩⟩
  · exact active r' c' old
  · exact ⟨.inl row, within⟩
  · exact ⟨.inl row, (active _ before old).2.sup within⟩

end Rules

/-- Finitely many conditions name active decisions only. -/
theorem finite_within : {c | input.Within c}.Finite := by
  refine Set.Finite.of_finite_image (f := fun c => c.val.set) ?_ ?_
  · refine (((finite_sets input.finite_activeDecision).image some).union (Set.finite_singleton none)).subset ?_
    rintro _ ⟨c, within, rfl⟩
    cases set : c.val.set with
    | none => exact .inr set
    | some ds => exact .inl ⟨ds, within.set set, set.symm⟩
  · rintro ⟨a | _, _⟩ - ⟨b | _, _⟩ - same <;> exact Subtype.ext (by simp_all [Cond.set])

private theorem edge_active {f : FunctionId} {v1 v2 : FlowVariable} {p1 p2 : Path}
    (edge : (f, v1, p1, v2, p2) ∈ input.assignLike) :
    f ∈ input.facts.funcs ∧ (v1 ∈ input.facts.vars ∧ p1 ∈ input.facts.namedPaths) ∧
      v2 ∈ input.facts.vars ∧ p2 ∈ input.facts.namedPaths := by
  simp only [assignLike, List.mem_append, List.mem_map] at edge
  simp only [funcs, vars, namedPaths, List.mem_cons, List.mem_append,
    List.mem_map, List.mem_flatMap]
  rcases edge with ⟨fact, member, same⟩ | ⟨fact, member, same⟩
  · grind
  · grind

theorem activeRow_of_seed {r : Row} (loaded : r ∈ input.seeds) : input.ActiveRow r := by
  simp only [seeds, List.mem_append, List.mem_map] at loaded
  rcases loaded with (⟨⟨f, n1, p1, n2, p2⟩, fact, rfl⟩ | ⟨⟨f, v1, p1, v2, p2⟩, edge, rfl⟩) | ⟨f, frame, rfl⟩
  · have func : f ∈ input.facts.funcs := by
      simp only [funcs, List.mem_cons, List.mem_append, List.mem_map]
      grind
    have roots : n1 ∈ input.facts.roots ∧ n2 ∈ input.facts.roots := by
      simp only [roots, List.mem_append, List.mem_flatMap]
      grind
    have paths : p1 ∈ input.facts.namedPaths ∧ p2 ∈ input.facts.namedPaths := by
      simp only [namedPaths, List.mem_append, List.mem_flatMap]
      grind
    simp [ActiveRow, Row.atoms, Active, func, roots, activePath_of_named paths.1, activePath_of_named paths.2]
  · obtain ⟨func, ⟨dst, path⟩, src, path'⟩ := edge_active edge
    simp [ActiveRow, Row.atoms, Active, func, ActiveVar, dst, src, activePath_of_named path,
      activePath_of_named path']
  · have func : f ∈ input.facts.funcs := by
      simp only [funcs, List.mem_cons, List.mem_append]
      grind
    simp [ActiveRow, Row.atoms, Active, func]

theorem activeState_seed : input.ActiveState input.seed := by
  intro r c held
  have loaded : r ∈ input.seeds := input.present_seed.mp held.present
  have value : c = ⊤ := by
    have certain := input.certain_seed.mpr loaded
    exact WithBot.coe_inj.mp (held.symm.trans certain)
  exact ⟨.inl (activeRow_of_seed loaded), value ▸ within_top⟩

theorem ActiveState.run {s t : input.State} (active : input.ActiveState s) (run : Run (IndexRules input) s t) :
    input.ActiveState t := by
  apply run.preserves active
  intro s r c active fires
  obtain ⟨row, within⟩ := IndexRules.active active fires
  exact active.insert row within

/-- From any active state, any part of the rules can be fired to saturation. -/
theorem exists_saturated_of_active {rules : Rules Row (CondOf input.hybridContext)} {s : input.State}
    (part : ∀ s r c, rules s r c → IndexRules input s r c) (active : input.ActiveState s) :
    ∃ t, Run rules s t ∧ Saturated rules t :=
  exists_saturated (I := input.ActiveState) (Row.finite_of_atoms input.finite_active) input.finite_within
    (fun s r c active fires =>
      have active' := IndexRules.active active (part s r c fires)
      active.insert active'.1 active'.2)
    (fun s r c active fires => IndexRules.active active (part s r c fires)) active

/-- The firings that change the state are bounded in number, whatever their order, and wherever they have led the rules can be
fired to saturation. -/
theorem growth_bounded (input : EngineInput) : ∃ bound, ∀ (n : ℕ) (trace : ℕ → input.State), trace 0 = input.seed →
    (∀ i < n, Grows (IndexRules input) (trace i) (trace (i + 1))) →
      n ≤ bound ∧ ∃ t, Run (IndexRules input) (trace n) t ∧ Saturated (IndexRules input) t := by
  refine ⟨(Row.finite_of_atoms input.finite_active).toFinset.card * input.finite_within.toFinset.card, ?_⟩
  intro n trace start grows
  obtain ⟨active, few⟩ := le_of_grows (I := input.ActiveState) (Row.finite_of_atoms input.finite_active)
    input.finite_within
    (fun s r c active fires => active.insert (IndexRules.active active fires).1 (IndexRules.active active fires).2)
    (fun s r c active fires => IndexRules.active active fires) (start ▸ activeState_seed) grows
  exact ⟨few, exists_saturated_of_active (fun _ _ _ fires => fires) active⟩

end EngineInput

end Ctadl.Index
