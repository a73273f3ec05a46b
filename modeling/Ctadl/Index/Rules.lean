import Ctadl.Index.Row

/-! # The rules of the index

The rules of the engine, each a constructor under its group: what one firing may derive from a state.
`Held` reads the condition a row has now, `Certain` is the test `is_always`, and `Present` reads a row
whatever its condition. A pair of rules that differ only in `call` against `fnptr_call` is one rule over
`Calls`.
-/

namespace Ctadl.Index

open Facts Datalog

variable (input : EngineInput)

namespace EngineInput

/-- A call a tag crosses: direct, or through a resolved function pointer. -/
def Calls (s : input.State) (caller : FunctionId) (insn : InsnId) (callee : FunctionId) : Prop :=
  input.Call caller insn callee ∨ Present s (.fnptrCall caller insn callee)

/-- The condition a site resolved by the decision `d` is called under. -/
def resolveCond (d : Decision) : CondOf input.hybridContext :=
  if input.hybridContext = .none then ⊤ else .ofDecision _ d

end EngineInput

/-- The roots of local reachability: the formals, and the globals a function mentions. -/
inductive RootRule (s : input.State) : Row → CondOf input.hybridContext → Prop
  | formal {f v ty i} (param : input.FormalParam f v ty) (index : v.asFormal = some i) :
      RootRule s (.locals f v .empty (.formal i) .empty) ⊤
  | mentionEdge {f v1 p1 v2 p2 g} (edge : Present s (.assignLike f v1 p1 v2 p2))
      (named : v1.asGlobal = some g ∨ v2.asGlobal = some g) : RootRule s (.globalMention f g) ⊤
  | mentionCallee {f insn v p key g} (info : input.CalleeInfo f insn v p key)
      (named : v.asGlobal = some g) : RootRule s (.globalMention f g) ⊤
  | mentionTarget {f v p tgt g} (stored : input.CallTargetAssign f v p tgt)
      (named : v.asGlobal = some g) : RootRule s (.globalMention f g) ⊤
  | mentionString {f v p str g} (stored : input.ConstStrAssign f v p str)
      (named : v.asGlobal = some g) : RootRule s (.globalMention f g) ⊤
  | mentionFrame {f g} (mention : Present s (.globalMention f g)) :
      RootRule s (.globalMention GLOBAL_FRAME g) ⊤
  | global {f g} (mention : Present s (.globalMention f g)) :
      RootRule s (.locals f (.global g) .empty (.global g) .empty) ⊤

/-- Forward field propagation, as joins on the splits of each path. -/
inductive FieldRule (s : input.State) : Row → CondOf input.hybridContext → Prop
  | reachVp {f v p a q} (row : Present s (.locals f v p a q)) : FieldRule s (.reachVp f v p) ⊤
  | localsKey {f v p key rest} (reach : Present s (.reachVp f v p))
      (split : (key, rest) ∈ (input.pathSet.splits p).exact) : FieldRule s (.localsKey f v key rest p) ⊤
  | localsKeyWild {f v p key rest} (reach : Present s (.reachVp f v p))
      (split : (key, rest) ∈ (input.pathSet.splits p).wild) : FieldRule s (.localsKeyWild f v key rest p) ⊤
  | localsWild {f v p key m} (reach : Present s (.reachVp f v p))
      (split : input.pathSet.splitTrailingOffset p = some (key, m)) : FieldRule s (.localsWild f v key m p) ⊤
  | assignWild {f v1 p1 v2 p2 key m c} (edge : Held s (.assignLike f v1 p1 v2 p2) c)
      (split : input.pathSet.splitTrailingOffset p2 = some (key, m)) :
      FieldRule s (.assignWild f v2 key m v1 p1) c
  | edgeSplit {f v1 p1 v2 p2 key rest c} (edge : Held s (.assignLike f v1 p1 v2 p2) c)
      (split : (key, rest) ∈ (input.pathSet.splits p2).exact) : FieldRule s (.edgeSplit f v2 key rest v1 p1) c
  | edgeSplitWild {f v1 p1 v2 p2 key rest c} (edge : Held s (.assignLike f v1 p1 v2 p2) c)
      (split : (key, rest) ∈ (input.pathSet.splits p2).wild) :
      FieldRule s (.edgeSplitWild f v2 key rest v1 p1) c
  | extDst {f v1 p1 v2 key rest p13 p23 c} (keyed : Present s (.localsKey f v2 key rest p23))
      (edge : Held s (.assignLike f v1 p1 v2 key) c)
      (admissible : input.pathSet.concat p1 none rest = some p13) : FieldRule s (.extDst f v1 p13 v2 p23) c
  | extDstWild {f v1 p1 v2 key rest m adj tail p13 p23 c}
      (keyed : Present s (.localsKeyWild f v2 key rest p23)) (edge : Held s (.assignWild f v2 key m v1 p1) c)
      (wild : rest.wildRest m = some (adj, tail))
      (admissible : input.pathSet.concat p1 (some adj) tail = some p13) :
      FieldRule s (.extDst f v1 p13 v2 p23) c
  | localsDst {f v1 p13 v2 p23 a p4 c1 c2 c} (ext : Held s (.extDst f v1 p13 v2 p23) c1)
      (row : Held s (.locals f v2 p23 a p4) c2) (both : CondOf.Composes c1 c2 c) :
      FieldRule s (.locals f v1 p13 a p4) c
  | localsFml {f v1 p1 v2 key rest a p4 p43 c1 c2 c} (ext : Held s (.edgeSplit f v2 key rest v1 p1) c1)
      (row : Held s (.locals f v2 key a p4) c2) (both : CondOf.Composes c1 c2 c)
      (admissible : input.pathSet.concat p4 none rest = some p43) : FieldRule s (.locals f v1 p1 a p43) c
  | extFml {f v1 p1 v2 key rest m p2 adj tail c} (ext : Held s (.edgeSplitWild f v2 key rest v1 p1) c)
      (keyed : Present s (.localsWild f v2 key m p2)) (wild : rest.wildRest m = some (adj, tail)) :
      FieldRule s (.extFml f v1 p1 v2 p2 adj tail) c
  | localsFmlWild {f v1 p1 v2 p2 adj rest a p4 p43 c1 c2 c} (ext : Held s (.extFml f v1 p1 v2 p2 adj rest) c1)
      (row : Held s (.locals f v2 p2 a p4) c2) (both : CondOf.Composes c1 c2 c)
      (admissible : input.pathSet.concat p4 (some adj) rest = some p43) :
      FieldRule s (.locals f v1 p1 a p43) c

/-- The copies of a call, and the unconditional summaries at every site that calls their function. -/
inductive CallRule (s : input.State) : Row → CondOf input.hybridContext → Prop
  | actualOut {f insn n v p} (param : input.ActualParam f insn n v p) :
      CallRule s (.assignLike f v p (.callArg insn n) .empty) ⊤
  | actualIn {f insn n v p} (param : input.ActualParam f insn n v p) :
      CallRule s (.assignLike f (.callArg insn n) .empty v p) ⊤
  | direct {caller insn callee} (call : input.Call caller insn callee) :
      CallRule s (.callSite caller insn callee) ⊤
  | instantiate {caller insn callee n1 p1 n2 p2 sc} (flow : Certain s (.summary callee n1 p1 n2 p2))
      (site : Held s (.callSite caller insn callee) sc) :
      CallRule s (.assignLike caller (.callRoot insn n1) p1 (.callRoot insn n2) p2) sc

/-- String constants and the calls they resolve. -/
inductive StringRule (s : input.State) : Row → CondOf input.hybridContext → Prop
  | stored {f v p str} (frame : Present s (.intentFrame f)) (fact : input.ConstStrAssign f v p str) :
      StringRule s (.constReaches f v p str) ⊤
  | step {f v1 p1 v2 p2 held moved str} (frame : Present s (.intentFrame f))
      (label : Present s (.constReaches f v2 held str)) (edge : Certain s (.assignLike f v1 p1 v2 p2))
      (admissible : input.pathSet.substitutePrefix held p2 p1 = some moved) :
      StringRule s (.constReaches f v1 moved str) ⊤
  | explicit {f bridge sendInsn n kind cls recv}
      (send : (f, bridge, sendInsn, n, kind) ∈ input.facts.intentSend)
      (label : Present s (.constReaches f (.callArg sendInsn n) COMPONENT_PATH cls))
      (component : (cls, kind, recv) ∈ input.facts.intentComponent) :
      StringRule s (.intentPair f bridge recv .explicit) ⊤
  | implicit {f bridge sendInsn n kind action filterMime recv}
      (send : (f, bridge, sendInsn, n, kind) ∈ input.facts.intentSend)
      (label : Present s (.constReaches f (.callArg sendInsn n) ACTION_PATH action))
      (filter : (action, filterMime, kind, recv) ∈ input.facts.intentFilter) (untyped : filterMime = "") :
      StringRule s (.intentPair f bridge recv .implicit) ⊤
  | implicitTyped {f bridge sendInsn n kind action mime filterMime recv}
      (send : (f, bridge, sendInsn, n, kind) ∈ input.facts.intentSend)
      (label : Present s (.constReaches f (.callArg sendInsn n) ACTION_PATH action))
      (typed : Present s (.constReaches f (.callArg sendInsn n) TYPE_PATH mime))
      (filter : (action, filterMime, kind, recv) ∈ input.facts.intentFilter) (some : filterMime ≠ "")
      (accepts : mimeMatches filterMime mime) : StringRule s (.intentPair f bridge recv .implicit) ⊤
  | resolve {f bridge recv kind} (pair : Present s (.intentPair f bridge recv kind)) :
      StringRule s (.resolvedCall f bridge recv) ⊤

/-- Summaries from local reachability, the edges of the global frame, and the aliasing summary. -/
inductive SummaryRule (s : input.State) : Row → CondOf input.hybridContext → Prop
  | formal {f v p1 n1 n2 p2 ty c} (row : Held s (.locals f v p1 n2 p2) c) (param : input.FormalParam f v ty)
      (root : v.asRoot = some n1) (out : n1.isout ty p1) (moved : n1 ≠ n2 ∨ p1 ≠ p2) :
      SummaryRule s (.summary f n1 p1 n2 p2) c
  | frameEdge {f v p1 n2 p2 g h} (row : Certain s (.locals f v p1 n2 p2)) (inside : f ≠ GLOBAL_FRAME)
      (dst : v.asGlobal = some g) (src : n2.asGlobal = some h) (moved : g ≠ h ∨ p1 ≠ p2) :
      SummaryRule s (.assignLike GLOBAL_FRAME v p1 (.global h) p2) ⊤
  | aliased {f n1 p1 n2 p2} (flow : Present s (.aliasFlow f n1 p1 n2 p2))
      (mixed : ¬ (n1.isGlobal ∧ n2.isGlobal)) : SummaryRule s (.summary f n1 p1 n2 p2) ⊤
  | aliasFrame {f n1 p1 n2 p2 g1 g2} (flow : Present s (.aliasFlow f n1 p1 n2 p2))
      (dst : n1.asGlobal = some g1) (src : n2.asGlobal = some g2) :
      SummaryRule s (.assignLike GLOBAL_FRAME (.global g1) p1 (.global g2) p2) ⊤
  | aliasFlow {f v1 p1 n1 n2 bp} (row : Certain s (.locals f v1 p1 n2 bp)) (field : p1.isEmpty = false)
      (shared : p1.isValue = false) (store : (f, v1, p1) ∈ input.progStore)
      (aliased : input.AliasOfFormal f v1 n1) (enabled : input.config.aliasRule)
      (moved : n1 ≠ n2 ∨ p1 ≠ bp) : SummaryRule s (.aliasFlow f n1 p1 n2 bp) ⊤

/-- A flow into a global path is a summary when it comes from a formal, and from a global path only
while it is conditional. -/
inductive GlobalSummaryRule (s : input.State) : Row → CondOf input.hybridContext → Prop
  | mk {f v p1 n2 p2 g c} (row : Held s (.locals f v p1 n2 p2) c) (inside : f ≠ GLOBAL_FRAME)
      (dst : v.asGlobal = some g) (guarded : ¬ (n2.isGlobal ∧ c.val.isAlways))
      (moved : Root.global g ≠ n2 ∨ p1 ≠ p2) : GlobalSummaryRule s (.summary f (.global g) p1 n2 p2) c

/-- Hybrid inlining, rules 1.1 to 3.1: critical summaries up, decisions down, and the sites they
resolve. -/
inductive HybridRule (s : input.State) : Row → CondOf input.hybridContext → Prop
  | critical {f insn v p key r n q} (info : input.CalleeInfo f insn v p key)
      (row : Certain s (.locals f v p r q)) (index : r.asFormal = some n) :
      HybridRule s (.criticalSummary f n q) ⊤
  | criticalUp {caller insn callee nTgt pTgt key rest r n q qr} (call : input.Calls s caller insn callee)
      (crit : Present s (.criticalSummary callee nTgt pTgt))
      (split : (key, rest) ∈ (input.pathSet.splits pTgt).exact)
      (row : Certain s (.locals caller (.callArg insn nTgt) key r q)) (index : r.asFormal = some n)
      (admissible : input.pathSet.concat q none rest = some qr) :
      HybridRule s (.criticalSummary caller n qr) ⊤
  | establishesDirect {f n p caller insn tgt} (crit : Present s (.criticalSummary f n p))
      (call : input.Calls s caller insn f)
      (tag : Present s (.callTargetAssignLike caller (.callArg insn n) p tgt)) :
      HybridRule s (.establishesDirect f ⟨n, p, tgt⟩ caller insn) ⊤
  | resolventDirect {f d caller insn} (established : Present s (.establishesDirect f d caller insn)) :
      HybridRule s (.resolvent f d.formal d.path d.target d) ⊤
  | criticalArg {g insn f n p key rest} (crit : Present s (.criticalSummary f n p))
      (call : input.Calls s g insn f) (split : (key, rest) ∈ (input.pathSet.splits p).exact) :
      HybridRule s (.criticalArg g (.callArg insn n) key rest p f insn n) ⊤
  | criticalReach {g arg key rest r2 n2 p2 p2r f insn n p} (row : Certain s (.locals g arg key r2 p2))
      (index : r2.asFormal = some n2) (passed : Present s (.criticalArg g arg key rest p f insn n))
      (admissible : input.pathSet.concat p2 none rest = some p2r) :
      HybridRule s (.criticalReach g n2 p2r f insn n p) ⊤
  | establishesVia {g n2 p2 f insn n p tgt up} (reach : Present s (.criticalReach g n2 p2 f insn n p))
      (decided : Present s (.resolvent g n2 p2 tgt up)) :
      HybridRule s (.establishesVia f ⟨n, p, tgt⟩ g insn up) ⊤
  | resolventVia {f d caller insn up} (established : Present s (.establishesVia f d caller insn up)) :
      HybridRule s (.resolvent f d.formal d.path d.target d) ⊤
  | decidedSite {caller insn v p key r n q tgt d callee} (info : input.CalleeInfo caller insn v p key)
      (row : Certain s (.locals caller v p r q)) (index : r.asFormal = some n)
      (decided : Present s (.resolvent caller n q tgt d)) (resolves : input.CalleeResolvents tgt key callee) :
      HybridRule s (.callSite caller insn callee) (input.resolveCond d)
  | decidedCall {caller insn v p key r n q tgt d callee} (info : input.CalleeInfo caller insn v p key)
      (row : Certain s (.locals caller v p r q)) (index : r.asFormal = some n)
      (decided : Present s (.resolvent caller n q tgt d)) (resolves : input.CalleeResolvents tgt key callee) :
      HybridRule s (.resolvedCall caller insn callee) ⊤
  | localCall {f insn v p key tgt callee} (info : input.CalleeInfo f insn v p key)
      (tag : Present s (.callTargetAssignLike f v p tgt)) (resolves : input.CalleeResolvents tgt key callee) :
      HybridRule s (.resolvedCall f insn callee) ⊤
  | fnptrCall {f insn callee v p} (resolved : Present s (.resolvedCall f insn callee))
      (info : input.CalleeInfo f insn v p .c) : HybridRule s (.fnptrCall f insn callee) ⊤
  | localSite {f insn v p key tgt callee} (info : input.CalleeInfo f insn v p key)
      (tag : Present s (.callTargetAssignLike f v p tgt)) (resolves : input.CalleeResolvents tgt key callee) :
      HybridRule s (.callSite f insn callee) ⊤

/-- Rule 3.2 by `Scan`: pair on the callee and test the decision by membership. -/
inductive ScanRule (s : input.State) : Row → CondOf input.hybridContext → Prop
  | direct {f n1 p1 n2 p2 sum ds d caller insn sc} (join : input.config.contextJoin = .scan)
      (flow : Held s (.summary f n1 p1 n2 p2) sum) (set : sum.val.set = some ds)
      (established : Present s (.establishesDirect f d caller insn)) (member : ds.contains d)
      (site : Held s (.callSite caller insn f) sc) :
      ScanRule s (.assignLike caller (.callRoot insn n1) p1 (.callRoot insn n2) p2) sc
  | via {f n1 p1 n2 p2 sum ds d caller insn up sc ac} (join : input.config.contextJoin = .scan)
      (flow : Held s (.summary f n1 p1 n2 p2) sum) (set : sum.val.set = some ds)
      (established : Present s (.establishesVia f d caller insn up)) (member : ds.contains d)
      (site : Held s (.callSite caller insn f) sc)
      (both : (Cond.ofSet input.hybridContext (.singleton up ds.isCollapsing)).and input.hybridContext sc.val =
        some ac.val) :
      ScanRule s (.assignLike caller (.callRoot insn n1) p1 (.callRoot insn n2) p2) ac

/-- Rule 3.2 by `Sets`: unfold each distinct set once, and join back on the set. -/
inductive SetsRule (s : input.State) : Row → CondOf input.hybridContext → Prop
  | summarySet {f n1 p1 n2 p2 sum ds} (join : input.config.contextJoin = .sets)
      (flow : Held s (.summary f n1 p1 n2 p2) sum) (set : sum.val.set = some ds) :
      SetsRule s (.contextSummarySet f ds) ⊤
  | member {f ds d} (row : Present s (.contextSummarySet f ds)) (listed : ds.isTop = false)
      (member : d ∈ ds.ids) : SetsRule s (.setMember f d ds) ⊤
  | top {f ds} (row : Present s (.contextSummarySet f ds)) (widened : ds.isTop) :
      SetsRule s (.contextSummaryTop f ds) ⊤
  | memberDirect {f ds d caller insn} (member : Present s (.setMember f d ds))
      (established : Present s (.establishesDirect f d caller insn)) :
      SetsRule s (.setEstablishesDirect f ds caller insn) ⊤
  | topDirect {f ds d caller insn} (widened : Present s (.contextSummaryTop f ds))
      (established : Present s (.establishesDirect f d caller insn)) :
      SetsRule s (.setEstablishesDirect f ds caller insn) ⊤
  | memberVia {f ds d caller insn up} (member : Present s (.setMember f d ds))
      (established : Present s (.establishesVia f d caller insn up)) :
      SetsRule s (.setEstablishesVia f ds caller insn up) ⊤
  | topVia {f ds d caller insn up} (widened : Present s (.contextSummaryTop f ds))
      (established : Present s (.establishesVia f d caller insn up)) :
      SetsRule s (.setEstablishesVia f ds caller insn up) ⊤
  | direct {f n1 p1 n2 p2 sum ds caller insn sc} (join : input.config.contextJoin = .sets)
      (flow : Held s (.summary f n1 p1 n2 p2) sum) (set : sum.val.set = some ds)
      (established : Present s (.setEstablishesDirect f ds caller insn))
      (site : Held s (.callSite caller insn f) sc) :
      SetsRule s (.assignLike caller (.callRoot insn n1) p1 (.callRoot insn n2) p2) sc
  | via {f n1 p1 n2 p2 sum ds caller insn up sc ac} (join : input.config.contextJoin = .sets)
      (flow : Held s (.summary f n1 p1 n2 p2) sum) (set : sum.val.set = some ds)
      (established : Present s (.setEstablishesVia f ds caller insn up))
      (site : Held s (.callSite caller insn f) sc)
      (both : (Cond.ofSet input.hybridContext (.singleton up ds.isCollapsing)).and input.hybridContext sc.val =
        some ac.val) :
      SetsRule s (.assignLike caller (.callRoot insn n1) p1 (.callRoot insn n2) p2) ac

/-- Rule 3.2 by `Unfold`: one row a summary row and decision of its set. -/
inductive UnfoldRule (s : input.State) : Row → CondOf input.hybridContext → Prop
  | summaryD {f d n1 p1 n2 p2 sum ds} (join : input.config.contextJoin = .unfold)
      (flow : Held s (.summary f n1 p1 n2 p2) sum) (set : sum.val.set = some ds) (listed : ds.isTop = false)
      (member : d ∈ ds.ids) : UnfoldRule s (.contextSummaryD f d n1 p1 n2 p2) ⊤
  | topFunc {f n1 p1 n2 p2 sum ds} (join : input.config.contextJoin = .unfold)
      (flow : Held s (.summary f n1 p1 n2 p2) sum) (set : sum.val.set = some ds) (widened : ds.isTop) :
      UnfoldRule s (.topSummaryFunc f) ⊤
  | topSummaryD {f n p tgt d n1 p1 n2 p2 sum ds} (func : Present s (.topSummaryFunc f))
      (decided : Present s (.resolvent f n p tgt d)) (flow : Held s (.summary f n1 p1 n2 p2) sum)
      (set : sum.val.set = some ds) (widened : ds.isTop) :
      UnfoldRule s (.contextSummaryD f d n1 p1 n2 p2) ⊤
  | direct {f d n1 p1 n2 p2 caller insn sc} (flow : Present s (.contextSummaryD f d n1 p1 n2 p2))
      (established : Present s (.establishesDirect f d caller insn))
      (site : Held s (.callSite caller insn f) sc) :
      UnfoldRule s (.assignLike caller (.callRoot insn n1) p1 (.callRoot insn n2) p2) sc
  | via {f d n1 p1 n2 p2 caller insn up sc ac} (flow : Present s (.contextSummaryD f d n1 p1 n2 p2))
      (established : Present s (.establishesVia f d caller insn up))
      (site : Held s (.callSite caller insn f) sc)
      (both : (Cond.ofSet input.hybridContext
        (.singleton up (decide (input.hybridContext = .collapse)))).and input.hybridContext sc.val = some ac.val) :
      UnfoldRule s (.assignLike caller (.callRoot insn n1) p1 (.callRoot insn n2) p2) ac

/-- Call targets, in the functions worth walking. -/
inductive TagRule (s : input.State) : Row → CondOf input.hybridContext → Prop
  | closureCritical {f} (critical : Present s (.criticalCall f)) : TagRule s (.tagClosureFunc f) ⊤
  | closureCalled {f v p tgt caller insn} (stored : input.CallTargetAssign f v p tgt)
      (call : input.Calls s caller insn f) : TagRule s (.tagClosureFunc f) ⊤
  | closureCaller {callee v p tgt ty n caller insn} (tag : Present s (.callTargetAssignLike callee v p tgt))
      (param : input.FormalParam callee v ty) (index : v.asFormal = some n) (out : isout n ty p)
      (call : input.Call caller insn callee) : TagRule s (.tagClosureFunc caller) ⊤
  | stored {f v p tgt} (fact : input.CallTargetAssign f v p tgt) (demand : Present s (.tagClosureFunc f)) :
      TagRule s (.callTargetAssignLike f v p tgt) ⊤
  | vp {f v p tgt} (demand : Present s (.tagClosureFunc f))
      (tag : Present s (.callTargetAssignLike f v p tgt)) : TagRule s (.callTargetVp f v p) ⊤
  | key {f v p key rest} (vp : Present s (.callTargetVp f v p))
      (split : (key, rest) ∈ EngineInput.tagSplits input.pathSet p) : TagRule s (.callTargetKey f v key rest p) ⊤
  | keyWild {f v p key rest} (vp : Present s (.callTargetVp f v p))
      (split : (key, rest) ∈ (input.pathSet.splits p).wild) : TagRule s (.callTargetKeyWild f v key rest p) ⊤
  | edge {f v1 p1 v2 key rest p13 p23} (keyed : Present s (.callTargetKey f v2 key rest p23))
      (edge : Certain s (.assignLike f v1 p1 v2 key))
      (admissible : input.pathSet.concat p1 none rest = some p13) :
      TagRule s (.callTargetEdge f v1 p13 v2 p23) ⊤
  | edgeWild {f v1 p1 v2 key rest m adj tail p13 p23}
      (keyed : Present s (.callTargetKeyWild f v2 key rest p23)) (edge : Certain s (.assignWild f v2 key m v1 p1))
      (wild : rest.wildRest m = some (adj, tail))
      (admissible : input.pathSet.concat p1 (some adj) tail = some p13) :
      TagRule s (.callTargetEdge f v1 p13 v2 p23) ⊤
  | step {f v1 p13 v2 p23 tgt} (edge : Present s (.callTargetEdge f v1 p13 v2 p23))
      (tag : Present s (.callTargetAssignLike f v2 p23 tgt)) : TagRule s (.callTargetAssignLike f v1 p13 tgt) ⊤
  | returned {callee v p tgt ty n caller insn} (tag : Present s (.callTargetAssignLike callee v p tgt))
      (param : input.FormalParam callee v ty) (index : v.asFormal = some n) (out : isout n ty p)
      (call : input.Calls s caller insn callee) : TagRule s (.callTargetAssignLike caller (.callArg insn n) p tgt) ⊤
  | criticalHere {f insn v p key} (info : input.CalleeInfo f insn v p key) : TagRule s (.criticalCall f) ⊤
  | criticalBelow {callee n p f insn} (crit : Present s (.criticalSummary callee n p))
      (call : input.Call f insn callee) : TagRule s (.criticalCall f) ⊤

/-- The label exchange with the global frame. -/
inductive GlobalRule (s : input.State) : Row → CondOf input.hybridContext → Prop
  | readEdge {f v1 p1 v2 p2 g} (edge : Present s (.assignLike f v1 p1 v2 p2)) (inside : f ≠ GLOBAL_FRAME)
      (named : v2.asGlobal = some g) : GlobalRule s (.globalRead f g p2) ⊤
  | readCallee {f insn v p key g} (info : input.CalleeInfo f insn v p key) (named : v.asGlobal = some g) :
      GlobalRule s (.globalRead f g p) ⊤
  | closureFrame : GlobalRule s (.tagClosureFunc GLOBAL_FRAME) ⊤
  | closureMention {f v p tgt g} (stored : input.CallTargetAssign f v p tgt)
      (mention : Present s (.globalMention f g)) (inside : f ≠ GLOBAL_FRAME) :
      GlobalRule s (.tagClosureFunc f) ⊤
  | tagUp {f v p tgt} (tag : Present s (.callTargetAssignLike f v p tgt)) (inside : f ≠ GLOBAL_FRAME)
      (global : v.isGlobal) : GlobalRule s (.callTargetAssignLike GLOBAL_FRAME v p tgt) ⊤
  | frameUp {f} (frame : Present s (.intentFrame f)) (inside : f ≠ GLOBAL_FRAME) :
      GlobalRule s (.intentFrame GLOBAL_FRAME) ⊤
  | stringUp {f v p str} (label : Present s (.constReaches f v p str)) (inside : f ≠ GLOBAL_FRAME)
      (global : v.isGlobal) : GlobalRule s (.constReaches GLOBAL_FRAME v p str) ⊤
  | tagKey {v p tgt g key rest} (tag : Present s (.callTargetAssignLike GLOBAL_FRAME v p tgt))
      (named : v.asGlobal = some g) (split : (key, rest) ∈ EngineInput.tagSplits input.pathSet p) :
      GlobalRule s (.globalLabelKey g key p) ⊤
  | stringKey {v p str g key rest} (label : Present s (.constReaches GLOBAL_FRAME v p str))
      (named : v.asGlobal = some g) (split : (key, rest) ∈ EngineInput.tagSplits input.pathSet p) :
      GlobalRule s (.globalLabelKey g key p) ⊤
  | labelRead {f g key p} (keyed : Present s (.globalLabelKey g key p)) (read : Present s (.globalRead f g key)) :
      GlobalRule s (.globalLabelRead f g p) ⊤
  | tagDown {f g p tgt} (read : Present s (.globalLabelRead f g p))
      (tag : Present s (.callTargetAssignLike GLOBAL_FRAME (.global g) p tgt)) :
      GlobalRule s (.callTargetAssignLike f (.global g) p tgt) ⊤
  | closureDown {f g p tgt} (read : Present s (.globalLabelRead f g p))
      (tag : Present s (.callTargetAssignLike GLOBAL_FRAME (.global g) p tgt)) :
      GlobalRule s (.tagClosureFunc f) ⊤
  | stringDown {f g p str} (read : Present s (.globalLabelRead f g p)) (frame : Present s (.intentFrame f))
      (label : Present s (.constReaches GLOBAL_FRAME (.global g) p str)) :
      GlobalRule s (.constReaches f (.global g) p str) ⊤

/-- The index datalog: every rule of the engine. -/
inductive IndexRules (s : input.State) (r : Row) (c : CondOf input.hybridContext) : Prop
  | root (fires : RootRule input s r c)
  | field (fires : FieldRule input s r c)
  | call (fires : CallRule input s r c)
  | string (fires : StringRule input s r c)
  | summary (fires : SummaryRule input s r c)
  | globalSummary (fires : GlobalSummaryRule input s r c)
  | hybrid (fires : HybridRule input s r c)
  | scan (fires : ScanRule input s r c)
  | sets (fires : SetsRule input s r c)
  | unfold (fires : UnfoldRule input s r c)
  | tag (fires : TagRule input s r c)
  | globals (fires : GlobalRule input s r c)

namespace EngineInput

variable {input} {s : input.State}

/-- A row of a known state, read by evaluation. -/
theorem reads (r : Row) (c : CondOf input.hybridContext) (value : s r = c) : Held s r c := value

/-- Extends a run by one firing. -/
theorem next (run : Run (IndexRules input) input.seed s) (r : Row) (c : CondOf input.hybridContext)
    (fires : IndexRules input s r c) : Run (IndexRules input) input.seed (s.insert r c) := run.snoc fires

end EngineInput

end Ctadl.Index
