import Ctadl.Datalog.Store
import Ctadl.Index.Input

/-! # The derived relations of the index

One constructor a derived relation, in the engine's column order. The lattice column of a relation is
the value its row holds in the store; a relation without one holds `always`. The facts of a run are
read through the predicates on its input, and what is loaded before the first rule fires is `seed`.
-/

namespace Ctadl.Index

open Facts Datalog

/-- A row of a derived relation, without its condition. -/
inductive Row where
  | summary (f : FunctionId) (n1 : Root) (p1 : Path) (n2 : Root) (p2 : Path)
  | locals (f : FunctionId) (v : FlowVariable) (p : Path) (a : Root) (q : Path)
  | assignLike (f : FunctionId) (v1 : FlowVariable) (p1 : Path) (v2 : FlowVariable) (p2 : Path)
  | callTargetAssignLike (f : FunctionId) (v : FlowVariable) (p : Path) (tgt : CallTargetObject)
  | constReaches (f : FunctionId) (v : FlowVariable) (p : Path) (str : Str)
  | resolvedCall (f : FunctionId) (insn : InsnId) (callee : FunctionId)
  | fnptrCall (f : FunctionId) (insn : InsnId) (callee : FunctionId)
  | intentPair (f : FunctionId) (insn : InsnId) (recv : FunctionId) (kind : IntentPairKind)
  | intentFrame (f : FunctionId)
  | criticalSummary (f : FunctionId) (n : FormalIndex) (p : Path)
  | criticalCall (f : FunctionId)
  | resolvent (f : FunctionId) (n : FormalIndex) (p : Path) (tgt : CallTargetObject) (d : Decision)
  | establishesDirect (f : FunctionId) (d : Decision) (caller : FunctionId) (insn : InsnId)
  | establishesVia (f : FunctionId) (d : Decision) (caller : FunctionId) (insn : InsnId) (up : Decision)
  | callSite (caller : FunctionId) (insn : InsnId) (callee : FunctionId)
  | globalMention (f : FunctionId) (g : GlobalId)
  | reachVp (f : FunctionId) (v : FlowVariable) (p : Path)
  | localsKey (f : FunctionId) (v : FlowVariable) (key rest p : Path)
  | localsKeyWild (f : FunctionId) (v : FlowVariable) (key rest p : Path)
  | localsWild (f : FunctionId) (v : FlowVariable) (key : Path) (m : Int64) (p : Path)
  | assignWild (f : FunctionId) (v2 : FlowVariable) (key : Path) (m : Int64) (v1 : FlowVariable) (p1 : Path)
  | edgeSplit (f : FunctionId) (v2 : FlowVariable) (key rest : Path) (v1 : FlowVariable) (p1 : Path)
  | edgeSplitWild (f : FunctionId) (v2 : FlowVariable) (key rest : Path) (v1 : FlowVariable) (p1 : Path)
  | extDst (f : FunctionId) (v1 : FlowVariable) (p13 : Path) (v2 : FlowVariable) (p23 : Path)
  | extFml (f : FunctionId) (v1 : FlowVariable) (p1 : Path) (v2 : FlowVariable) (p2 : Path) (adj : Int64)
      (tail : Path)
  | aliasFlow (f : FunctionId) (n1 : Root) (p1 : Path) (n2 : Root) (p2 : Path)
  | criticalArg (g : FunctionId) (arg : FlowVariable) (key rest p : Path) (f : FunctionId) (insn : InsnId)
      (n : FormalIndex)
  | criticalReach (g : FunctionId) (n2 : FormalIndex) (p2 : Path) (f : FunctionId) (insn : InsnId)
      (n : FormalIndex) (p : Path)
  | contextSummarySet (f : FunctionId) (ds : DecisionSet)
  | setMember (f : FunctionId) (d : Decision) (ds : DecisionSet)
  | contextSummaryTop (f : FunctionId) (ds : DecisionSet)
  | setEstablishesDirect (f : FunctionId) (ds : DecisionSet) (caller : FunctionId) (insn : InsnId)
  | setEstablishesVia (f : FunctionId) (ds : DecisionSet) (caller : FunctionId) (insn : InsnId) (up : Decision)
  | contextSummaryD (f : FunctionId) (d : Decision) (n1 : Root) (p1 : Path) (n2 : Root) (p2 : Path)
  | topSummaryFunc (f : FunctionId)
  | tagClosureFunc (f : FunctionId)
  | callTargetVp (f : FunctionId) (v : FlowVariable) (p : Path)
  | callTargetKey (f : FunctionId) (v : FlowVariable) (key rest p : Path)
  | callTargetKeyWild (f : FunctionId) (v : FlowVariable) (key rest p : Path)
  | callTargetEdge (f : FunctionId) (v1 : FlowVariable) (p13 : Path) (v2 : FlowVariable) (p23 : Path)
  | globalRead (f : FunctionId) (g : GlobalId) (p : Path)
  | globalLabelKey (g : GlobalId) (key p : Path)
  | globalLabelRead (f : FunctionId) (g : GlobalId) (p : Path)
deriving DecidableEq

/-- The relations the facts are loaded into. -/
def Row.loaded : Row → Bool
  | summary .. | assignLike .. | intentFrame .. => true
  | _ => false

namespace EngineInput

variable (input : EngineInput)

abbrev hybridContext : HybridContext := input.config.hybridContext

/-- What a run has derived so far. -/
abbrev State := Store Row (CondOf input.hybridContext)

def FormalParam (f : FunctionId) (v : FlowVariable) (ty : FormalType) : Prop :=
  (f, v, ty) ∈ input.facts.formalParam

def ActualParam (f : FunctionId) (insn : InsnId) (n : FormalIndex) (v : FlowVariable) (p : Path) : Prop :=
  (⟨f, insn⟩, n, ⟨v, p⟩) ∈ input.facts.actualParam

def Call (caller : FunctionId) (insn : InsnId) (callee : FunctionId) : Prop :=
  (⟨caller, insn⟩, callee) ∈ input.facts.call

def CalleeInfo (f : FunctionId) (insn : InsnId) (v : FlowVariable) (p : Path) (key : CallDispatchKey) : Prop :=
  (⟨f, insn⟩, ⟨v, p⟩, key) ∈ input.facts.calleeInfo

def CallTargetAssign (f : FunctionId) (v : FlowVariable) (p : Path) (tgt : CallTargetObject) : Prop :=
  ∃ insn, (⟨f, insn⟩, ⟨v, p⟩, tgt) ∈ input.facts.callTargetAssign

def ConstStrAssign (f : FunctionId) (v : FlowVariable) (p : Path) (str : Str) : Prop :=
  ∃ insn, (⟨f, insn⟩, ⟨v, p⟩, str) ∈ input.facts.constStrAssign

def CalleeResolvents (tgt : CallTargetObject) (key : CallDispatchKey) (callee : FunctionId) : Prop :=
  (tgt, key, callee) ∈ input.facts.calleeResolvents

/-- The rows loaded before the run: the models' summaries, the program's edges, the intent frames. -/
def seeds : List Row :=
  (input.facts.summary.map fun (f, n1, p1, n2, p2) => .summary f n1 p1 n2 p2) ++
    (input.assignLike.map fun (f, v1, p1, v2, p2) => .assignLike f v1 p1 v2 p2) ++
    input.facts.intentFrame.map .intentFrame

/-- The state a run starts from. -/
def seed : input.State := fun r => if r ∈ input.seeds then ((⊤ : CondOf input.hybridContext) : WithBot _) else ⊥

theorem certain_seed {r : Row} : Certain input.seed r ↔ r ∈ input.seeds := by
  simp [Certain, Held, seed]

theorem present_seed {r : Row} : Present input.seed r ↔ r ∈ input.seeds := by
  simp [Present, seed]

/-- A row of a relation that no fact is loaded into is derived. -/
theorem not_present_seed {r : Row} (derived : r.loaded = false) : ¬ Present input.seed r := by
  intro present
  have loaded := input.present_seed.mp present
  simp only [seeds, List.mem_append, List.mem_map] at loaded
  rcases loaded with (⟨_, _, rfl⟩ | ⟨_, _, rfl⟩) | ⟨_, _, rfl⟩ <;> simp [Row.loaded] at derived

end EngineInput

end Ctadl.Index
