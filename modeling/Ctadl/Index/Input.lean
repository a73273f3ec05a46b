import Ctadl.Index.Condition

/-! # What a run of the index starts from

The facts of a program and the configuration, with what is derived from them before the fixpoint: the
admissible paths, the stores and whole-variable copies of the original program, and the aliases of
formals and globals those copies make.
-/

namespace Ctadl.Index

open Facts Cir

/-- An instruction and the function it is in. -/
structure InsnSiteId where
  funcId : FunctionId
  insnId : InsnId
deriving DecidableEq, Repr

/-- How rule 3.2 pairs conditional summaries with the calls that establish their decisions. -/
inductive ContextJoin where
  | scan
  | sets
  | unfold
deriving DecidableEq, Repr

structure IndexConfig where
  aliasRule : Bool
  hybridContext : HybridContext
  contextJoin : ContextJoin
  derefPaths : Bool
deriving DecidableEq

/-- Program facts for indexing, those the rules read. -/
structure IndexFacts where
  formalParam : List (FunctionId × FlowVariable × FormalType)
  actualParam : List (InsnSiteId × FormalIndex × FlowVertex)
  call : List (InsnSiteId × FunctionId)
  assign : List (InsnSiteId × FlowVertex × FlowVertex)
  callTargetAssign : List (InsnSiteId × FlowVertex × CallTargetObject)
  constStrAssign : List (InsnSiteId × FlowVertex × Str)
  calleeInfo : List (InsnSiteId × FlowVertex × CallDispatchKey)
  calleeResolvents : List (CallTargetObject × CallDispatchKey × FunctionId)
  summary : List (FunctionId × Root × Path × Root × Path)
  paths : List Path
  intentFrame : List FunctionId
  intentSend : List (FunctionId × InsnId × InsnId × FormalIndex × IntentKind)
  intentFilter : List (Str × Str × IntentKind × FunctionId)
  intentComponent : List (Str × IntentKind × FunctionId)
  globalFlow : List (GlobalId × Path × GlobalId × Path)

def COMPONENT_PATH : Path := Path.fromAccesses [.field "<component>"]

def ACTION_PATH : Path := Path.fromAccesses [.field "<action>"]

def TYPE_PATH : Path := Path.fromAccesses [.field "<type>"]

/-- The path of `#value` alone. -/
def VALUE_PATH : Path := Path.fromAccesses [.value]

/-- What a path contributes to the value-closed set: itself, what stands before a last `#value`, and
nothing where a segment follows one. -/
def valueBase (p : Path) : Option Path :=
  match p.segs.findIdx? (·.isValue) with
  | none => some p
  | some i => if i + 1 = p.segs.length then some (Path.fromAccesses (p.segs.take i)) else none

/-- Closes the paths under a last `#value`, where any of them mentions it. -/
def withValuePaths (paths : List Path) : List Path :=
  if paths.any fun p => p.segs.any (·.isValue) then
    (Path.empty :: paths.filterMap valueBase).flatMap fun p => [p, p.concat VALUE_PATH]
  else paths

/-- The admissible paths: those of the program, those of the models, and one concatenation of the two
in either order. -/
def computePaths (programPaths modelPaths : List Path) (derefPaths : Bool) : List Path :=
  let models := if derefPaths then modelPaths ++ [Path.fromAccesses [.deref]] else modelPaths
  withValuePaths <| programPaths ++ models ++
    (models.flatMap fun m => programPaths.flatMap fun p => [m.concat p, p.concat m])

/-- What one run of the engine starts from. -/
structure EngineInput where
  facts : IndexFacts
  config : IndexConfig

namespace EngineInput

variable (input : EngineInput)

/-- The syntactic paths of the program. -/
def programPaths : List Path :=
  (input.facts.assign.flatMap fun (_, dst, src) => [dst.path, src.path]) ++ input.facts.paths ++
    (input.facts.actualParam.map fun (_, _, vx) => vx.path) ++
    input.facts.calleeInfo.map fun (_, vx, _) => vx.path

/-- The paths the loaded summaries mention. -/
def summaryPaths : List Path := input.facts.summary.flatMap fun (_, _, p1, _, p2) => [p1, p2]

/-- The admissible paths of this run. -/
def pathSet : PathSet :=
  ⟨computePaths input.programPaths input.summaryPaths input.config.derefPaths⟩

/-- The edges of the run's start: the program's assignments, and the loaded flows between globals as
edges of the global frame. -/
def assignLike : List (FunctionId × FlowVariable × Path × FlowVariable × Path) :=
  (input.facts.assign.map fun (site, dst, src) => (site.funcId, dst.var, dst.path, src.var, src.path)) ++
    input.facts.globalFlow.map fun (dst, p1, src, p2) => (GLOBAL_FRAME, .global dst, p1, .global src, p2)

/-- Assignments of the original program whose destination path is not empty. -/
def progStore : List (FunctionId × FlowVariable × Path) :=
  input.facts.assign.filterMap fun (site, dst, _) =>
    if dst.path.isEmpty then none else some (site.funcId, dst.var, dst.path)

/-- Whole-variable copies of the original program, destination first. -/
def copyEdge : List (FunctionId × FlowVariable × FlowVariable) :=
  input.facts.assign.filterMap fun (site, dst, src) =>
    if dst.path.isEmpty && src.path.isEmpty then some (site.funcId, dst.var, src.var) else none

variable {input}

theorem mem_copyEdge {f : FunctionId} {dst src : FlowVariable} :
    (f, dst, src) ∈ input.copyEdge ↔ ∃ insn, (⟨f, insn⟩, ⟨dst, .empty⟩, ⟨src, .empty⟩) ∈ input.facts.assign := by
  simp only [copyEdge, List.mem_filterMap, Option.ite_none_right_eq_some, Bool.and_eq_true, Path.isEmpty_iff,
    Option.some_inj, Prod.mk.injEq]
  constructor
  · rintro ⟨⟨⟨_, insn⟩, ⟨_, _⟩, ⟨_, _⟩⟩, fact, ⟨rfl, rfl⟩, rfl, rfl, rfl⟩
    exact ⟨insn, fact⟩
  · rintro ⟨insn, fact⟩
    exact ⟨_, fact, ⟨rfl, rfl⟩, rfl, rfl, rfl⟩

variable (input)

/-- The variables that whole-alias a formal or a global through original copies. A `Copied` formal has
no aliases, and no copy is followed into a formal. -/
inductive AliasOfFormal : FunctionId → FlowVariable → Root → Prop
  | formal {f : FunctionId} {i : FormalIndex} {ty : FormalType}
      (param : (f, .formal i, ty) ∈ input.facts.formalParam) (shared : ty ≠ .copied) :
      AliasOfFormal f (.formal i) (.formal i)
  | global {f : FunctionId} {dst : FlowVariable} {g : GlobalId}
      (copied : (f, dst, .global g) ∈ input.copyEdge) : AliasOfFormal f (.global g) (.global g)
  | copy {f : FunctionId} {src dst : FlowVariable} {r : Root} (source : AliasOfFormal f src r)
      (copied : (f, dst, src) ∈ input.copyEdge) (away : dst.asFormal = none) : AliasOfFormal f dst r

/-- The exact splits of a label's path. The empty path has one even where it is not admissible. -/
def tagSplits (ps : PathSet) (p : Path) : List (Path × Path) :=
  if p.isEmpty then [(.empty, .empty)] else (ps.splits p).exact

end EngineInput

end Ctadl.Index
