import Ctadl.Cir.Verify
import Ctadl.Flowgraph.Worklist
import Ctadl.Graph.Dominators

/-! # Conversion to static single assignment form

The passes of the conversion in their order: unreachable blocks are pruned on request, returns are
rewritten into jumps to one exit block, phis are placed on the iterated dominance frontier of each
variable's definitions where the variable is live, and a walk down the dominator tree gives every
definition a fresh version and every use the version on top of its variable's stack. Version 0 is the
value a variable comes in with; the start block begins by binding version 0 of each parameter.

A panic is `none`. Versions are natural numbers here and 32-bit in the source.
-/

namespace Ctadl.Ssa

open Function Cir Ctadl.Graph Flowgraph

/-- The control-flow graph of a list of blocks. A predecessor is listed once for every edge. -/
def cfg (blocks : List BasicBlockData) : ControlFlowGraph where
  numNodes := blocks.length
  startNode := 0
  successors n := (blocks[n]?.map BasicBlockData.successors).getD []
  predecessors n := (List.range blocks.length).flatMap fun b =>
    (((blocks[b]?.map BasicBlockData.successors).getD []).filter (· = n)).map fun _ => b

/-- The nodes reachable from the start, in the order a depth-first search meets them. -/
def reachableFrom (graph : ControlFlowGraph) : ℕ → List ℕ → List ℕ → List ℕ
  | 0, _, reach => reach
  | fuel + 1, nodes, reach =>
    match nodes with
    | [] => reach
    | n :: nodes =>
      if n ∈ reach then reachableFrom graph fuel nodes reach
      else reachableFrom graph fuel ((graph.successors n).reverse ++ nodes) (reach ++ [n])

def reachable (graph : ControlFlowGraph) : List ℕ :=
  reachableFrom graph (DomImpl.searchFuel graph) [graph.startNode] []

/-- Rename the predecessors of a phi, and drop those that are gone. -/
def renumberStatement (kept : List ℕ) : Statement → Statement
  | .phi dest operands => .phi dest ((operands.filter fun (pred, _) => pred ∈ kept).map fun (pred, op) =>
      (kept.idxOf pred, op))
  | .assign dest sources => .assign dest sources
  | .callAssign info style rets args => .callAssign info style rets args
  | .nop => .nop

/-- Rename the targets of a terminator. A target that is gone is a panic. -/
def renumberTerminator (kept : List ℕ) : Terminator → Option Terminator
  | .goto targets => if ∀ target ∈ targets, target ∈ kept then some (.goto (targets.map kept.idxOf)) else none
  | .ret args => some (.ret args)

/-- Rename the blocks a block mentions. -/
def renumber (kept : List ℕ) (block : BasicBlockData) : Option BasicBlockData := do
  let statements := block.statements.map (renumberStatement kept)
  match block.terminator with
  | some term => some { statements, terminator := some (← renumberTerminator kept term) }
  | none => some { statements, terminator := none }

/-- Delete the blocks that no path from the start block reaches. -/
def pruneUnreachableNodes (function : FunctionData) : Option FunctionData := do
  let kept := reachable (cfg function.blocks)
  if kept.length = function.blocks.length then some function
  else do
    let blocks ← kept.mapM fun old => do renumber kept (← function.blocks[old]?)
    some { function with blocks }

/-- Intern the variables that carry the returned values to the exit block. -/
def internRetvars (locals : List String) (arity : ℕ) : List String × List VariableRef :=
  (List.range arity).foldl (fun (locals, retvars) i =>
    let (locals, idx) := internLocal locals ("_$ret" ++ toString i)
    (locals, retvars ++ [VariableRef.new (.localVar idx)])) (locals, [])

/-- Turn a return into assignments to the return variables and a jump to the exit block. -/
def singleExitRewrite (exit : ℕ) (retvars : List VariableRef) (block : BasicBlockData) :
    Option BasicBlockData :=
  match block.terminator with
  | none => none
  | some (.goto _) => some block
  | some (.ret args) =>
    some
      { statements := block.statements ++
          List.zipWith (fun retvar arg => Statement.assign (.ofRef retvar) [arg]) retvars args
        terminator := some (.goto [exit]) }

/-- Add the exit block, as a successor of every returning block and of the start block. -/
def complete (function : FunctionData) : Option FunctionData := do
  let (locals, retvars) := internRetvars function.locals function.returnArity
  let exit := function.blocks.length
  let blocks ← function.blocks.mapM (singleExitRewrite exit retvars)
  match blocks with
  | [] => none
  | start :: rest =>
    match start.terminator with
    | some (.goto targets) =>
      let targets := if exit ∈ targets then targets else targets ++ [exit]
      let contents : BasicBlockData :=
        { statements := [], terminator := some (.ret (retvars.map fun v => .path (.ofRef v))) }
      some
        { function with
          locals
          blocks := { start with terminator := some (.goto targets) } :: rest ++ [contents] }
    | some (.ret _) | none => none

inductive PhiMode where
  | minimal
  | pruned
deriving DecidableEq, Repr

namespace PhiPlace

/-- The variables a statement reads whose version is still open. Globals are never versioned. -/
def useVars (st : Statement) : List Variable :=
  (st.srcVars.filter fun v => v.version.isNone && !v.var.isGlobal).map VariableRef.var

def termVars (term : Terminator) : List Variable :=
  (term.srcVars.filter fun v => !v.var.isGlobal).map VariableRef.var

def blockVars (block : BasicBlockData) : List Variable :=
  (block.statements.flatMap fun st => useVars st ++ st.dstVars.map VariableRef.var) ++
    (block.terminator.map termVars).getD []

/-- The ordered set of variables. -/
def collectVars (blocks : List BasicBlockData) : List Variable :=
  ((blocks.flatMap blockVars).dedup).insertionSort fun v w => v.le w

/-- The blocks that define the variable, once for each definition. -/
def assigns (blocks : List BasicBlockData) (v : Variable) : List ℕ :=
  (List.range blocks.length).flatMap fun b =>
    (((blocks[b]?.map BasicBlockData.statements).getD []).flatMap fun st =>
      st.dstVars.filter fun dst => dst.var = v).map fun _ => b

/-- The statements, then the terminator, read the variable before any of them defines it. -/
def readsFirst (v : Variable) (term : Option Terminator) : List Statement → Bool
  | [] => v ∈ (term.map termVars).getD []
  | st :: rest => v ∈ useVars st || (v ∉ st.dstVars.map VariableRef.var && readsFirst v term rest)

/-- The blocks that read the variable before they define it. -/
def upwardUses (blocks : List BasicBlockData) (v : Variable) : List ℕ :=
  (List.range blocks.length).filter fun b =>
    (blocks[b]?.map fun block => readsFirst v block.terminator block.statements).getD false

/-- The blocks on entry to which the variable is live: back from the upward-exposed uses, stopping at
blocks that define the variable. -/
def liveIn (blocks : List BasicBlockData) (v : Variable) : List ℕ :=
  let uses := upwardUses blocks v
  (Worklist.drain (fun x => ((cfg blocks).predecessors x).filter (· ∉ assigns blocks v))
    (uses.length + blocks.length) { found := uses, work := uses, stack := uses.reverse }).found

/-- The blocks of the iterated dominance frontier of the variable's definitions. -/
def iteratedFrontier (blocks : List BasicBlockData) (frontier : DominanceFrontier) (v : Variable) : List ℕ :=
  let defs := assigns blocks v
  (Worklist.drain frontier.frontier (defs.length + blocks.length)
    { found := [], work := defs, stack := defs.reverse }).found

/-- Put a phi for the variable at the head of each block that is to have one. -/
def insertPhi (original : List BasicBlockData) (mode : PhiMode) (frontier : DominanceFrontier)
    (blocks : List BasicBlockData) (v : Variable) : List BasicBlockData :=
  let live := liveIn original v
  let iterated := iteratedFrontier original frontier v
  blocks.mapIdx fun y block =>
    if y ∈ iterated ∧ (mode = .minimal ∨ y ∈ live) then
      { block with
        statements := .phi (.new v) (((cfg original).predecessors y).map fun pred => (pred, .new v)) ::
          block.statements }
    else block

end PhiPlace

/-- The variables that were given phis, and the tree to rename along. -/
structure PhiPlace where
  vars : List Variable
  dominators : DominatorTree

/-- Place the phis of every variable. -/
def PhiPlace.new (blocks : List BasicBlockData) (mode : PhiMode) (hash : HashOrder) :
    Option (PhiPlace × List BasicBlockData) := do
  let dominators ← DominatorTree.new (cfg blocks) hash
  let frontier := DominanceFrontier.new (cfg blocks) dominators
  let vars := PhiPlace.collectVars blocks
  some ({ vars, dominators }, vars.foldl (insertPhi blocks mode frontier) blocks)

/-- A stack of versions, its top first, and the next version of each variable. -/
structure SsaRename where
  s : Variable → Option (List ℕ)
  c : Variable → Option ℕ

namespace SsaRename

/-- The version on top of a variable's stack. -/
def top (names : SsaRename) (v : Variable) : Option ℕ := do (← names.s v).head?

/-- A reference with the version on top; one that has a version, or is to a global, as it is. -/
def use (names : SsaRename) (ref : VariableRef) : Option VariableRef :=
  if ref.version.isSome || ref.var.isGlobal then some ref else (names.top ref.var).map ref.withVersion

/-- Terminators do not skip references that have a version. -/
def useTerm (names : SsaRename) (ref : VariableRef) : Option VariableRef :=
  if ref.var.isGlobal then some ref else (names.top ref.var).map ref.withVersion

/-- Rewrite references by a lookup that may fail. -/
def rewrite (lookup : VariableRef → Option VariableRef) (refs : List VariableRef) :
    Option (VariableRef → VariableRef) :=
  if ∀ ref ∈ refs, (lookup ref).isSome then some fun ref => (lookup ref).getD ref else none

/-- A fresh version for a definition, which becomes the top of the stack. -/
def define (names : SsaRename) (ref : VariableRef) : Option (VariableRef × SsaRename) := do
  let i ← names.c ref.var
  let stack ← names.s ref.var
  some (ref.withVersion i,
    { s := update names.s ref.var (some (i :: stack)), c := update names.c ref.var (some (i + 1)) })

def defineAll (names : SsaRename) : List VariableRef → Option (List VariableRef × SsaRename)
  | [] => some ([], names)
  | ref :: refs => do
    let (ref, names) ← names.define ref
    let (refs, names) ← names.defineAll refs
    some (ref :: refs, names)

/-- Rename the uses of a statement other than a phi, then its definitions. -/
def statement (names : SsaRename) (st : Statement) : Option (Statement × SsaRename) := do
  let st ← if st.isPhi then some st else (rewrite names.use st.srcVars).map st.mapSrc
  let (refs, names) ← names.defineAll st.dstVars
  some (st.setDst refs, names)

def statements (names : SsaRename) : List Statement → Option (List Statement × SsaRename)
  | [] => some ([], names)
  | st :: rest => do
    let (st, names) ← names.statement st
    let (rest, names) ← names.statements rest
    some (st :: rest, names)

/-- Give the first operand that comes from block `x` the version on top. -/
def operand (names : SsaRename) (x : ℕ) : List (ℕ × VariableRef) → Option (List (ℕ × VariableRef))
  | [] => some []
  | (pred, op) :: rest =>
    if pred = x then (names.top op.var).map fun i => (pred, op.withVersion i) :: rest
    else (names.operand x rest).map ((pred, op) :: ·)

/-- Fill in the operands for block `x` of the phis among some statements. -/
def operands (names : SsaRename) (x : ℕ) : List Statement → Option (List Statement)
  | [] => some []
  | .phi dest ops :: rest => do
    let ops ← names.operand x ops
    let rest ← names.operands x rest
    some (.phi dest ops :: rest)
  | .assign dest sources :: rest => (names.operands x rest).map (.assign dest sources :: ·)
  | .callAssign info style rets args :: rest =>
    (names.operands x rest).map (.callAssign info style rets args :: ·)
  | .nop :: rest => (names.operands x rest).map (.nop :: ·)

/-- Undo one definition. -/
def pop (names : SsaRename) (v : Variable) : Option SsaRename := do
  let stack ← names.s v
  some { names with s := update names.s v (some stack.tail) }

/-- The part of a visit before the children: rename block `x` and fill in the operands for it. -/
def enter (blocks : List BasicBlockData) (names : SsaRename) (x : ℕ) :
    Option (List BasicBlockData × SsaRename) := do
  let block ← blocks[x]?
  let term ← block.terminator
  let (statements, names) ← names.statements block.statements
  let rewriting ← rewrite names.useTerm term.srcVars
  let blocks := blocks.set x { statements, terminator := some (term.mapSrc rewriting) }
  let blocks ← term.successors.foldlM (fun blocks y => do
    let block ← blocks[y]?
    let statements ← names.operands x block.statements
    some (blocks.set y { block with statements })) blocks
  some (blocks, names)

/-- Rename the blocks below `x` in the dominator tree. -/
def search (dominators : DominatorTree) : ℕ → List BasicBlockData → SsaRename → ℕ →
    Option (List BasicBlockData × SsaRename)
  | 0, _, _, _ => none
  | fuel + 1, blocks, names, x => do
    let (blocks, names) ← enter blocks names x
    let (blocks, names) ← (dominators.successors x).foldlM
      (fun (blocks, names) y => search dominators fuel blocks names y) (blocks, names)
    let block ← blocks[x]?
    let names ← (block.statements.flatMap fun st => st.dstVars.map VariableRef.var).foldlM pop names
    some (blocks, names)

/-- Every variable starts with version 0 on its stack. -/
def new (blocks : List BasicBlockData) (place : PhiPlace) : Option (List BasicBlockData × SsaRename) :=
  search place.dominators blocks.length blocks
    { s := fun v => if v ∈ place.vars then some [0] else none
      c := fun v => if v ∈ place.vars then some 1 else none } 0

end SsaRename

/-- Bind version 0 of a parameter to the parameter that comes in. -/
def entryBinding (idx : ℕ) : Statement :=
  .assign (.ofRef ((VariableRef.new (.paramVar idx)).withVersion 0)) [.path (.ofRef (.new (.paramVar idx)))]

/-- Push the binding of each parameter in turn to the front of the start block. -/
def bindParams (params : ℕ) (blocks : List BasicBlockData) : List BasicBlockData :=
  (List.range params).foldl (fun blocks idx =>
    blocks.modify 0 fun block => { block with statements := entryBinding idx :: block.statements }) blocks

/-- The conversion, up to the assertion that its result passes the verifier. -/
def transformWith (function : FunctionData) (prune : Bool) (mode : PhiMode) (hash : HashOrder) :
    Option FunctionData :=
  if function.blocks.isEmpty then some function
  else do
    let function ← if prune then pruneUnreachableNodes function else some function
    let function ← complete function
    let (place, blocks) ← PhiPlace.new function.blocks mode hash
    let (blocks, _) ← SsaRename.new blocks place
    some { function with blocks := bindParams function.params.length blocks }

/-- The conversion as it is called: with pruned phis, and asserting that its result passes the verifier. -/
def transform (function : FunctionData) (prune : Bool) (hash : HashOrder) : Option FunctionData := do
  let converted ← transformWith function prune .pruned hash
  if function.blocks.isEmpty || converted.verify.isEmpty then some converted else none

theorem transform_eq_some {f g : FunctionData} {prune : Bool} {hash : HashOrder} (transformed : transform f prune hash = some g) :
    transformWith f prune .pruned hash = some g ∧ (f.blocks = [] ∨ g.verify = []) := by
  unfold transform at transformed
  simp only [Option.bind_eq_bind, Option.bind_eq_some_iff, Option.ite_none_right_eq_some, Bool.or_eq_true,
    List.isEmpty_iff, Option.some.injEq] at transformed
  obtain ⟨g, converted, checked, rfl⟩ := transformed
  exact ⟨converted, checked⟩

/-- The passes of a conversion that succeeds. -/
theorem transformWith_eq_some {f g : FunctionData} {prune : Bool} {mode : PhiMode} {hash : HashOrder}
    (nonempty : f.blocks ≠ []) (transformed : transformWith f prune mode hash = some g) :
    ∃ f₁ f₂ place blocks blocks' names,
      (if prune then pruneUnreachableNodes f else some f) = some f₁ ∧ complete f₁ = some f₂ ∧
        PhiPlace.new f₂.blocks mode hash = some (place, blocks) ∧
        SsaRename.new blocks place = some (blocks', names) ∧
        g = { f₂ with blocks := bindParams f₂.params.length blocks' } := by
  unfold transformWith at transformed
  rw [if_neg (by simpa using nonempty)] at transformed
  cases prune <;>
    simp only [if_true, Bool.false_eq_true, if_false, Option.bind_eq_bind, Option.bind_some, Option.bind_eq_some_iff,
      Option.some.injEq, Prod.exists] at transformed ⊢
  · obtain ⟨f₂, completed, place, blocks, placed, blocks', names, renamed, rfl⟩ := transformed
    exact ⟨f, f₂, place, blocks, blocks', names, rfl, completed, placed, renamed, rfl⟩
  · obtain ⟨f₁, pruned, f₂, completed, place, blocks, placed, blocks', names, renamed, rfl⟩ := transformed
    exact ⟨f₁, f₂, place, blocks, blocks', names, pruned, completed, placed, renamed, rfl⟩

end Ctadl.Ssa
