import Ctadl.Ssa.Prepare

/-! # Pruning unreachable blocks

The walk from the start block panics at a block that is not there or not finished. Where it does not, the
pruned function is the reachable part of the function under new numbers: one map renames the blocks, the
targets of jumps and the operands of phis.
-/

namespace Ctadl.Ssa

open Cir Ctadl.Graph Flowgraph

namespace Pruning

/-- Where control goes from a block. A block that is not there or not finished is a panic. -/
def successors (blocks : List BasicBlockData) (n : ℕ) : Option (List ℕ) := do
  let block ← blocks[n]?
  let term ← block.terminator
  return term.successors

/-- Pop nodes until none is left, and push the successors of those met first. -/
def walk (blocks : List BasicBlockData) : ℕ → List ℕ → List ℕ → Option (List ℕ)
  | 0, _, _ => none
  | _ + 1, [], reach => some reach
  | fuel + 1, n :: nodes, reach =>
    if n ∈ reach then walk blocks fuel nodes reach
    else (successors blocks n).bind fun next => walk blocks fuel (next.reverse ++ nodes) (reach ++ [n])

/-- How many nodes a block pushes. -/
def degree (blocks : List BasicBlockData) (n : ℕ) : ℕ := ((successors blocks n).getD []).length

/-- The blocks the start block reaches, in the order they are met. -/
def reachable (blocks : List BasicBlockData) : Option (List ℕ) :=
  walk blocks (2 + ∑ n ∈ Finset.range blocks.length, degree blocks n) [0] []

/-- Delete the blocks that no path from the start block reaches. -/
def pruneUnreachableNodes (function : FunctionData) : Option FunctionData := do
  let kept ← reachable function.blocks
  if kept.length = function.blocks.length then some function
  else do
    let blocks ← kept.mapM fun old => do renumber kept (← function.blocks[old]?)
    some { function with blocks }

/-- Every block the start block reaches is there and finished. -/
def Finished (blocks : List BasicBlockData) : Prop :=
  ∀ n, Reachable (cfg blocks).Edge 0 n → (successors blocks n).isSome

section Walk

variable {blocks : List BasicBlockData} {nodes reach kept : List ℕ} {n : ℕ}

theorem successors_cfg (blocks : List BasicBlockData) (n : ℕ) :
    (cfg blocks).successors n = (successors blocks n).getD [] := by
  cases here : blocks[n]? with
  | none => simp [cfg, successors, here]
  | some block => cases last : block.terminator <;> simp [cfg, successors, here, last, BasicBlockData.successors]

theorem successors_eq_some {next : List ℕ} (finished : successors blocks n = some next) :
    ∃ block term, blocks[n]? = some block ∧ block.terminator = some term ∧ next = term.successors := by
  simp only [successors, Option.bind_eq_bind, Option.bind_eq_some_iff, Option.pure_def, Option.some.injEq] at finished
  obtain ⟨block, here, term, last, same⟩ := finished
  exact ⟨block, term, here, last, same.symm⟩

/-- What the walk keeps: nodes are reached, and what a met node leads to is met or waits. -/
structure Found (blocks : List BasicBlockData) (nodes reach : List ℕ) : Prop where
  nodup : reach.Nodup
  first : (reach ++ nodes).head? = some 0
  walked : ∀ n ∈ reach ++ nodes, Reachable (cfg blocks).Edge 0 n
  closed : ∀ n ∈ reach, ∃ next, successors blocks n = some next ∧ next ⊆ reach ++ nodes

theorem Found.skip (found : Found blocks (n :: nodes) reach) (old : n ∈ reach) : Found blocks nodes reach := by
  have same (m : ℕ) : m ∈ reach ++ n :: nodes ↔ m ∈ reach ++ nodes := by
    simp only [List.mem_append, List.mem_cons]
    constructor
    · rintro (met | rfl | waiting)
      exacts [.inl met, .inl old, .inr waiting]
    · rintro (met | waiting)
      exacts [.inl met, .inr (.inr waiting)]
  refine ⟨found.nodup, ?_, fun m member => found.walked m ((same m).mpr member), fun m member => ?_⟩
  · cases reach with
    | nil => cases old
    | cons head rest => exact found.first
  · obtain ⟨next, finished, inside⟩ := found.closed m member
    exact ⟨next, finished, fun y out => (same y).mp (inside out)⟩

theorem Found.visit {next : List ℕ} (found : Found blocks (n :: nodes) reach) (fresh : n ∉ reach)
    (finished : successors blocks n = some next) : Found blocks (next.reverse ++ nodes) (reach ++ [n]) := by
  have here := found.walked n (List.mem_append_right _ (.head _))
  refine ⟨found.nodup.append (List.nodup_singleton n) (List.disjoint_singleton.mpr fresh), ?_, fun m member => ?_,
    fun m member => ?_⟩
  · have first := found.first
    cases reach with
    | nil => exact first
    | cons head rest => exact first
  · simp only [List.mem_append, List.mem_singleton, List.mem_reverse] at member
    rcases member with (met | rfl) | out | waiting
    · exact found.walked m (List.mem_append_left _ met)
    · exact here
    · refine here.tail (show m ∈ (cfg blocks).successors n from ?_)
      rwa [successors_cfg, finished, Option.getD_some]
    · exact found.walked m (List.mem_append_right _ (.tail _ waiting))
  · rcases List.mem_append.mp member with met | new
    · obtain ⟨out, done, inside⟩ := found.closed m met
      refine ⟨out, done, fun y isOut => ?_⟩
      have waits := inside isOut
      simp only [List.mem_append, List.mem_cons, List.mem_reverse] at waits ⊢
      tauto
    · rw [List.mem_singleton.mp new]
      refine ⟨next, finished, fun y out => ?_⟩
      simp only [List.mem_append, List.mem_reverse]
      exact .inr (.inl out)

/-- The nodes that wait, and those that the blocks not met push. -/
def measure (blocks : List BasicBlockData) (nodes reach : List ℕ) : ℕ :=
  nodes.length + ∑ n ∈ (Finset.range blocks.length).filter (· ∉ reach), degree blocks n

theorem measure_visit {next : List ℕ} (nodes : List ℕ) (fresh : n ∉ reach) (finished : successors blocks n = some next) :
    measure blocks (next.reverse ++ nodes) (reach ++ [n]) < measure blocks (n :: nodes) reach := by
  obtain ⟨block, -, here, -⟩ := successors_eq_some finished
  have unmet : n ∈ (Finset.range blocks.length).filter (· ∉ reach) :=
    Finset.mem_filter.mpr ⟨Finset.mem_range.mpr (List.getElem?_eq_some_iff.mp here).1, fresh⟩
  have rest : (Finset.range blocks.length).filter (· ∉ reach ++ [n]) =
      ((Finset.range blocks.length).filter (· ∉ reach)).erase n := by
    ext m
    simp only [Finset.mem_filter, Finset.mem_erase, List.mem_append, List.mem_singleton, not_or]
    tauto
  have paid := Finset.add_sum_erase ((Finset.range blocks.length).filter (· ∉ reach)) (degree blocks) unmet
  have pushed : degree blocks n = next.length := by rw [degree, finished, Option.getD_some]
  simp only [measure, rest, List.length_append, List.length_reverse, List.length_cons]
  omega

/-- The walk meets what is reached, or a block that is a panic. -/
theorem walk_spec {fuel : ℕ} (found : Found blocks nodes reach) (enough : measure blocks nodes reach < fuel) :
    match walk blocks fuel nodes reach with
    | some kept => Found blocks [] kept
    | none => ∃ n, Reachable (cfg blocks).Edge 0 n ∧ successors blocks n = none := by
  induction fuel generalizing nodes reach with
  | zero => omega
  | succ fuel ih =>
    cases nodes with
    | nil => exact found
    | cons n nodes =>
      rw [walk]
      split_ifs with old
      · refine ih (found.skip old) ?_
        simp only [measure, List.length_cons] at enough ⊢
        omega
      · cases finished : successors blocks n with
        | none => exact ⟨n, found.walked n (List.mem_append_right _ (.head _)), finished⟩
        | some next =>
          have shrinks := measure_visit nodes old finished
          exact ih (found.visit old finished) (by omega)

theorem reachable_spec (blocks : List BasicBlockData) :
    match reachable blocks with
    | some kept => Found blocks [] kept
    | none => ¬ Finished blocks := by
  have begins : Found blocks [0] [] :=
    ⟨List.nodup_nil, rfl, fun n member => List.mem_singleton.mp member ▸ .refl, by simp⟩
  have enough : measure blocks [0] [] < 2 + ∑ n ∈ Finset.range blocks.length, degree blocks n := by
    simp only [measure, List.length_singleton, List.not_mem_nil, not_false_eq_true, Finset.filter_true]
    omega
  have walked := walk_spec begins enough
  rw [← reachable] at walked
  cases met : reachable blocks with
  | some kept => rwa [met] at walked
  | none =>
    rw [met] at walked
    obtain ⟨n, reached, panics⟩ := walked
    intro finished
    have some_next := finished n reached
    rw [panics] at some_next
    cases some_next

theorem Found.mem_iff (found : Found blocks [] kept) : n ∈ kept ↔ Reachable (cfg blocks).Edge 0 n := by
  constructor
  · exact fun member => found.walked n (List.mem_append_left _ member)
  · intro reached
    induction reached with
    | refl =>
      have first := found.first
      rw [List.append_nil] at first
      exact List.mem_of_head? first
    | @tail u w _ out ih =>
      obtain ⟨next, finished, inside⟩ := found.closed u ih
      have isNext : w ∈ (cfg blocks).successors u := out
      rw [successors_cfg, finished, Option.getD_some] at isNext
      simpa using inside isNext

/-- Where nothing is a panic the walk is the walk over the graph. -/
theorem walk_eq {fuel : ℕ} (walked : walk blocks (fuel + 1) nodes reach = some kept) :
    reachableFrom (cfg blocks) fuel nodes reach = kept := by
  induction fuel generalizing nodes reach with
  | zero =>
    cases nodes with
    | nil => exact Option.some.inj walked
    | cons n nodes =>
      rw [walk] at walked
      split_ifs at walked with old
      · cases walked
      · obtain ⟨next, -, walked⟩ := Option.bind_eq_some_iff.mp walked
        cases walked
  | succ fuel ih =>
    cases nodes with
    | nil => exact Option.some.inj walked
    | cons n nodes =>
      rw [walk] at walked
      rw [reachableFrom]
      split_ifs at walked ⊢ with old
      · exact ih walked
      · obtain ⟨next, finished, walked⟩ := Option.bind_eq_some_iff.mp walked
        rw [successors_cfg, finished, Option.getD_some]
        exact ih walked

theorem reachable_cfg (met : reachable blocks = some kept) : Ssa.reachable (cfg blocks) = kept := by
  have fuel : DomImpl.searchFuel (cfg blocks) + 1 = 2 + ∑ n ∈ Finset.range blocks.length, degree blocks n := by
    have degrees (n : ℕ) : ((cfg blocks).successors n).length = degree blocks n := by rw [successors_cfg, degree]
    have sums : ((List.range blocks.length).map (degree blocks)).sum = ∑ n ∈ Finset.range blocks.length, degree blocks n := rfl
    simp only [DomImpl.searchFuel, degrees]
    change 1 + ((List.range blocks.length).map (degree blocks)).sum + 1 = _
    omega
  rw [reachable, ← fuel] at met
  exact walk_eq met

/-- The conversion prunes in the same way. -/
theorem pruneUnreachableNodes_eq {f g : FunctionData} (pruned : pruneUnreachableNodes f = some g) :
    Ssa.pruneUnreachableNodes f = some g := by
  obtain ⟨kept, met, renumbered⟩ := Option.bind_eq_some_iff.mp pruned
  simp only [Ssa.pruneUnreachableNodes, reachable_cfg met]
  exact renumbered

end Walk

section Spec

open scoped Classical

variable {f g : FunctionData}

/-- The blocks that phi operands may still name. Where nothing is removed that is every number. -/
def Kept (f : FunctionData) (n : ℕ) : Prop :=
  Reachable (cfg f.blocks).Edge 0 n ∨ (cfg f.blocks).AllReachable ∧ f.blocks.length ≤ n

/-- A statement under the new numbers: phi operands are renamed, and those of removed blocks dropped. -/
noncomputable def renamedStatement (f : FunctionData) (rename : ℕ → ℕ) : Statement → Statement
  | .phi dest operands => .phi dest ((operands.filter fun operand => Kept f operand.1).map fun (pred, op) => (rename pred, op))
  | .assign dest sources => .assign dest sources
  | .callAssign info style rets args => .callAssign info style rets args
  | .nop => .nop

/-- A block under the new numbers. -/
noncomputable def renamedBlock (f : FunctionData) (rename : ℕ → ℕ) (block : BasicBlockData) : BasicBlockData :=
  ⟨block.statements.map (renamedStatement f rename), block.terminator.map (retarget rename)⟩

/-- A function is the reachable part of another under new numbers. -/
structure PrunedBy (rename : ℕ → ℕ) (f g : FunctionData) : Prop where
  rest : g = { f with blocks := g.blocks }
  start : rename 0 = 0
  injective : Set.InjOn rename {n | Kept f n}
  onto : ∀ i, i < g.blocks.length ↔ ∃ n, Reachable (cfg f.blocks).Edge 0 n ∧ rename n = i
  block : ∀ n, Reachable (cfg f.blocks).Edge 0 n →
    ∃ block, f.blocks[n]? = some block ∧ g.blocks[rename n]? = some (renamedBlock f rename block)

/-- The edges between the blocks that are kept are those there were. -/
theorem PrunedBy.edge_iff {rename : ℕ → ℕ} (pruned : PrunedBy rename f g) {u w : ℕ}
    (reachedU : Reachable (cfg f.blocks).Edge 0 u) (reachedW : Reachable (cfg f.blocks).Edge 0 w) :
    (cfg g.blocks).Edge (rename u) (rename w) ↔ (cfg f.blocks).Edge u w := by
  obtain ⟨block, here, there⟩ := pruned.block u reachedU
  have succs : (renamedBlock f rename block).successors = block.successors.map rename := by
    simp only [BasicBlockData.successors, renamedBlock]
    cases block.terminator with
    | none => rfl
    | some term => exact successors_retarget rename term
  simp only [ControlFlowGraph.Edge, mem_successors, here, there, Option.some.injEq, exists_eq_left', succs, List.mem_map]
  constructor
  · rintro ⟨y, out, same⟩
    have reachedY : Reachable (cfg f.blocks).Edge 0 y := reachedU.tail (mem_successors.mpr ⟨block, here, out⟩)
    exact pruned.injective (.inl reachedY) (.inl reachedW) same ▸ out
  · exact fun out => ⟨w, out, rfl⟩

theorem lt_of_finished (finished : Finished f.blocks) {n : ℕ} (reached : Reachable (cfg f.blocks).Edge 0 n) :
    n < f.blocks.length := by
  obtain ⟨next, some_next⟩ := Option.isSome_iff_exists.mp (finished n reached)
  obtain ⟨block, -, here, -⟩ := successors_eq_some some_next
  exact (List.getElem?_eq_some_iff.mp here).1

/-- Where every block is reached the numbers stay. -/
theorem prunedBy_id (finished : Finished f.blocks) (all : (cfg f.blocks).AllReachable) : PrunedBy id f f := by
  have keeps (n : ℕ) : Kept f n := by
    rcases lt_or_ge n f.blocks.length with inside | outside
    · exact .inl (all n inside)
    · exact .inr ⟨all, outside⟩
  have same_statement (st : Statement) : renamedStatement f id st = st := by
    cases st with
    | phi dest operands => simp [renamedStatement, keeps]
    | assign _ _ | callAssign _ _ _ _ | nop => rfl
  have same_block (block : BasicBlockData) : renamedBlock f id block = block := by
    obtain ⟨statements, terminator⟩ := block
    have same_statements : statements.map (renamedStatement f id) = statements :=
      (List.map_congr_left fun st _ => same_statement st).trans (List.map_id _)
    have same_terminator : terminator.map (retarget id) = terminator := by
      cases terminator with
      | none => rfl
      | some term => cases term <;> simp [retarget]
    simp only [renamedBlock, same_statements, same_terminator]
  refine ⟨rfl, rfl, Set.injOn_id _, fun i => ?_, fun n reached => ?_⟩
  · constructor
    · exact fun inside => ⟨i, all i inside, rfl⟩
    · rintro ⟨n, reached, rfl⟩
      exact lt_of_finished finished reached
  · have here := List.getElem?_eq_getElem (lt_of_finished finished reached)
    exact ⟨_, here, here.trans (congrArg some (same_block _).symm)⟩

/-- What is kept is renamed to its place in the order of the walk. -/
theorem renumber_eq {kept : List ℕ} (found : Found f.blocks [] kept) (some_missed : ¬ (cfg f.blocks).AllReachable)
    {n : ℕ} (member : n ∈ kept) : ∃ block, f.blocks[n]? = some block ∧
      renumber kept block = some (renamedBlock f kept.idxOf block) := by
  obtain ⟨next, finished, inside⟩ := found.closed n member
  obtain ⟨block, term, here, last, rfl⟩ := successors_eq_some finished
  have keeps (m : ℕ) : Kept f m ↔ m ∈ kept := by
    rw [found.mem_iff]
    exact or_iff_left fun outside => some_missed outside.1
  have statement (st : Statement) : renumberStatement kept st = renamedStatement f kept.idxOf st := by
    cases st with
    | phi dest operands => simp only [renumberStatement, renamedStatement, keeps]
    | assign _ _ | callAssign _ _ _ _ | nop => rfl
  have jump : renumberTerminator kept term = some (retarget kept.idxOf term) := by
    cases term with
    | ret args => rfl
    | goto targets =>
      exact if_pos fun target out => by simpa using inside out
  refine ⟨block, here, ?_⟩
  simp only [renumber, renamedBlock, last, jump, funext statement, Option.bind_eq_bind, Option.bind_some, Option.map_some]

theorem prunedBy_idxOf {kept : List ℕ} (found : Found f.blocks [] kept) (some_missed : ¬ (cfg f.blocks).AllReachable) :
    ∃ blocks, (kept.mapM fun old => do renumber kept (← f.blocks[old]?)) = some blocks ∧
      PrunedBy kept.idxOf f { f with blocks } := by
  have each (old : ℕ) (member : old ∈ kept) : (do renumber kept (← f.blocks[old]?)).isSome := by
    obtain ⟨block, here, renumbered⟩ := renumber_eq found some_missed member
    simp only [here, Option.bind_eq_bind, Option.bind_some, renumbered, Option.isSome_some]
  obtain ⟨blocks, mapped, length, same⟩ := exists_mapM _ kept each
  refine ⟨blocks, mapped, rfl, ?_, fun n keptN m keptM eq => ?_, fun i => ?_, fun n reached => ?_⟩
  · have first := found.first
    cases kept with
    | nil => cases first
    | cons head rest =>
      cases first
      exact List.idxOf_cons_self
  · have member : n ∈ kept := found.mem_iff.mpr (keptN.resolve_right fun outside => some_missed outside.1)
    exact (List.idxOf_inj member).mp eq
  · dsimp only
    rw [length]
    constructor
    · intro inside
      refine ⟨kept[i], found.mem_iff.mp (List.getElem_mem inside), found.nodup.idxOf_getElem i inside⟩
    · rintro ⟨n, reached, rfl⟩
      exact List.idxOf_lt_length_iff.mpr (found.mem_iff.mpr reached)
  · obtain ⟨block, here, renumbered⟩ := renumber_eq found some_missed (found.mem_iff.mpr reached)
    refine ⟨block, here, ?_⟩
    dsimp only
    rw [same, List.getElem?_idxOf (found.mem_iff.mpr reached)]
    simp only [Option.bind_some, here, Option.bind_eq_bind, renumbered]

/-- The walk meets all blocks exactly when all are reached. -/
theorem length_eq_iff {kept : List ℕ} (found : Found f.blocks [] kept) :
    kept.length = f.blocks.length ↔ (cfg f.blocks).AllReachable := by
  have inside : kept ⊆ List.range f.blocks.length := fun n member => by
    obtain ⟨next, finished, -⟩ := found.closed n member
    obtain ⟨block, -, here, -⟩ := successors_eq_some finished
    exact List.mem_range.mpr (List.getElem?_eq_some_iff.mp here).1
  have fits := List.subperm_of_subset found.nodup inside
  constructor
  · intro same n node
    have perm := fits.perm_of_length_le (by rw [List.length_range, same])
    exact found.mem_iff.mp (perm.mem_iff.mpr (List.mem_range.mpr node))
  · intro all
    refine le_antisymm (by simpa using fits.length_le) ?_
    have others : List.range f.blocks.length ⊆ kept := fun n node => found.mem_iff.mpr (all n (List.mem_range.mp node))
    simpa using (List.subperm_of_subset List.nodup_range others).length_le

/-- Pruning gives the reachable part of a function under new numbers. It is a panic exactly where a block
that is reached is not there or not finished. -/
theorem pruneUnreachableNodes_spec (f : FunctionData) :
    match pruneUnreachableNodes f with
    | some g => Finished f.blocks ∧ ∃ rename, PrunedBy rename f g ∧
        ∀ u w, Reachable (cfg f.blocks).Edge 0 u → Reachable (cfg f.blocks).Edge 0 w →
          ((cfg g.blocks).Edge (rename u) (rename w) ↔ (cfg f.blocks).Edge u w)
    | none => ¬ Finished f.blocks := by
  have walked := reachable_spec f.blocks
  cases met : reachable f.blocks with
  | none =>
    rw [met] at walked
    simp only [pruneUnreachableNodes, met, Option.bind_eq_bind, Option.bind_none]
    exact walked
  | some kept =>
    rw [met] at walked
    have found : Found f.blocks [] kept := walked
    have finished : Finished f.blocks := fun n reached => by
      obtain ⟨next, some_next, -⟩ := found.closed n (found.mem_iff.mpr reached)
      rw [some_next]
      rfl
    by_cases all : kept.length = f.blocks.length
    · simp only [pruneUnreachableNodes, met, Option.bind_eq_bind, Option.bind_some, if_pos all]
      have pruned := prunedBy_id finished ((length_eq_iff found).mp all)
      exact ⟨finished, id, pruned, fun u w reachedU reachedW => pruned.edge_iff reachedU reachedW⟩
    · obtain ⟨blocks, mapped, pruned⟩ := prunedBy_idxOf found (mt (length_eq_iff found).mpr all)
      simp only [pruneUnreachableNodes, met, Option.bind_eq_bind, Option.bind_some, if_neg all]
      simp only [Option.bind_eq_bind] at mapped
      rw [mapped]
      exact ⟨finished, kept.idxOf, pruned, fun u w reachedU reachedW => pruned.edge_iff reachedU reachedW⟩

end Spec

end Pruning

end Ctadl.Ssa
