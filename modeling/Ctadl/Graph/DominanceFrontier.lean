import Ctadl.Graph.Frontier

/-! # What a frontier holds

On the tree of immediate dominators, the frontier of a node holds the nodes where its dominance ends: those it does not
strictly dominate although it dominates a predecessor (`mem_frontier_iff`). One pair is missed. The start is its own
parent in the table, so an edge back to the start is taken for a tree edge, and the start is left out of its own frontier.
-/

namespace Ctadl.Graph

open Function Flowgraph

variable {graph : ControlFlowGraph} {tree : DominatorTree} {u x y z : ℕ}

/-- The dominance of `x` ends at `y`: it dominates a predecessor of `y` and does not strictly dominate `y`. -/
def ControlFlowGraph.InFrontier (graph : ControlFlowGraph) (x y : ℕ) : Prop :=
  (∃ u, graph.Edge u y ∧ Dominates graph.Edge graph.startNode x u) ∧
    ¬ (x ≠ y ∧ Dominates graph.Edge graph.startNode x y)

namespace DominanceFrontier

section Of

variable (wellFormed : graph.WellFormed) (reachable : graph.AllReachable) (of : DominatorTree.Of graph tree)
  (right : graph.Immediate tree)
include wellFormed reachable of right

/-- In a tree of immediate dominators the nodes above a node are its dominators. -/
theorem above_iff_dominates (node : y < graph.numNodes) :
    Above tree.idom graph.startNode x y ↔ Dominates graph.Edge graph.startNode x y := by
  refine ⟨fun above => above.dominates of.table (reachable y node), fun dominates => ?_⟩
  induction bound : tree.dfnum y using Nat.strong_induction_on generalizing y with
  | _ k ih =>
    by_cases same : x = y
    · exact same ▸ .refl
    · have inner : y ≠ graph.startNode := by
        rintro rfl
        exact dominates (.root (Ne.symm same))
      have earlier := of.table.rank_lt (reachable y node) inner
      have parent := wellFormed.lt_of_reachable (of.table.reachable (reachable y node))
      exact .up inner (ih _ (by omega) parent ((right y node inner).above x same dominates) rfl)

/-- Nothing a node strictly dominates is in its frontier. -/
theorem not_strict_of_mem (node : x < graph.numNodes) (inside : y ∈ (new graph tree).frontier x) :
    ¬ (x ≠ y ∧ Dominates graph.Edge graph.startNode x y) := by
  rintro ⟨other, dominates⟩
  induction bound : graph.numNodes - tree.dfnum x using Nat.strong_induction_on generalizing x with
  | _ k ih =>
    obtain ⟨w, lower, wNode, enters⟩ := exists_edge_of_mem of reachable node inside
    have yNode := (wellFormed.successors_lt enters).2
    have inner : y ≠ graph.startNode := by
      rintro rfl
      exact dominates (.root (Ne.symm other))
    have immediate := right y yNode inner
    have parentNode := wellFormed.lt_of_reachable (of.table.reachable (reachable y yNode))
    have below : Above tree.idom graph.startNode x (tree.idom y) :=
      (above_iff_dominates wellFormed reachable of right parentNode).mpr (immediate.above x other dominates)
    rcases (mem_frontier of reachable node).mp inside with ⟨out, away⟩ | ⟨c, child, passed, away⟩
    · -- the edge starts at the node, so the parent of its end dominates the node and is the node
      have upward := (above_iff_dominates wellFormed reachable of right node).mpr
        (immediate.dominates.of_edge out (Ne.symm immediate.other))
      exact away (below.antisymm of.table upward (reachable x node)).symm
    · -- the edge starts below a child, which the end of the edge is not below, by induction
      obtain ⟨cNode, cInner, rfl⟩ := DominatorTree.mem_successors.mp child
      have cNode : c < graph.numNodes := of.numNodes ▸ cNode
      have cInner : c ≠ graph.startNode := of.startNode ▸ cInner
      have later := of.table.rank_lt (reachable c cNode) cInner
      have cLt := of.num_lt c cNode
      have apart : ¬ Above tree.idom graph.startNode c (tree.idom y) := by
        intro above
        have strict := (above.dominates of.table (reachable _ parentNode)).trans immediate.dominates
        by_cases same : c = y
        · exact Above.not_parent of.table inner (reachable y yNode) (same ▸ above)
        · exact ih _ (by omega) cNode passed same strict rfl
      obtain ⟨u, cAbove, uNode, out⟩ := exists_edge_of_mem of reachable cNode passed
      have parent := (above_iff_dominates wellFormed reachable of right uNode).mpr
        (immediate.dominates.of_edge out (Ne.symm immediate.other))
      rcases cAbove.total parent with above | above
      · exact apart above
      · rcases above.eq_or_parent with same | ⟨-, upward⟩
        · exact apart (same ▸ .refl)
        · exact away (below.antisymm of.table upward (reachable _ node)).symm

/-- The frontier of a node holds what it should, but for the start in the frontier of the start. -/
theorem mem_frontier_iff (node : x < graph.numNodes) :
    y ∈ (new graph tree).frontier x ↔ graph.InFrontier x y ∧ ¬ (x = graph.startNode ∧ y = graph.startNode) := by
  constructor
  · intro inside
    obtain ⟨u, above, uNode, out⟩ := exists_edge_of_mem of reachable node inside
    refine ⟨⟨⟨u, out, above.dominates of.table (reachable u uNode)⟩,
      not_strict_of_mem wellFormed reachable of right node inside⟩, ?_⟩
    rintro ⟨rfl, rfl⟩
    rcases (mem_frontier of reachable node).mp inside with ⟨-, away⟩ | ⟨-, -, -, away⟩
    · exact away of.table.root
    · exact away of.table.root
  · rintro ⟨⟨⟨u, out, dominates⟩, notStrict⟩, missed⟩
    obtain ⟨uNode, yNode⟩ := wellFormed.successors_lt out
    have above := (above_iff_dominates wellFormed reachable of right uNode).mpr dominates
    apply (mem_frontier_or_above of reachable wellFormed out above).resolve_right
    intro higher
    by_cases atStart : y = graph.startNode
    · subst atStart
      exact missed ⟨(of.table.root ▸ higher).at_start, rfl⟩
    · have immediate := right y yNode atStart
      have parentNode := of.table.reachable (reachable y yNode)
      refine notStrict ⟨?_, (higher.dominates of.table parentNode).trans immediate.dominates⟩
      rintro rfl
      exact Above.not_parent of.table atStart (reachable x yNode) higher

/-- The frontiers are right exactly on a graph in which no edge enters the start. -/
theorem exact_iff_start_unentered :
    (∀ x < graph.numNodes, ∀ y < graph.numNodes, y ∈ (new graph tree).frontier x ↔ graph.InFrontier x y) ↔
      ∀ u, ¬ graph.Edge u graph.startNode := by
  constructor
  · intro correct u enters
    have start := wellFormed.start_lt
    have expected : graph.InFrontier graph.startNode graph.startNode :=
      ⟨⟨u, enters, .of_start u⟩, fun strict => strict.1 rfl⟩
    have inside := (correct _ start _ start).mpr expected
    exact ((mem_frontier_iff wellFormed reachable of right start).mp inside).2 ⟨rfl, rfl⟩
  · intro unentered x node y _
    rw [mem_frontier_iff wellFormed reachable of right node, and_iff_left_iff_imp]
    rintro ⟨⟨u, out, -⟩, -⟩ ⟨-, rfl⟩
    exact unentered u out

end Of

section LoopBack

/-- The start and one node that leads back to it. -/
def loopBack : ControlFlowGraph := .ofEdges 2 0 [(0, 1), (1, 0)]

theorem loopBack_wellFormed : loopBack.WellFormed := ControlFlowGraph.ofEdges_wellFormed (by decide) (by decide)

theorem loopBack_reachable : loopBack.AllReachable := by
  intro n node
  have cases : n = 0 ∨ n = 1 := by
    have less : n < 2 := node
    omega
  rcases cases with rfl | rfl
  · exact .refl
  · exact .tail .refl (ControlFlowGraph.ofEdges_edge.mpr (by decide))

/-- The computed tree is right. -/
theorem loopBack_tree : ∃ tree, DominatorTree.new loopBack inOrder = some tree ∧ DominatorTree.Of loopBack tree ∧
    loopBack.Immediate tree := by
  obtain ⟨tree, returned, of⟩ := DominatorTree.new_spec loopBack_wellFormed loopBack_reachable rfl inOrder
  refine ⟨tree, returned, of, fun n node inner => ?_⟩
  obtain rfl : n = 1 := by
    have less : n < 2 := node
    have positive : n ≠ 0 := inner
    omega
  have parent : (DominatorTree.new loopBack inOrder).map (·.idom 1) = some 0 := by decide
  have isStart : tree.idom 1 = 0 := by simpa [returned] using parent
  rw [isStart]
  refine ⟨by decide, .of_start 1, fun c other dominates => ?_⟩
  have start : c = 0 := by
    by_contra apart
    exact dominates ((Avoids.root (Ne.symm apart)).step (ControlFlowGraph.ofEdges_edge.mpr (by decide)) (Ne.symm other))
  rw [start]
  exact .refl 0

/-- The start dominates node 1, which leads back to it, but is not in its own frontier. -/
theorem loopBack_start_missed : loopBack.WellFormed ∧ loopBack.AllReachable ∧
    ∃ tree, DominatorTree.new loopBack inOrder = some tree ∧ loopBack.Immediate tree ∧
      0 ∉ (new loopBack tree).frontier 0 ∧ loopBack.InFrontier 0 0 := by
  obtain ⟨tree, returned, of, right⟩ := loopBack_tree
  have entered : loopBack.Edge 1 0 := ControlFlowGraph.ofEdges_edge.mpr (by decide)
  refine ⟨loopBack_wellFormed, loopBack_reachable, tree, returned, right, fun inside => ?_,
    ⟨1, entered, .of_start 1⟩, fun strict => strict.1 rfl⟩
  have missed := (mem_frontier_iff loopBack_wellFormed loopBack_reachable of right (by decide)).mp inside
  exact missed.2 ⟨rfl, rfl⟩

theorem loopBack_exact_iff : ∃ tree, DominatorTree.new loopBack inOrder = some tree ∧
    ((∀ x < loopBack.numNodes, ∀ y < loopBack.numNodes,
        y ∈ (new loopBack tree).frontier x ↔ loopBack.InFrontier x y) ↔ ∀ u, ¬ loopBack.Edge u loopBack.startNode) := by
  obtain ⟨tree, returned, of, right⟩ := loopBack_tree
  exact ⟨tree, returned, exact_iff_start_unentered loopBack_wellFormed loopBack_reachable of right⟩

end LoopBack

end DominanceFrontier

end Ctadl.Graph
