import Ctadl.Graph.ImmediateDominators

/-! # The frontier closes the dominator tree's regions

The frontier of a node is filled when the frontiers of its children are, as the nodes are visited by
descending depth-first number and a parent is numbered before its children. What it contains is
therefore the fixed point of its two contributions (`mem_frontier`), and an edge that starts below a
node ends in its frontier unless it ends below it too (`mem_frontier_or_above`). The start is its own
parent in the table, which is why an edge back to the start puts it in every frontier but its own.
-/

namespace Ctadl.Graph

open Function Flowgraph

variable {graph : ControlFlowGraph} {tree : DominatorTree} {frontier : ℕ → List ℕ} {u w x y z : ℕ} {ys : List ℕ}

@[simp]
theorem mem_bitInsert {set : List ℕ} : x ∈ bitInsert y set ↔ x = y ∨ x ∈ set := by
  unfold bitInsert
  split_ifs with old
  · constructor
    · exact .inr
    · rintro (rfl | kept)
      exacts [old, kept]
  · exact List.mem_orderedInsert _

theorem DominatorTree.mem_successors :
    z ∈ tree.successors x ↔ z < tree.numNodes ∧ z ≠ tree.startNode ∧ tree.idom z = x := by
  simp [DominatorTree.successors]

namespace DominanceFrontier

theorem contribute_of_ne (other : z ≠ x) : contribute tree x frontier ys z = frontier z := by
  unfold contribute
  induction ys generalizing frontier with
  | nil => rfl
  | cons y ys ih =>
    rw [List.foldl_cons, ih]
    split_ifs
    · exact update_of_ne other _ _
    · rfl

theorem mem_contribute : y ∈ contribute tree x frontier ys x ↔ y ∈ frontier x ∨ (y ∈ ys ∧ tree.idom y ≠ x) := by
  unfold contribute
  induction ys generalizing frontier with
  | nil => simp
  | cons b ys ih =>
    rw [List.foldl_cons, ih]
    split_ifs with away
    · simp only [update_self, mem_bitInsert, List.mem_cons]
      constructor
      · rintro ((rfl | old) | ⟨rest, far⟩)
        exacts [.inr ⟨.inl rfl, away⟩, .inl old, .inr ⟨.inr rest, far⟩]
      · rintro (old | ⟨rfl | rest, far⟩)
        exacts [.inl (.inr old), .inl (.inl rfl), .inr ⟨rest, far⟩]
    · simp only [List.mem_cons]
      refine or_congr_right (and_congr_left fun far => ⟨.inr, ?_⟩)
      rintro (rfl | rest)
      exacts [absurd far away, rest]

/-- A child passes up its frontier as it stood, as long as it is not the node itself. -/
private theorem mem_passUp {zs : List ℕ} (other : ∀ z ∈ zs, z ≠ x) :
    y ∈ zs.foldl (fun frontier z => contribute tree x frontier (frontier z)) frontier x ↔
      y ∈ frontier x ∨ ∃ z ∈ zs, y ∈ frontier z ∧ tree.idom y ≠ x := by
  induction zs generalizing frontier with
  | nil => simp
  | cons z zs ih =>
    have rest : ∀ c ∈ zs, contribute tree x frontier (frontier z) c = frontier c := fun c kept =>
      contribute_of_ne (other c (.tail _ kept))
    rw [List.foldl_cons, ih fun c kept => other c (.tail _ kept), mem_contribute, or_assoc]
    refine or_congr_right ?_
    simp only [List.mem_cons, exists_eq_or_imp]
    refine or_congr_right (exists_congr fun c => and_congr_right fun kept => ?_)
    rw [rest c kept]

theorem collect_of_ne (other : z ≠ x) : collect graph tree frontier x z = frontier z := by
  unfold collect
  have passUp : ∀ (zs : List ℕ) (frontier : ℕ → List ℕ),
      zs.foldl (fun frontier z => contribute tree x frontier (frontier z)) frontier z = frontier z := by
    intro zs
    induction zs with
    | nil => exact fun _ => rfl
    | cons c zs ih => exact fun frontier => (ih _).trans (contribute_of_ne other)
  rw [passUp, contribute_of_ne other]

theorem mem_collect (proper : ∀ z ∈ tree.successors x, z ≠ x) (empty : frontier x = []) :
    y ∈ collect graph tree frontier x x ↔
      (y ∈ graph.successors x ∧ tree.idom y ≠ x) ∨
        ∃ z ∈ tree.successors x, y ∈ frontier z ∧ tree.idom y ≠ x := by
  have children : ∀ z ∈ tree.successors x, contribute tree x frontier (graph.successors x) z = frontier z :=
    fun z child => contribute_of_ne (proper z child)
  rw [collect, mem_passUp proper, mem_contribute, empty]
  simp only [List.not_mem_nil, false_or]
  refine or_congr_right (exists_congr fun z => and_congr_right fun child => ?_)
  rw [children z child]

/-- Visiting nodes of which no child comes later leaves each with the fixed point of its frontier. -/
private theorem mem_foldl_collect {nodes : List ℕ} (nodup : nodes.Nodup) (empty : ∀ x ∈ nodes, frontier x = [])
    (order : nodes.Pairwise fun x later => later ∉ tree.successors x)
    (proper : ∀ x ∈ nodes, ∀ z ∈ tree.successors x, z ≠ x) :
    (∀ z ∉ nodes, nodes.foldl (collect graph tree) frontier z = frontier z) ∧
      ∀ x ∈ nodes, ∀ y, y ∈ nodes.foldl (collect graph tree) frontier x ↔
        (y ∈ graph.successors x ∧ tree.idom y ≠ x) ∨
          ∃ z ∈ tree.successors x, y ∈ nodes.foldl (collect graph tree) frontier z ∧ tree.idom y ≠ x := by
  induction nodes generalizing frontier with
  | nil => exact ⟨fun _ _ => rfl, by simp⟩
  | cons a nodes ih =>
    obtain ⟨fresh, nodup⟩ := List.nodup_cons.mp nodup
    obtain ⟨noChild, order⟩ := List.pairwise_cons.mp order
    have ne : ∀ {x}, x ∈ nodes → x ≠ a := by
      rintro x kept rfl
      exact fresh kept
    obtain ⟨untouched, fixed⟩ := @ih (collect graph tree frontier a) nodup
      (fun x kept => (collect_of_ne (ne kept)).trans (empty x (.tail _ kept))) order
      fun x kept => proper x (.tail _ kept)
    rw [List.foldl_cons]
    constructor
    · intro z out
      obtain ⟨other, off⟩ := not_or.mp fun mem => out (List.mem_cons.mpr mem)
      rw [untouched z off, collect_of_ne other]
    · intro x mem y
      rcases List.mem_cons.mp mem with rfl | kept
      · have children : ∀ z ∈ tree.successors x,
            nodes.foldl (collect graph tree) (collect graph tree frontier x) z = frontier z := by
          intro z child
          rw [untouched z fun kept => noChild z kept child, collect_of_ne (proper x (.head _) z child)]
        rw [untouched x fresh, mem_collect (proper x (.head _)) (empty x (.head _))]
        refine or_congr_right (exists_congr fun z => and_congr_right fun child => ?_)
        rw [children z child]
      · exact fixed x kept y

theorem foldl_collect_of_notMem {nodes : List ℕ} (off : z ∉ nodes) :
    nodes.foldl (collect graph tree) frontier z = frontier z := by
  induction nodes generalizing frontier with
  | nil => rfl
  | cons x nodes ih =>
    obtain ⟨other, off⟩ := not_or.mp fun member => off (List.mem_cons.mpr member)
    rw [List.foldl_cons, ih off, collect_of_ne other]

/-- Only nodes have a frontier. -/
theorem lt_of_mem (inside : y ∈ (new graph tree).frontier x) : x < tree.numNodes := by
  by_contra off
  have visited := (List.perm_insertionSort (fun n m => tree.dfnum m ≤ tree.dfnum n) (List.range tree.numNodes)).mem_iff (a := x)
  have notVisited : x ∉ tree.iterPostorder := fun member => off (List.mem_range.mp (visited.mp member))
  have empty : (new graph tree).frontier x = [] := foldl_collect_of_notMem notVisited
  simp [empty] at inside

section Of

variable (of : DominatorTree.Of graph tree) (reachable : graph.AllReachable)
include of reachable

/-- A child is numbered after its parent. -/
private theorem num_lt_of_child (child : z ∈ tree.successors x) : tree.dfnum x < tree.dfnum z := by
  obtain ⟨node, inner, rfl⟩ := DominatorTree.mem_successors.mp child
  exact of.table.rank_lt (reachable z (of.numNodes ▸ node)) (of.startNode ▸ inner)

/-- The frontier of a node: its successors and its children's frontiers, less the node's children. -/
theorem mem_frontier (node : x < graph.numNodes) :
    y ∈ (new graph tree).frontier x ↔
      (graph.Edge x y ∧ tree.idom y ≠ x) ∨
        ∃ z ∈ tree.successors x, y ∈ (new graph tree).frontier z ∧ tree.idom y ≠ x := by
  have perm := List.perm_insertionSort (fun n m => tree.dfnum m ≤ tree.dfnum n) (List.range tree.numNodes)
  have sorted : tree.iterPostorder.Pairwise fun n m => tree.dfnum m ≤ tree.dfnum n := by
    have total : Std.Total fun n m => tree.dfnum m ≤ tree.dfnum n := ⟨fun _ _ => le_total _ _⟩
    have trans : IsTrans ℕ fun n m => tree.dfnum m ≤ tree.dfnum n := ⟨fun _ _ _ first second => second.trans first⟩
    exact List.pairwise_insertionSort _ _
  refine (mem_foldl_collect (perm.nodup_iff.mpr List.nodup_range) (fun _ _ => rfl) ?_ ?_).2 x ?_ y
  · refine sorted.imp fun {n m} le child => ?_
    exact absurd (num_lt_of_child of reachable child) (not_lt.mpr le)
  · rintro n - z child rfl
    exact lt_irrefl _ (num_lt_of_child of reachable child)
  · exact perm.mem_iff.mpr (List.mem_range.mpr (of.numNodes ▸ node))

/-- An edge leaves the region below `z` only into the frontier of `z`. -/
theorem mem_frontier_or_above (wellFormed : graph.WellFormed) (out : graph.Edge u w) (above : Above tree.idom graph.startNode z u) :
    w ∈ (new graph tree).frontier z ∨ Above tree.idom graph.startNode z (tree.idom w) := by
  have uReached := reachable u (wellFormed.successors_lt out).1
  -- from `u` upwards: either the edge ends below the node or it is passed up to the parent
  have atSource : w ∈ (new graph tree).frontier u ∨ Above tree.idom graph.startNode u (tree.idom w) := by
    by_cases child : tree.idom w = u
    · exact .inr (child ▸ .refl)
    · exact .inl ((mem_frontier of reachable (wellFormed.lt_of_reachable uReached)).mpr (.inl ⟨out, child⟩))
  clear out
  induction above with
  | refl => exact atSource
  | @up n inner _ ih =>
    refine ih (of.table.reachable uReached) ?_
    rcases atSource with inside | below
    · by_cases child : tree.idom w = tree.idom n
      · exact .inr (child ▸ .refl)
      · have node := wellFormed.lt_of_reachable uReached
        have isChild : n ∈ tree.successors (tree.idom n) :=
          DominatorTree.mem_successors.mpr ⟨of.numNodes ▸ node, of.startNode ▸ inner, rfl⟩
        exact .inl ((mem_frontier of reachable (wellFormed.lt_of_reachable (of.table.reachable uReached))).mpr
          (.inr ⟨n, isChild, inside, child⟩))
    · exact .inr (below.trans (.up inner .refl))

/-- What is in a frontier is entered from below the node. -/
theorem exists_edge_of_mem (node : x < graph.numNodes) (inside : y ∈ (new graph tree).frontier x) :
    ∃ u, Above tree.idom graph.startNode x u ∧ u < graph.numNodes ∧ graph.Edge u y := by
  induction bound : graph.numNodes - tree.dfnum x using Nat.strong_induction_on generalizing x with
  | _ k ih =>
    rcases (mem_frontier of reachable node).mp inside with ⟨out, -⟩ | ⟨z, child, passed, -⟩
    · exact ⟨x, .refl, node, out⟩
    · obtain ⟨zNode, inner, rfl⟩ := DominatorTree.mem_successors.mp child
      have later := num_lt_of_child of reachable child
      have zLt := of.num_lt z (of.numNodes ▸ zNode)
      obtain ⟨u, above, uNode, out⟩ := ih _ (by omega) (of.numNodes ▸ zNode) passed rfl
      exact ⟨u, above.trans (.up (of.startNode ▸ inner) .refl), uNode, out⟩

/-- What is in a frontier is downstream of the node. -/
theorem downstream_of_mem (node : x < graph.numNodes) (inside : y ∈ (new graph tree).frontier x) :
    Relation.TransGen graph.Edge x y := by
  obtain ⟨u, above, uNode, out⟩ := exists_edge_of_mem of reachable node inside
  have leads := (above.dominates of.table (reachable u uNode)).leads (reachable u uNode)
  exact Relation.TransGen.tail' leads out

/-- Trees that agree have the same frontiers. -/
theorem mem_frontier_of_agree {tree' : DominatorTree} (of' : DominatorTree.Of graph tree')
    (wellFormed : graph.WellFormed) (agree : DominatorTree.Agree graph tree tree') (node : x < graph.numNodes)
    (inside : y ∈ (new graph tree).frontier x) : y ∈ (new graph tree').frontier x := by
  induction bound : graph.numNodes - tree.dfnum x using Nat.strong_induction_on generalizing x y with
  | _ k ih =>
    rw [mem_frontier of' reachable node]
    rcases (mem_frontier of reachable node).mp inside with ⟨out, away⟩ | ⟨z, child, passed, away⟩
    · refine .inl ⟨out, ?_⟩
      rwa [← agree.idom y (wellFormed.successors_lt out).2]
    · have later := num_lt_of_child of reachable child
      obtain ⟨zNode, inner, rfl⟩ := DominatorTree.mem_successors.mp child
      have zLt := of.num_lt z (of.numNodes ▸ zNode)
      obtain ⟨u, -, -, out⟩ := exists_edge_of_mem of reachable (of.numNodes ▸ zNode) passed
      have isChild : z ∈ tree'.successors (tree.idom z) := by
        refine DominatorTree.mem_successors.mpr ⟨?_, ?_, (agree.idom z (of.numNodes ▸ zNode)).symm⟩
        · exact of'.numNodes ▸ of.numNodes ▸ zNode
        · exact of'.startNode ▸ of.startNode ▸ inner
      refine .inr ⟨z, isChild, ih _ (by omega) (of.numNodes ▸ zNode) passed rfl, ?_⟩
      rwa [← agree.idom y (wellFormed.successors_lt out).2]

end Of

end DominanceFrontier

end Ctadl.Graph
