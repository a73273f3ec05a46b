import Ctadl.Flowgraph.SpanningTree

/-! # Immediate dominators and semidominators

The strict dominators of a node are all above it in a depth-first tree, and above its semidominator
(`Dominates.of_semiPath`). So where no node on the way down from the semidominator has a smaller one,
the semidominator is the immediate dominator; and where a node `y` on that way has the smallest one,
the two nodes have the same strict dominators (`DfsTree.strict_iff_of_defers`). These are the two
clauses of the dominator theorem, stated of the graph and its tree alone.
-/

namespace Ctadl.Flowgraph

open Relation

variable {N : Type*} {edge : N → N → Prop} {node : N → Prop} {num : N → ℕ} {parent : N → Option N}
  {start a b c d n s t u x y z : N}

/-- `d` is the strict dominator of `n` that all its other strict dominators dominate. -/
structure IsImmediateDominator (edge : N → N → Prop) (start d n : N) : Prop where
  other : d ≠ n
  dominates : Dominates edge start d n
  above : ∀ c, c ≠ n → Dominates edge start c n → Dominates edge start c d

/-- Nodes with the same strict dominators have the same immediate dominator. -/
theorem isImmediateDominator_congr
    (same : ∀ c, (c ≠ n ∧ Dominates edge start c n) ↔ c ≠ y ∧ Dominates edge start c y) :
    IsImmediateDominator edge start d n ↔ IsImmediateDominator edge start d y := by
  constructor
  · rintro ⟨other, dominates, above⟩
    obtain ⟨other', dominates'⟩ := (same d).mp ⟨other, dominates⟩
    refine ⟨other', dominates', fun c ne dom => ?_⟩
    obtain ⟨ne', dom'⟩ := (same c).mpr ⟨ne, dom⟩
    exact above c ne' dom'
  · rintro ⟨other, dominates, above⟩
    obtain ⟨other', dominates'⟩ := (same d).mpr ⟨other, dominates⟩
    refine ⟨other', dominates', fun c ne dom => ?_⟩
    obtain ⟨ne', dom'⟩ := (same c).mp ⟨ne, dom⟩
    exact above c ne' dom'

/-- The first node in the numbering from which a semipath leads to `v`. -/
structure IsSemidominator (edge : N → N → Prop) (num : N → ℕ) (v s : N) : Prop where
  path : SemiPath edge num s v
  least : ∀ x, SemiPath edge num x v → num s ≤ num x

/-- No semipath to a node on the way down from `t` to `v` starts before `t`. -/
def Low (edge : N → N → Prop) (num : N → ℕ) (parent : N → Option N) (t v : N) : Prop :=
  ∀ u x, Between parent t v u → SemiPath edge num x u → num t ≤ num x

/-- `y`, on the way down from the semidominator of `n` to `n`, has a smaller semidominator than `n`,
and none on that way has a smaller one yet. -/
def Defers (edge : N → N → Prop) (num : N → ℕ) (parent : N → Option N) (n y : N) : Prop :=
  ∃ s t, IsSemidominator edge num n s ∧ IsSemidominator edge num y t ∧ Between parent s n y ∧
    num t < num s ∧ ∀ u x, Between parent s n u → SemiPath edge num x u → num t ≤ num x

/-- A proper ancestor `s` of `v` with a semipath to `v`, and no earlier one below it. -/
structure Undeferred (edge : N → N → Prop) (num : N → ℕ) (parent : N → Option N) (v s : N) : Prop where
  path : SemiPath edge num s v
  anc : Anc parent s v
  other : s ≠ v
  low : Low edge num parent s v

/-- A walk that avoids `x` so far still does after a semipath to a node numbered after `x`. -/
theorem Avoids.semiPath (avoids : Avoids edge start x s) (path : SemiPath edge num s n)
    (lt : num x < num n) : Avoids edge start x n := by
  have later : ∀ {m}, num n ≤ num m → m ≠ x := by
    rintro m le rfl
    omega
  have along : ∀ {u}, Climb edge num (num n + 1) s u → Avoids edge start x u := by
    intro u climb
    induction climb with
    | single step =>
      apply avoids.step step.1
      apply later
      exact Nat.le_of_succ_le step.2
    | tail _ step ih =>
      apply ih.step step.1
      apply later
      exact Nat.le_of_succ_le step.2
  rcases path with out | ⟨u, climb, out⟩
  · exact avoids.step out (later le_rfl)
  · exact (along climb).step out (later le_rfl)

namespace DfsTree

variable (tree : DfsTree edge start node num parent)
  (edges : ∀ {n p}, parent n = some p → edge p n)
include tree

theorem semiPath_node (path : SemiPath edge num s n) : node s := by
  rcases path with out | ⟨u, climb, -⟩
  · exact (tree.edge_node out).1
  · obtain ⟨m, step, -⟩ := TransGen.head'_iff.mp climb
    exact (tree.edge_node step.1).1

theorem semidominator_unique (first : IsSemidominator edge num n s) (second : IsSemidominator edge num n t) :
    s = t := by
  apply tree.num_inj (tree.semiPath_node first.path) (tree.semiPath_node second.path)
  exact le_antisymm (first.least t second.path) (second.least s first.path)

theorem not_defers_of_undeferred (undeferred : Undeferred edge num parent n s) : ¬ Defers edge num parent n y := by
  rintro ⟨s', t, semi, ySemi, between, lt, -⟩
  have self : IsSemidominator edge num n s :=
    ⟨undeferred.path, fun x => undeferred.low n x ⟨undeferred.anc, Ne.symm undeferred.other, .refl n⟩⟩
  obtain rfl := tree.semidominator_unique self semi
  have le := undeferred.low y t between ySemi.path
  omega

/-- Every node a walk leads to is below the start. -/
theorem anc_start (reached : Reachable edge start n) : Anc parent start n := by
  induction reached with
  | refl => exact .refl start
  | @tail u w _ out ih => exact tree.anc_of_edge ih out (tree.start_le (tree.edge_node out).2)

include edges

/-- Going down the tree from a node numbered after `x` avoids `x`. -/
theorem avoids_of_anc (avoids : Avoids edge start x a) (lt : num x < num a) (upper : Anc parent a b) :
    Avoids edge start x b := by
  induction upper with
  | refl => exact avoids
  | @tail p b below child ih =>
    apply ih.step (edges child)
    rintro rfl
    have later := tree.num_le below
    have last := tree.parent_lt child
    omega

/-- Dominators are ancestors: the tree itself is full of walks. -/
theorem anc_of_dominates (reached : Reachable edge start n) (dominates : Dominates edge start d n) :
    Anc parent d n := by
  by_contra outside
  have along : ∀ {b}, Anc parent start b → Anc parent b n → Avoids edge start d b := by
    intro b upper
    induction upper with
    | refl =>
      intro lower
      apply Avoids.root
      rintro rfl
      exact outside lower
    | @tail p b _ child ih =>
      intro lower
      apply (ih ((Anc.of_parent child).trans lower)).step (edges child)
      rintro rfl
      exact outside lower
  exact dominates (along (tree.anc_start reached) (.refl n))

/-- A strict dominator dominates whatever a semipath to the node starts from. -/
theorem dominates_of_semiPath (reached : Reachable edge start n) (dominates : Dominates edge start d n)
    (other : d ≠ n) (path : SemiPath edge num s n) : Dominates edge start d s := by
  intro avoids
  have upper := tree.anc_of_dominates edges reached dominates
  exact dominates (avoids.semiPath path (tree.num_lt upper other))

/-- A semipath from before `d` to below `d` bypasses `d`. -/
theorem le_of_dominates (reachable : ∀ {n}, node n → Reachable edge start n)
    (dominates : Dominates edge start d y) (between : Between parent d y u) (last : node y)
    (path : SemiPath edge num x u) : num d ≤ num x := by
  by_contra early
  have uNode := tree.anc_node between.2.2 last
  have later := tree.num_lt between.1 (Ne.symm between.2.1)
  have toX : Avoids edge start d x := by
    by_contra dominatesX
    have upper := tree.anc_of_dominates edges (reachable (tree.semiPath_node path)) dominatesX
    exact early (tree.num_le upper)
  exact dominates (tree.avoids_of_anc edges (toX.semiPath path later) later between.2.2)

variable (reachable : ∀ {n}, node n → Reachable edge start n)
include reachable

/-- Immediate dominators are unique. -/
theorem immediate_unique (last : node n) (first : IsImmediateDominator edge start c n)
    (second : IsImmediateDominator edge start d n) : c = d := by
  have cUpper := tree.anc_of_dominates edges (reachable last) first.dominates
  have dUpper := tree.anc_of_dominates edges (reachable last) second.dominates
  have cd := second.above c first.other first.dominates
  have dc := first.above d second.other second.dominates
  apply tree.anc_antisymm
  · exact tree.anc_of_dominates edges (reachable (tree.anc_node dUpper last)) cd
  · exact tree.anc_of_dominates edges (reachable (tree.anc_node cUpper last)) dc

/-- The first clause: a semidominator with nothing smaller below it is the immediate dominator. -/
theorem immediate_of_undeferred (last : node n) (undeferred : Undeferred edge num parent n s) :
    IsImmediateDominator edge start s n where
  other := undeferred.other
  dominates := tree.dominates_of_semi undeferred.anc undeferred.low
  above _ ne dominates := tree.dominates_of_semiPath edges (reachable last) dominates ne undeferred.path

/-- The second clause: the dominators of `n` are those of the node it defers to. -/
theorem strict_iff_of_defers (last : node n) (defers : Defers edge num parent n y) :
    (d ≠ n ∧ Dominates edge start d n) ↔ d ≠ y ∧ Dominates edge start d y := by
  obtain ⟨s, t, semi, ySemi, between, lt, least⟩ := defers
  have yNode := tree.anc_node between.2.2 last
  have sLt := tree.num_lt between.1 (Ne.symm between.2.1)
  constructor
  · rintro ⟨other, dominates⟩
    have toS := tree.dominates_of_semiPath edges (reachable last) dominates other semi.path
    have sNode := tree.anc_node between.1 yNode
    have le := tree.num_le (tree.anc_of_dominates edges (reachable sNode) toS)
    refine ⟨?_, fun avoids => ?_⟩
    · rintro rfl
      omega
    · exact dominates (tree.avoids_of_anc edges avoids (by omega) between.2.2)
  · rintro ⟨other, dominates⟩
    have toY := tree.anc_of_dominates edges (reachable yNode) dominates
    have toT := tree.dominates_of_semiPath edges (reachable yNode) dominates other ySemi.path
    have dLt := tree.num_lt toY other
    have yLe := tree.num_le between.2.2
    have tNode := tree.semiPath_node ySemi.path
    have dLe := tree.num_le (tree.anc_of_dominates edges (reachable tNode) toT)
    refine ⟨?_, tree.dominates_of_semi (toY.trans between.2.2) ?_⟩
    · rintro rfl
      omega
    · -- above `y` because `d` dominates `y`, below `y` because of the leastness of its semidominator
      rintro u x ⟨below, uOther, toN⟩ path
      rcases tree.anc_total toN between.2.2 last with higher | lower
      · exact tree.le_of_dominates edges reachable dominates ⟨below, uOther, higher⟩ yNode path
      · refine dLe.trans (least u x ⟨between.1.trans lower, ?_, toN⟩ path)
        rintro rfl
        exact between.2.1 (tree.anc_antisymm lower between.1)

theorem immediate_iff_of_defers (last : node n) (defers : Defers edge num parent n y) :
    IsImmediateDominator edge start d n ↔ IsImmediateDominator edge start d y :=
  isImmediateDominator_congr fun _ => tree.strict_iff_of_defers edges reachable last defers

/-- The immediate dominator is not after the semidominator. -/
theorem immediate_le (last : node n) (immediate : IsImmediateDominator edge start d n)
    (path : SemiPath edge num s n) : num d ≤ num s := by
  have toS := tree.dominates_of_semiPath edges (reachable last) immediate.dominates immediate.other path
  exact tree.num_le (tree.anc_of_dominates edges (reachable (tree.semiPath_node path)) toS)

/-- Where one node a node may be deferred to is deferred, every such node is. -/
theorem not_undeferred_of_chained (last : node n) (defers : Defers edge num parent n y)
    (chained : Defers edge num parent y z) (again : Defers edge num parent n x) :
    ¬ Undeferred edge num parent x s := by
  intro undeferred
  obtain ⟨sn, t, semi, ySemi, between, lt, least⟩ := id defers
  obtain ⟨sn', t', semi', xSemi, between', -, -⟩ := id again
  obtain rfl := tree.semidominator_unique semi semi'
  have yNode := tree.anc_node between.2.2 last
  have immediate := tree.immediate_of_undeferred edges reachable (tree.anc_node between'.2.2 last) undeferred
  have ofN := (tree.immediate_iff_of_defers edges reachable last again).mpr immediate
  have ofY := (tree.immediate_iff_of_defers edges reachable last defers).mp ofN
  have ofZ := (tree.immediate_iff_of_defers edges reachable yNode chained).mp ofY
  obtain ⟨sy, tz, semiY, zSemi, betweenZ, ltZ, -⟩ := chained
  obtain rfl := tree.semidominator_unique semiY ySemi
  have below := tree.immediate_le edges reachable (tree.anc_node betweenZ.2.2 yNode) ofZ zSemi.path
  have above := least x s between' undeferred.path
  omega

end DfsTree

end Ctadl.Flowgraph
