import Ctadl.Flowgraph.Dominance

/-! # Depth-first spanning trees and semidominators

`DfsTree` collects what a depth-first numbering promises: a parent is numbered before its child, an
edge to a later node goes down the tree, and the descendants of a node are numbered consecutively.
Everything Lengauer and Tarjan say about semidominators follows from these three.

`SemiPath x w` is a walk from `x` to `w` whose inner nodes are all numbered after `w`. A table of
semidominators only has to be low enough: if no node strictly between `t` and `v` on the tree, nor
`v`, has a semipath from before `t`, then `t` dominates `v` (`DfsTree.dominates_of_semi`).
-/

namespace Ctadl.Flowgraph

open Relation

variable {N : Type*} {edge : N → N → Prop} {node : N → Prop} {num : N → ℕ} {parent : N → Option N}
  {start a b c m p t u v w x y : N} {j k : ℕ}

/-- `Anc parent a b`: `a` is `b` or one of its proper ancestors in the tree. -/
def Anc (parent : N → Option N) (a b : N) : Prop := ReflTransGen (fun p n => parent n = some p) a b

theorem Anc.refl (a : N) : Anc parent a a := ReflTransGen.refl

theorem Anc.trans (upper : Anc parent a b) (lower : Anc parent b c) : Anc parent a c :=
  ReflTransGen.trans upper lower

theorem Anc.child (upper : Anc parent a p) (child : parent b = some p) : Anc parent a b :=
  ReflTransGen.tail upper child

theorem Anc.of_parent (child : parent b = some p) : Anc parent p b := ReflTransGen.single child

/-- A proper ancestor is an ancestor of the parent. -/
theorem Anc.eq_or_parent (upper : Anc parent a b) :
    a = b ∨ ∃ p, parent b = some p ∧ Anc parent a p := by
  rcases ReflTransGen.cases_tail upper with same | ⟨p, rest, child⟩
  · exact .inl same.symm
  · exact .inr ⟨p, child, rest⟩

/-- `Between parent a v u`: `u` is on the way down the tree from `a`, itself excluded, to `v`. -/
def Between (parent : N → Option N) (a v u : N) : Prop := Anc parent a u ∧ u ≠ a ∧ Anc parent u v

/-- The tree and the numbering a depth-first search of the graph leaves behind. -/
structure DfsTree (edge : N → N → Prop) (start : N) (node : N → Prop) (num : N → ℕ)
    (parent : N → Option N) : Prop where
  num_inj : ∀ {a b}, node a → node b → num a = num b → a = b
  start_node : node start
  start_le : ∀ {n}, node n → num start ≤ num n
  edge_node : ∀ {u w}, edge u w → node u ∧ node w
  parent_node : ∀ {n p}, parent n = some p → node p ∧ node n
  parent_lt : ∀ {n p}, parent n = some p → num p < num n
  /-- An edge to a later node leads to a descendant. -/
  forward : ∀ {u w}, edge u w → num u < num w → Anc parent u w
  /-- The descendants of a node are numbered consecutively. -/
  interval : ∀ {a b c}, Anc parent a c → node c → node b → num a ≤ num b → num b ≤ num c → Anc parent a b

/-- A nonempty walk from `x` to `u` whose nodes after `x` are all numbered from `k` on. -/
def Climb (edge : N → N → Prop) (num : N → ℕ) (k : ℕ) (x u : N) : Prop :=
  TransGen (fun a b => edge a b ∧ k ≤ num b) x u

/-- A walk from `x` to `w` whose inner nodes are all numbered after `w`. -/
def SemiPath (edge : N → N → Prop) (num : N → ℕ) (x w : N) : Prop :=
  edge x w ∨ ∃ u, Climb edge num (num w + 1) x u ∧ edge u w

theorem Climb.mono (climb : Climb edge num k x u) (le : j ≤ k) : Climb edge num j x u :=
  TransGen.mono (fun _ _ step => ⟨step.1, le.trans step.2⟩) _ _ climb

theorem Climb.target_le (climb : Climb edge num k x u) : k ≤ num u := by
  cases climb with
  | single step => exact step.2
  | tail _ step => exact step.2

namespace DfsTree

variable (tree : DfsTree edge start node num parent)
include tree

theorem num_le (upper : Anc parent a b) : num a ≤ num b := by
  induction upper with
  | refl => exact le_rfl
  | tail _ child ih => exact ih.trans (tree.parent_lt child).le

theorem anc_node (upper : Anc parent a b) (lower : node b) : node a := by
  rcases ReflTransGen.cases_head upper with same | ⟨_, child, -⟩
  · exact same ▸ lower
  · exact (tree.parent_node child).1

theorem num_lt (upper : Anc parent a b) (other : a ≠ b) : num a < num b := by
  rcases upper.eq_or_parent with same | ⟨p, child, rest⟩
  · exact absurd same other
  · exact (tree.num_le rest).trans_lt (tree.parent_lt child)

theorem anc_antisymm (first : Anc parent a b) (second : Anc parent b a) : a = b := by
  by_contra other
  exact absurd (tree.num_lt first other) (tree.num_le second).not_gt

/-- Two ancestors of one node are ancestors of each other, one way or the other. -/
theorem anc_total (first : Anc parent a c) (second : Anc parent b c) (last : node c) :
    Anc parent a b ∨ Anc parent b a := by
  have aNode := tree.anc_node first last
  have bNode := tree.anc_node second last
  rcases le_total (num a) (num b) with le | le
  · exact .inl (tree.interval first last bNode le (tree.num_le second))
  · exact .inr (tree.interval second last aNode le (tree.num_le first))

/-- Between a node and its child there is only the child. -/
theorem between_child (child : parent b = some p) (between : Between parent p b u) : u = b := by
  obtain ⟨below, other, upper⟩ := between
  rcases upper.eq_or_parent with same | ⟨q, again, higher⟩
  · exact same
  · obtain rfl : p = q := Option.some.inj (child.symm.trans again)
    exact absurd (tree.anc_antisymm higher below) other

/-- An edge out of the subtree of `m` into a node numbered after `m` stays in the subtree. -/
theorem anc_of_edge (upper : Anc parent m u) (out : edge u w) (le : num m ≤ num w) :
    Anc parent m w := by
  rcases lt_or_ge (num u) (num w) with later | earlier
  · exact upper.trans (tree.forward out later)
  · exact tree.interval upper (tree.edge_node out).1 (tree.edge_node out).2 le earlier

/-- A walk that never drops below its first node stays in that node's subtree. -/
theorem anc_of_climb (climb : Climb edge num (num m) m u) : Anc parent m u := by
  induction climb with
  | single step => exact tree.anc_of_edge (.refl m) step.1 step.2
  | tail _ step ih => exact tree.anc_of_edge ih step.1 step.2

/-- The lowest node a walk meets is an ancestor of its end, and a semipath leads to it. -/
theorem exists_semiPath (climb : Climb edge num k x u) :
    ∃ m, k ≤ num m ∧ Anc parent m u ∧ SemiPath edge num x m ∧ Climb edge num (num m) x u := by
  induction climb with
  | @single u step => exact ⟨u, step.2, .refl u, .inl step.1, .single ⟨step.1, le_rfl⟩⟩
  | @tail u w _ step ih =>
    obtain ⟨m, le, upper, path, lowest⟩ := ih
    rcases le_or_gt (num m) (num w) with below | lower
    · exact ⟨m, le, tree.anc_of_edge upper step.1 below, path, .tail lowest ⟨step.1, below⟩⟩
    · have above : Climb edge num (num w + 1) x u := lowest.mono lower
      exact ⟨w, step.2, .refl w, .inr ⟨u, above, step.1⟩,
        .tail (above.mono (Nat.le_succ _)) ⟨step.1, le_rfl⟩⟩

/-- A proper ancestor below which no semipath starts is a dominator. -/
theorem dominates_of_semi (upper : Anc parent t v)
    (bound : ∀ u x, Between parent t v u → SemiPath edge num x u → num t ≤ num x) :
    Dominates edge start t v := by
  rintro ⟨outside, walk⟩
  -- Carried along the walk: the node is off the tree path from `t` to `v`, and for every bound the
  -- last node so far within the bound was off that path too.
  have off : ∀ u, ReflTransGen (fun a b => edge a b ∧ b ≠ t) start u →
      ¬ (Anc parent t u ∧ Anc parent u v) ∧ ∀ k, num start ≤ k → ∃ x, num x ≤ k ∧ x ≠ t ∧
        ¬ (Anc parent t x ∧ Anc parent x v) ∧ (x = u ∨ Climb edge num (k + 1) x u) := by
    intro u sofar
    induction sofar with
    | refl =>
      have offStart : ¬ (Anc parent t start ∧ Anc parent start v) := by
        rintro ⟨below, -⟩
        have root := tree.anc_node below tree.start_node
        have least := tree.start_le root
        exact outside (tree.num_inj tree.start_node root (least.antisymm (tree.num_le below)))
      exact ⟨offStart, fun k le => ⟨start, le, outside, offStart, .inl rfl⟩⟩
    | @tail u w _ out ih =>
      obtain ⟨-, history⟩ := ih
      have offNext : ¬ (Anc parent t w ∧ Anc parent w v) := by
        rintro ⟨below, toV⟩
        obtain ⟨x, le, ne, offPath, leads⟩ := history (num w) (tree.start_le (tree.edge_node out.1).2)
        have path : SemiPath edge num x w := by
          rcases leads with rfl | climb
          · exact .inl out.1
          · exact .inr ⟨u, climb, out.1⟩
        have reaches : Anc parent x u := by
          rcases leads with rfl | climb
          · exact .refl x
          · exact tree.anc_of_climb (climb.mono (le.trans (Nat.le_succ _)))
        have least := bound w x ⟨below, out.2, toV⟩ path
        have toW := tree.anc_of_edge reaches out.1 le
        have xNode := tree.anc_node toW (tree.edge_node out.1).2
        exact offPath ⟨tree.interval below (tree.edge_node out.1).2 xNode least le, toW.trans toV⟩
      refine ⟨offNext, fun k le => ?_⟩
      rcases le_or_gt (num w) k with within | beyond
      · exact ⟨w, within, out.2, offNext, .inl rfl⟩
      · obtain ⟨x, lower, ne, offPath, leads⟩ := history k le
        refine ⟨x, lower, ne, offPath, .inr ?_⟩
        rcases leads with rfl | climb
        · exact .single ⟨out.1, beyond⟩
        · exact .tail climb ⟨out.1, beyond⟩
  exact (off v walk).1 ⟨upper, .refl v⟩

end DfsTree

end Ctadl.Flowgraph
