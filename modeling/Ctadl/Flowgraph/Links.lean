import Mathlib.Data.List.Basic

/-! # Chains of links

A partial map that sends a node to the node it was found equal to. Following the links of an acyclic map
ends at a node that has none, its root, within as many steps as there are nodes with a link. A link from
one root to another keeps the map acyclic and merges their two classes.
-/

namespace Ctadl.Flowgraph

variable {α : Type*}

/-- A narrower filter keeps fewer elements where it drops one. -/
theorem length_filter_lt {items : List α} {p q : α → Bool} (narrower : ∀ x ∈ items, q x → p x) {x : α}
    (member : x ∈ items) (kept : p x) (dropped : q x = false) : (items.filter q).length < (items.filter p).length := by
  have again : items.filter q = (items.filter p).filter q := by
    rw [List.filter_filter]
    refine List.filter_congr fun y inside => ?_
    cases hit : q y with
    | false => simp
    | true => simp [narrower y inside hit]
  rw [again]
  exact List.length_filter_lt_length_iff_exists.mpr ⟨x, List.mem_filter.mpr ⟨member, kept⟩, by simpa using dropped⟩

/-- Follow at most so many links. -/
def follow (parent : α → Option α) : ℕ → α → α
  | 0, v => v
  | steps + 1, v =>
    match parent v with
    | none => v
    | some u => follow parent steps u

/-- Ranks fall along every link. -/
def Falling (parent : α → Option α) (rank : α → ℕ) : Prop := ∀ {v u}, parent v = some u → rank u < rank v

section Follow

variable {parent : α → Option α} {rank : α → ℕ} {v u : α} {steps : ℕ}

theorem follow_of_root (root : parent v = none) : follow parent steps v = v := by
  cases steps with
  | zero => rfl
  | succ steps => simp [follow, root]

/-- The nodes with a link bound the length of a chain. -/
theorem root_follow (falling : Falling parent rank) {keys : List α} (complete : ∀ {v u}, parent v = some u → v ∈ keys)
    (enough : (keys.filter fun w => rank w ≤ rank v).length ≤ steps) : parent (follow parent steps v) = none := by
  induction steps generalizing v with
  | zero =>
    cases linked : parent v with
    | none => exact linked
    | some u =>
      have here : v ∈ keys.filter fun w => rank w ≤ rank v := by simp [complete linked]
      have := List.length_pos_of_mem here
      omega
  | succ steps ih =>
    cases linked : parent v with
    | none => rw [follow_of_root linked, linked]
    | some u =>
      simp only [follow, linked]
      refine ih ?_
      have less := falling linked
      have fewer : (keys.filter fun w => rank w ≤ rank u).length < (keys.filter fun w => rank w ≤ rank v).length := by
        refine length_filter_lt (fun w _ low => ?_) (complete linked) (by simp) (by simpa using less)
        simp only [decide_eq_true_eq] at low ⊢
        omega
      omega

/-- Where both ends of a link reach roots, they reach the same one. -/
theorem follow_of_link (linked : parent v = some u) (root : parent (follow parent steps v) = none) :
    follow parent steps v = follow parent steps u := by
  induction steps generalizing v u with
  | zero => simp [follow, linked] at root
  | succ steps ih =>
    simp only [follow, linked] at root ⊢
    cases next : parent u with
    | none => exact follow_of_root next
    | some w => exact ih next root

end Follow

section Merge

variable [DecidableEq α] {parent : α → Option α} {rank : α → ℕ} {root : α → α} {d u : α}

/-- What it is to be the roots of a map of links. -/
structure Roots (parent : α → Option α) (root : α → α) : Prop where
  isRoot : ∀ v, parent (root v) = none
  fixed : ∀ {v}, parent v = none → root v = v
  linked : ∀ {v u}, parent v = some u → root v = root u

/-- A link from one root to another keeps the map acyclic. -/
theorem Falling.link (falling : Falling parent rank) (roots : Roots parent root) (free : parent d = none)
    (top : parent u = none) (apart : u ≠ d) :
    Falling (Function.update parent d (some u)) fun v => if root v = d then rank v + rank u + 1 else rank v := by
  intro v w linked
  by_cases same : v = d
  · subst same
    simp only [Function.update_self, Option.some.injEq] at linked
    subst linked
    have other : root u ≠ v := by rw [roots.fixed top]; exact apart
    simp only [other, if_false, roots.fixed free, if_true]
    omega
  · rw [Function.update_of_ne same] at linked
    have together := roots.linked linked
    have less := falling linked
    simp only [together]
    split_ifs <;> omega

/-- The roots after a link. -/
theorem Roots.link {root' : α → α} (falling : Falling parent rank) (roots : Roots parent root)
    (roots' : Roots (Function.update parent d (some u)) root') (free : parent d = none) (top : parent u = none)
    (apart : u ≠ d) (v : α) : root' v = if root v = d then u else root v := by
  induction h : rank v using Nat.strongRecOn generalizing v with
  | ind n ih =>
    by_cases same : v = d
    · subst same
      have top' : Function.update parent v (some u) u = none := by rw [Function.update_of_ne apart, top]
      rw [roots'.linked (Function.update_self v (some u) parent), roots'.fixed top', if_pos (roots.fixed free)]
    · have still : Function.update parent d (some u) v = parent v := Function.update_of_ne same _ _
      cases linked : parent v with
      | none =>
        rw [roots.fixed linked, if_neg same]
        exact roots'.fixed (still.trans linked)
      | some w =>
        rw [roots'.linked (still.trans linked), roots.linked linked]
        exact ih (rank w) (h ▸ falling linked) w rfl

end Merge

end Ctadl.Flowgraph
