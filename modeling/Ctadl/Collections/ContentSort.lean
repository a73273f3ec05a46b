import Mathlib.Data.List.Sort

/-! # Sorting by content

A comparison orders rows by their content when it is total and transitive and calls two rows equal only
if they are: sorting by it forgets the order the rows came in. Comparisons are put together by projection
and by comparing first by one and then by another. Some tell rows apart only among the `good` ones.
-/

namespace Ctadl.Collections

variable {α β : Type*}

/-- A total and transitive comparison that, among the good, calls equal only what is the same. -/
structure Orders (cmp : α → α → Ordering) (good : α → Prop) (same : α → α → Prop) : Prop where
  trans : Std.TransCmp cmp
  same_of_eq : ∀ {a b}, good a → good b → cmp a b = .eq → same a b

section Orders

variable {cmp first second : α → α → Ordering} {good good' : α → Prop} {same same' : α → α → Prop}

theorem Orders.of_ord [Ord α] [Std.TransOrd α] [Std.LawfulEqOrd α] :
    Orders (compare : α → α → Ordering) (fun _ => True) (· = ·) :=
  ⟨inferInstance, fun _ _ => Std.LawfulEqOrd.eq_of_compare⟩

/-- Compares by a part of a row. -/
theorem Orders.on (orders : Orders cmp good same) (f : β → α) :
    Orders (fun a b => cmp (f a) (f b)) (fun a => good (f a)) (fun a b => same (f a) (f b)) := by
  have trans := orders.trans
  refine ⟨{ eq_swap := trans.eq_swap, isLE_trans := trans.isLE_trans }, ?_⟩
  exact fun left right equal => orders.same_of_eq left right equal

/-- Compares by one and then by another. -/
theorem Orders.then (left : Orders first good same) (right : Orders second good' same') :
    Orders (fun a b => (first a b).then (second a b)) (fun a => good a ∧ good' a)
      (fun a b => same a b ∧ same' a b) := by
  have transLeft := left.trans
  have transRight := right.trans
  have both : Std.TransCmp (compareLex first second) := inferInstance
  refine ⟨both, fun goodA goodB equal => ?_⟩
  obtain ⟨here, there⟩ := Ordering.then_eq_eq.mp equal
  exact ⟨left.same_of_eq goodA.1 goodB.1 here, right.same_of_eq goodA.2 goodB.2 there⟩

/-- Compares the other way around. -/
theorem Orders.opposite (orders : Orders cmp good (· = ·)) : Orders (fun a b => cmp b a) good (· = ·) := by
  have trans := orders.trans
  exact ⟨inferInstance, fun left right equal => (orders.same_of_eq right left equal).symm⟩

theorem Orders.mono (orders : Orders cmp good same) (smaller : ∀ a, good' a → good a)
    (wider : ∀ a b, same a b → same' a b) : Orders cmp good' same' :=
  ⟨orders.trans, fun goodA goodB equal => wider _ _ (orders.same_of_eq (smaller _ goodA) (smaller _ goodB) equal)⟩

end Orders

section Sorting

variable {cmp : α → α → Ordering} {good : α → Prop} {same : α → α → Prop} {l l' : List α}

theorem pairwise_sort (trans : Std.TransCmp cmp) (l : List α) :
    (l.insertionSort fun a b => (cmp a b).isLE).Pairwise fun a b => (cmp a b).isLE := by
  have total : Std.Total fun a b : α => ((cmp a b).isLE : Prop) := by
    refine ⟨fun a b => ?_⟩
    rw [trans.eq_swap (a := b)]
    cases cmp a b <;> simp
  have onward : IsTrans α fun a b : α => ((cmp a b).isLE : Prop) := ⟨fun _ _ _ => trans.isLE_trans⟩
  exact List.pairwise_insertionSort _ l

/-- Rows sorted by content do not depend on the order they came in. -/
theorem Orders.sort_congr (orders : Orders cmp good same) (tells : ∀ a b, same a b → a = b) (perm : l.Perm l')
    (all : ∀ a ∈ l, good a) :
    (l.insertionSort fun a b => (cmp a b).isLE) = l'.insertionSort fun a b => (cmp a b).isLE := by
  have trans := orders.trans
  refine List.Perm.eq_of_pairwise (fun a b left right below above => ?_) (pairwise_sort trans l)
    (pairwise_sort trans l') ?_
  · rw [List.mem_insertionSort] at left right
    have back : cmp b a = (cmp a b).swap := trans.eq_swap
    refine tells a b (orders.same_of_eq (all a left) (all b (perm.symm.subset right)) ?_)
    rw [back] at above
    cases equal : cmp a b <;> simp_all
  · exact (List.perm_insertionSort _ l).trans (perm.trans (List.perm_insertionSort _ l').symm)

end Sorting

end Ctadl.Collections
