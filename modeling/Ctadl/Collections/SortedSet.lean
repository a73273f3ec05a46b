import Mathlib.Data.List.Sort

/-! # Sets as ascending lists

A finite set as the list of its members in ascending order, without repetition. Two such lists with the same members are
equal, and inclusion and union are walks over both lists at once.
-/

namespace Ctadl.Collections.SortedSet

variable {α : Type*} [LinearOrder α] {a b : List α} {x y : α}

/-- The members of both lists, in order. -/
def merge : List α → List α → List α
  | [], b => b
  | x :: a, [] => x :: a
  | x :: a, y :: b =>
    if x < y then x :: merge a (y :: b)
    else if y < x then y :: merge (x :: a) b
    else x :: merge a b
termination_by a b => a.length + b.length

/-- Whether each member of the first list is met in the second: the walk skips the smaller ones. -/
def isSubset : List α → List α → Bool
  | [], _ => true
  | x :: a, b =>
    match b.dropWhile (· < x) with
    | [] => false
    | y :: b => if y = x then isSubset a b else false

theorem mem_merge : x ∈ merge a b ↔ x ∈ a ∨ x ∈ b := by
  fun_induction merge a b with
  | case1 b => simp
  | case2 y a => simp
  | case3 y a z b less ih =>
    rw [List.mem_cons, ih, List.mem_cons (l := a), or_assoc]
  | case4 y a z b notLess more ih =>
    rw [List.mem_cons, ih, List.mem_cons (l := b)]
    exact or_left_comm
  | case5 y a z b notLess notMore ih =>
    obtain rfl : y = z := le_antisymm (not_lt.mp notMore) (not_lt.mp notLess)
    rw [List.mem_cons, ih, List.mem_cons, List.mem_cons]
    tauto

theorem sorted_merge (sortedA : a.Pairwise (· < ·)) (sortedB : b.Pairwise (· < ·)) : (merge a b).Pairwise (· < ·) := by
  fun_induction merge a b with
  | case1 b => exact sortedB
  | case2 y a => exact sortedA
  | case3 y a z b less ih =>
    obtain ⟨first, rest⟩ := List.pairwise_cons.mp sortedA
    refine List.pairwise_cons.mpr ⟨fun w member => ?_, ih rest sortedB⟩
    rcases mem_merge.mp member with left | right
    · exact first w left
    · rcases List.mem_cons.mp right with rfl | later
      · exact less
      · exact less.trans ((List.pairwise_cons.mp sortedB).1 w later)
  | case4 y a z b notLess more ih =>
    obtain ⟨first, rest⟩ := List.pairwise_cons.mp sortedB
    refine List.pairwise_cons.mpr ⟨fun w member => ?_, ih sortedA rest⟩
    rcases mem_merge.mp member with left | right
    · rcases List.mem_cons.mp left with rfl | later
      · exact more
      · exact more.trans ((List.pairwise_cons.mp sortedA).1 w later)
    · exact first w right
  | case5 y a z b notLess notMore ih =>
    obtain rfl : y = z := le_antisymm (not_lt.mp notMore) (not_lt.mp notLess)
    obtain ⟨firstA, restA⟩ := List.pairwise_cons.mp sortedA
    obtain ⟨firstB, restB⟩ := List.pairwise_cons.mp sortedB
    refine List.pairwise_cons.mpr ⟨fun w member => ?_, ih restA restB⟩
    exact (mem_merge.mp member).elim (firstA w) (firstB w)

/-- What the walk skips holds only smaller members. -/
private theorem mem_dropWhile_iff (sorted : b.Pairwise (· < ·)) :
    y ∈ b.dropWhile (· < x) ↔ y ∈ b ∧ x ≤ y := by
  induction b with
  | nil => simp
  | cons z b ih =>
    obtain ⟨first, rest⟩ := List.pairwise_cons.mp sorted
    rcases lt_or_ge z x with less | more
    · rw [List.dropWhile_cons_of_pos (by simpa using less), ih rest, List.mem_cons]
      constructor
      · exact fun ⟨member, above⟩ => ⟨.inr member, above⟩
      · rintro ⟨rfl | member, above⟩
        · exact absurd less (not_lt.mpr above)
        · exact ⟨member, above⟩
    · rw [List.dropWhile_cons_of_neg (by simpa using more)]
      refine (and_iff_left_of_imp fun member => ?_).symm
      rcases List.mem_cons.mp member with rfl | later
      · exact more
      · exact more.trans (first y later).le

theorem isSubset_iff (sortedA : a.Pairwise (· < ·)) (sortedB : b.Pairwise (· < ·)) :
    isSubset a b ↔ ∀ x ∈ a, x ∈ b := by
  induction a generalizing b with
  | nil => simp [isSubset]
  | cons x a ih =>
    obtain ⟨firstA, restA⟩ := List.pairwise_cons.mp sortedA
    have skipped : (b.dropWhile (· < x)).Pairwise (· < ·) := sortedB.sublist (List.dropWhile_sublist _)
    have members (y : α) : y ∈ b.dropWhile (· < x) ↔ y ∈ b ∧ x ≤ y := mem_dropWhile_iff sortedB
    rw [isSubset, List.forall_mem_cons]
    split
    · rename_i empty
      rw [empty] at members
      simp only [Bool.false_eq_true, false_iff]
      exact fun both => absurd ((members x).mpr ⟨both.1, le_rfl⟩) List.not_mem_nil
    · rename_i z rest here
      rw [here] at skipped members
      obtain ⟨firstZ, restZ⟩ := List.pairwise_cons.mp skipped
      split_ifs with met
      · subst met
        rw [ih restA restZ, and_iff_right ((members z).mp List.mem_cons_self).1]
        refine forall₂_congr fun w inside => ?_
        have above := firstA w inside
        have whole := members w
        rw [List.mem_cons, or_iff_right above.ne', and_iff_left above.le] at whole
        exact whole
      · simp only [false_iff]
        rintro ⟨inside, -⟩
        rcases List.mem_cons.mp ((members x).mpr ⟨inside, le_rfl⟩) with same | later
        · exact met same.symm
        · have least := ((members z).mp List.mem_cons_self).2
          exact absurd (firstZ x later) (not_lt.mpr least)

/-- Ascending lists with the same members are equal. -/
theorem ext (sortedA : a.Pairwise (· < ·)) (sortedB : b.Pairwise (· < ·)) (same : ∀ x, x ∈ a ↔ x ∈ b) : a = b :=
  List.Pairwise.eq_of_mem_iff sortedA sortedB fun x => same x

theorem nodup (sorted : a.Pairwise (· < ·)) : a.Nodup := sorted.imp fun less => less.ne

end Ctadl.Collections.SortedSet
