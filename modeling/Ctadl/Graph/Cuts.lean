import Mathlib.Data.List.Basic
import Mathlib.Data.List.Dedup
import Mathlib.Data.List.Nodup
import Mathlib.Data.List.Sort
import Mathlib.Order.Nat

/-! # Cutting a range at positions

Positions in increasing order cut the range from the first of them to `stop` into pieces, each from one
cut to the next. Every position lies in one piece, and a piece has no cut but its start.
-/

namespace Ctadl.Graph

/-- The distinct numbers of a list, in increasing order. -/
def sorted (l : List ℕ) : List ℕ := l.dedup.insertionSort (· ≤ ·)

@[simp] theorem mem_sorted {l : List ℕ} {x : ℕ} : x ∈ sorted l ↔ x ∈ l := by
  rw [sorted, List.mem_insertionSort, List.mem_dedup]

theorem sorted_pairwise (l : List ℕ) : (sorted l).Pairwise (· < ·) := by
  have increasing : (sorted l).Pairwise (· ≤ ·) := List.pairwise_insertionSort (· ≤ ·) l.dedup
  have distinct : (sorted l).Nodup := (List.perm_insertionSort (· ≤ ·) l.dedup).nodup_iff.mpr l.nodup_dedup
  exact (increasing.and distinct).imp fun both => lt_of_le_of_ne both.1 both.2

/-- The pieces, each with its start and end. -/
def pieces (stop : ℕ) : List ℕ → List (ℕ × ℕ)
  | [] => []
  | [a] => [(a, stop)]
  | a :: b :: cuts => (a, b) :: pieces stop (b :: cuts)

variable {cuts : List ℕ} {stop a b x : ℕ}

@[simp] theorem pieces_map_fst (stop : ℕ) (cuts : List ℕ) : (pieces stop cuts).map Prod.fst = cuts := by
  induction cuts using pieces.induct with
  | case1 => rfl
  | case2 a => rfl
  | case3 a b cuts ih => rw [pieces, List.map_cons, ih]

theorem exists_piece (cut : a ∈ cuts) : ∃ b, (a, b) ∈ pieces stop cuts := by
  rw [← pieces_map_fst stop cuts] at cut
  obtain ⟨⟨a, b⟩, member, rfl⟩ := List.mem_map.mp cut
  exact ⟨b, member⟩

theorem cut_of_mem (member : (a, b) ∈ pieces stop cuts) : a ∈ cuts := by
  rw [← pieces_map_fst stop cuts]
  exact List.mem_map_of_mem member

/-- A piece ends at the next cut. -/
theorem mem_pieces (sorted : cuts.Pairwise (· < ·)) (member : (a, b) ∈ pieces stop cuts) :
    (∀ c ∈ cuts, c ≤ a ∨ b ≤ c) ∧ (a < b ∧ b ∈ cuts ∨ b = stop ∧ ∀ c ∈ cuts, c ≤ a) := by
  induction cuts using pieces.induct with
  | case1 => simp [pieces] at member
  | case2 c =>
    simp only [pieces, List.mem_singleton, Prod.mk.injEq] at member
    obtain ⟨rfl, rfl⟩ := member
    simp
  | case3 c d cuts ih =>
    obtain ⟨first, rest⟩ := List.pairwise_cons.mp sorted
    rw [pieces, List.mem_cons] at member
    rcases member with same | later
    · obtain ⟨rfl, rfl⟩ := Prod.mk.inj same
      have after : ∀ e ∈ b :: cuts, b ≤ e :=
        List.forall_mem_cons.mpr ⟨le_rfl, fun e inside => (List.rel_of_pairwise_cons rest inside).le⟩
      refine ⟨List.forall_mem_cons.mpr ⟨.inl le_rfl, fun e inside => .inr (after e inside)⟩, .inl ⟨?_, ?_⟩⟩
      · exact first b List.mem_cons_self
      · exact List.mem_cons_of_mem _ List.mem_cons_self
    · obtain ⟨inside, ends⟩ := ih rest later
      have before : c ≤ a := (first a (cut_of_mem later)).le
      refine ⟨List.forall_mem_cons.mpr ⟨.inl before, inside⟩, ?_⟩
      rcases ends with ⟨lt, cut⟩ | ⟨eq, last⟩
      · exact .inl ⟨lt, List.mem_cons_of_mem c cut⟩
      · exact .inr ⟨eq, List.forall_mem_cons.mpr ⟨before, last⟩⟩

/-- Every position from the first cut to the end lies in a piece. -/
theorem exists_piece_of_le (cut : a ∈ cuts) (le : a ≤ x) (lt : x < stop) :
    ∃ s e, (s, e) ∈ pieces stop cuts ∧ s ≤ x ∧ x < e := by
  induction cuts using pieces.induct generalizing a with
  | case1 => simp at cut
  | case2 c =>
    obtain rfl := List.mem_singleton.mp cut
    exact ⟨a, stop, by simp [pieces], le, lt⟩
  | case3 c d cuts ih =>
    by_cases past : d ≤ x
    · obtain ⟨s, e, member, le, lt⟩ := ih List.mem_cons_self past
      exact ⟨s, e, by rw [pieces]; exact List.mem_cons_of_mem _ member, le, lt⟩
    · rcases List.mem_cons.mp cut with rfl | later
      · exact ⟨a, d, by rw [pieces]; exact List.mem_cons_self, le, not_le.mp past⟩
      · obtain ⟨s, e, member, le, lt⟩ := ih later le
        exact ⟨s, e, by rw [pieces]; exact List.mem_cons_of_mem _ member, le, lt⟩

/-- Pieces come in the order of their starts. -/
theorem piece_start_lt (sorted : cuts.Pairwise (· < ·)) {i j s e s' e' : ℕ}
    (first : (pieces stop cuts)[i]? = some (s, e)) (second : (pieces stop cuts)[j]? = some (s', e')) (lt : i < j) :
    s < s' := by
  rw [← pieces_map_fst stop cuts] at sorted
  have left : ((pieces stop cuts).map Prod.fst)[i]? = some s := by rw [List.getElem?_map, first, Option.map_some]
  have right : ((pieces stop cuts).map Prod.fst)[j]? = some s' := by rw [List.getElem?_map, second, Option.map_some]
  obtain ⟨short, rfl⟩ := List.getElem?_eq_some_iff.mp left
  obtain ⟨short', rfl⟩ := List.getElem?_eq_some_iff.mp right
  exact List.pairwise_iff_getElem.mp sorted i j short short' lt

/-! ## Edges -/

/-- Adds a successor that is not there. -/
def pushNew (succs : List ℕ) (b : ℕ) : List ℕ := if b ∈ succs then succs else succs ++ [b]

theorem mem_foldl_pushNew {l succs : List ℕ} {b : ℕ} : b ∈ l.foldl pushNew succs ↔ b ∈ succs ∨ b ∈ l := by
  induction l generalizing succs with
  | nil => simp
  | cons a l ih =>
    have push : b ∈ pushNew succs a ↔ b ∈ succs ∨ b = a := by
      unfold pushNew
      split_ifs with present
      · exact ⟨.inl, fun either => either.elim id fun same => same ▸ present⟩
      · simp
    rw [List.foldl_cons, ih, push, List.mem_cons, or_assoc]

end Ctadl.Graph
