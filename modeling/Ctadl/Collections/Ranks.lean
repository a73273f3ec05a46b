import Ctadl.Collections.Bits
import Mathlib.Data.Nat.Count

/-! # The rank of a number in a set of bits

The rank of a number is how many numbers of the set are below it: the set bits of the words before its own and the lower
set bits of its own. In the ascending list of the set a member stands at its rank.
-/

namespace Ctadl.Collections.Bits

variable {w : ℕ} {x : BitVec w} {i j : ℕ}

/-- The number of set bits. -/
def countOnes (x : BitVec w) : ℕ := (ones x).length

theorem count_congr {p q : ℕ → Prop} [DecidablePred p] [DecidablePred q] {n : ℕ} (same : ∀ k < n, p k ↔ q k) :
    Nat.count p n = Nat.count q n := by
  apply Nat.le_antisymm
  · exact Nat.count_mono_left fun k less => (same k less).mp
  · exact Nat.count_mono_left fun k less => (same k less).mpr

theorem length_filter_range (bit : ℕ → Bool) (n : ℕ) :
    ((List.range n).filter bit).length = Nat.count (fun i => bit i = true) n := by
  induction n with
  | zero => rfl
  | succ n ih =>
    rw [List.range_succ, List.filter_append, List.length_append, ih, Nat.count_succ]
    cases set : bit n <;> simp [set]

theorem countOnes_eq_count (x : BitVec w) : countOnes x = Nat.count (fun i => x.getLsbD i = true) w :=
  length_filter_range x.getLsbD w

/-- A bit less one is the bits below it. -/
theorem getLsbD_shiftLeft_sub_one (inside : i < w) : (1#w <<< i - 1#w).getLsbD j = decide (j < i) := by
  have pos := Nat.two_pow_pos i
  have fits : 2 ^ i < 2 ^ w := Nat.pow_lt_pow_right (by omega) inside
  have one : (1#w).toNat = 1 := by
    rw [BitVec.toNat_ofNat]
    exact Nat.mod_eq_of_lt (Nat.one_lt_two_pow (by omega))
  have shifted : (1#w <<< i).toNat = 2 ^ i := by
    rw [BitVec.toNat_shiftLeft, one, Nat.shiftLeft_eq, Nat.one_mul, Nat.mod_eq_of_lt fits]
  have less : (1#w <<< i - 1#w).toNat = 2 ^ i - 1 := by
    rw [BitVec.toNat_sub_of_le (by rw [BitVec.le_def, one, shifted]; omega), one, shifted]
  rw [← BitVec.testBit_toNat, less, Nat.testBit_two_pow_sub_one]

theorem countOnes_below (inside : i < w) :
    countOnes (x &&& (1#w <<< i - 1#w)) = Nat.count (fun j => x.getLsbD j = true) i := by
  obtain ⟨above, rfl⟩ : ∃ above, w = i + above := ⟨w - i, by omega⟩
  have low : ∀ j < i, (x.getLsbD j && decide (j < i)) = x.getLsbD j := by
    intro j less
    simp [less]
  rw [countOnes_eq_count, Nat.count_add]
  simp only [BitVec.getLsbD_and, getLsbD_shiftLeft_sub_one inside]
  have none : Nat.count (fun k => (x.getLsbD (i + k) && decide (i + k < i)) = true) above = 0 :=
    Nat.count_iff_forall_not.mpr fun k _ => by simp
  rw [none, Nat.add_zero]
  apply count_congr
  intro j less
  rw [low j less]

section Words

variable {words : List (BitVec w)} {b k n : ℕ}

theorem contains_in_word (here : words[k]? = some x) (inside : j < w) :
    contains words (w * k + j) = true ↔ x.getLsbD j = true := by
  have word : (w * k + j) / w = k := by
    rw [Nat.mul_add_div (by omega), Nat.div_eq_of_lt inside, Nat.add_zero]
  have bit : (w * k + j) % w = j := by
    rw [Nat.mul_add_mod, Nat.mod_eq_of_lt inside]
  rw [contains_iff (by omega), word, bit, here]
  simp

theorem count_in_word (here : words[k]? = some x) (inside : n ≤ w) :
    Nat.count (fun j => contains words (w * k + j) = true) n = Nat.count (fun j => x.getLsbD j = true) n := by
  apply count_congr
  intro j less
  exact contains_in_word here (by omega)

/-- The set bits of the words before a word are the members below its first number. -/
theorem sum_countOnes_take (inside : k ≤ words.length) :
    ((words.take k).map countOnes).sum = Nat.count (fun c => contains words c = true) (w * k) := by
  induction k with
  | zero => simp
  | succ k ih =>
    have here : words[k]? = some words[k] := List.getElem?_eq_getElem inside
    rw [List.take_add_one, here, Option.toList_some, List.map_append, List.sum_append, ih (by omega), Nat.mul_succ,
      Nat.count_add, count_in_word here (Nat.le_refl w), ← countOnes_eq_count]
    simp

/-- The rank, as it is put together from the words before and the lower bits. -/
theorem rank_eq_count (width : 0 < w) (here : words[b / w]? = some x) :
    ((words.take (b / w)).map countOnes).sum + countOnes (x &&& (1#w <<< (b % w) - 1#w)) =
      Nat.count (fun c => contains words c = true) b := by
  obtain ⟨inside, -⟩ := List.getElem?_eq_some_iff.mp here
  have low := Nat.mod_lt b width
  rw [sum_countOnes_take (by omega), countOnes_below low, ← count_in_word here low.le, ← Nat.count_add, Nat.div_add_mod]

end Words

section Ascending

variable {l : List ℕ} {b : ℕ}

theorem count_mem_eq_countP (ascending : l.Pairwise (· < ·)) (b : ℕ) :
    Nat.count (· ∈ l) b = l.countP (· < b) := by
  have each : {c ∈ Finset.range b | c ∈ l} = (l.filter (· < b)).toFinset := by
    ext c
    simp [and_comm]
  have nodup : (l.filter (· < b)).Nodup := (ascending.imp Nat.ne_of_lt).filter _
  rw [Nat.count_eq_card_filter_range, each, List.toFinset_card_of_nodup nodup, List.countP_eq_length_filter]

/-- In the ascending list a member stands at its rank. -/
theorem getElem?_count (ascending : l.Pairwise (· < ·)) (member : b ∈ l) : l[Nat.count (· ∈ l) b]? = some b := by
  rw [count_mem_eq_countP ascending]
  induction l with
  | nil => simp at member
  | cons a t ih =>
    obtain ⟨least, ascending⟩ := List.pairwise_cons.mp ascending
    rcases List.mem_cons.mp member with rfl | later
    · have none : (b :: t).countP (· < b) = 0 := by
        rw [List.countP_eq_zero]
        intro c inside
        rcases List.mem_cons.mp inside with rfl | after
        · simp
        · simpa using (least c after).le
      rw [none, List.getElem?_cons_zero]
    · rw [List.countP_cons_of_pos (by simpa using least b later), List.getElem?_cons_succ]
      exact ih ascending later

end Ascending

end Ctadl.Collections.Bits
