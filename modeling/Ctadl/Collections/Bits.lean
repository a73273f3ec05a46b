import Mathlib.Data.BitVec

/-! # The set bits of a word

A word as a set of bit positions. Taking the lowest bit and clearing it with `x & (x - 1)`, as long as the word is not
zero, meets the set bits in ascending order.
-/

namespace Ctadl.Collections.Bits

variable {w : ℕ} {x : BitVec w} {i j : ℕ}

/-- The position of the lowest set bit, or the width. -/
def trailingZeros (x : BitVec w) : ℕ := ((List.range w).find? x.getLsbD).getD w

/-- The positions of the set bits. -/
def ones (x : BitVec w) : List ℕ := (List.range w).filter x.getLsbD

theorem mem_ones : i ∈ ones x ↔ x.getLsbD i = true := by
  simp only [ones, List.mem_filter, List.mem_range, and_iff_right_iff_imp]
  exact BitVec.lt_of_getLsbD

theorem sorted_ones : (ones x).Pairwise (· < ·) := List.pairwise_lt_range.filter _

theorem ones_zero : ones (0#w) = [] := by simp [ones]

theorem exists_getLsbD (ne : x ≠ 0#w) : ∃ i < w, x.getLsbD i = true := by
  by_contra none
  push Not at none
  refine ne (BitVec.eq_of_getLsbD_eq fun i inside => ?_)
  simpa using none i inside

/-- The lowest set bit is set, and no bit below it is. -/
theorem trailingZeros_spec (ne : x ≠ 0#w) : x.getLsbD (trailingZeros x) = true ∧ ∀ j < trailingZeros x, x.getLsbD j = false := by
  obtain ⟨i, inside, isSet⟩ := exists_getLsbD ne
  obtain ⟨k, found⟩ := Option.isSome_iff_exists.mp
    (List.find?_isSome.mpr ⟨i, List.mem_range.mpr inside, isSet⟩ : ((List.range w).find? x.getLsbD).isSome)
  have isLowest : trailingZeros x = k := by rw [trailingZeros, found, Option.getD_some]
  rw [isLowest]
  obtain ⟨set, below⟩ := List.find?_range_eq_some.mp found
  exact ⟨set, fun j less => by simpa using below.2 j less⟩

/-- A word that is not zero splits at its lowest set bit. -/
theorem exists_split (ne : x ≠ 0#w) : ∃ high, x.toNat = 2 ^ (trailingZeros x + 1) * high + 2 ^ trailingZeros x := by
  obtain ⟨set, below⟩ := trailingZeros_spec ne
  refine ⟨x.toNat / 2 ^ (trailingZeros x + 1), ?_⟩
  have low : x.toNat % 2 ^ (trailingZeros x + 1) = 2 ^ trailingZeros x := by
    refine Nat.eq_of_testBit_eq fun j => ?_
    rw [Nat.testBit_mod_two_pow, Nat.testBit_two_pow]
    rcases Nat.lt_trichotomy j (trailingZeros x) with less | rfl | more
    · have clear : x.toNat.testBit j = false := below j less
      simp [clear, less.ne']
    · have set : x.toNat.testBit (trailingZeros x) = true := set
      simp [set]
    · simp [show ¬ j < trailingZeros x + 1 by omega, more.ne]
  rw [← low]
  exact (Nat.div_add_mod _ _).symm

/-- Taking one off and keeping what both have clears the lowest set bit. -/
theorem getLsbD_clear (ne : x ≠ 0#w) : (x &&& (x - 1#w)).getLsbD j = (x.getLsbD j && j ≠ trailingZeros x) := by
  obtain ⟨high, split⟩ := exists_split ne
  have pos : 0 < 2 ^ trailingZeros x := Nat.two_pow_pos _
  have grows : 2 ^ trailingZeros x < 2 ^ (trailingZeros x + 1) := Nat.pow_lt_pow_right (by omega) (by omega)
  have inside := x.isLt
  have width : 0 < w := by
    obtain ⟨i, inside, -⟩ := exists_getLsbD ne
    omega
  have one : (1#w).toNat = 1 := by
    rw [BitVec.toNat_ofNat]
    exact Nat.mod_eq_of_lt (Nat.one_lt_two_pow width.ne')
  have less : (x - 1#w).toNat = 2 ^ (trailingZeros x + 1) * high + (2 ^ trailingZeros x - 1) := by
    rw [BitVec.toNat_sub_of_le (by rw [BitVec.le_def, one]; omega), one, split]
    omega
  change ((x &&& (x - 1#w)).toNat).testBit j = (x.toNat.testBit j && _)
  rw [BitVec.toNat_and, Nat.testBit_and, less, split, Nat.testBit_two_pow_mul_add _ grows, Nat.testBit_two_pow_mul_add _ (by omega),
    Nat.testBit_two_pow, Nat.testBit_two_pow_sub_one]
  split_ifs with low
  · rcases Nat.lt_trichotomy j (trailingZeros x) with below | rfl | above
    · simp [below.ne']
    · simp
    · omega
  · have apart : j ≠ trailingZeros x := by omega
    simp [apart]

/-- The lowest set bit is the first of the set bits, and the others are those of the word without it. -/
theorem ones_eq_cons (ne : x ≠ 0#w) : ones x = trailingZeros x :: ones (x &&& (x - 1#w)) := by
  obtain ⟨set, below⟩ := trailingZeros_spec ne
  refine List.Pairwise.eq_of_mem_iff sorted_ones (List.pairwise_cons.mpr ⟨fun i member => ?_, sorted_ones⟩) fun i => ?_
  · rw [mem_ones, getLsbD_clear ne] at member
    simp only [ne_eq, Bool.and_eq_true, decide_eq_true_eq] at member
    by_contra less
    have clear := below i (by omega)
    simp [clear] at member
  · rw [List.mem_cons, mem_ones, mem_ones, getLsbD_clear ne]
    by_cases same : i = trailingZeros x
    · simp [same, set]
    · simp [same]

/-- The set bits met by taking the lowest one and clearing it. -/
def pops : ℕ → BitVec w → List ℕ
  | 0, _ => []
  | fuel + 1, x => if x = 0#w then [] else trailingZeros x :: pops fuel (x &&& (x - 1#w))

/-- As many steps as there are bits meet all of them, in ascending order. -/
theorem pops_eq_ones {fuel : ℕ} (enough : (ones x).length ≤ fuel) : pops fuel x = ones x := by
  induction fuel generalizing x with
  | zero => exact (List.eq_nil_of_length_eq_zero (by omega)).symm
  | succ fuel ih =>
    rw [pops]
    split_ifs with zero
    · rw [zero, ones_zero]
    · rw [ones_eq_cons zero] at enough ⊢
      rw [ih (by simpa using enough)]

section Words

variable {words : List (BitVec w)} {b c : ℕ}

/-- Sets bit `b` of a set of numbers kept `w` bits to a word. -/
def insert (words : List (BitVec w)) (b : ℕ) : List (BitVec w) := words.modify (b / w) (· ||| 1#w <<< (b % w))

def contains (words : List (BitVec w)) (b : ℕ) : Bool :=
  match words[b / w]? with
  | none => false
  | some word => word &&& 1#w <<< (b % w) ≠ 0#w

theorem getLsbD_one_shiftLeft (inside : i < w) : (1#w <<< i).getLsbD j = decide (i = j) := by
  rw [BitVec.getLsbD_shiftLeft, BitVec.getLsbD_one]
  rcases Nat.lt_trichotomy j i with less | rfl | more
  · simp [less, less.ne']
  · simp [inside, Nat.zero_lt_of_lt inside]
  · simp [more.ne, show ¬ j - i = 0 by omega]

theorem and_shift_ne_zero_iff (inside : i < w) : x &&& 1#w <<< i ≠ 0#w ↔ x.getLsbD i = true := by
  constructor
  · intro ne
    obtain ⟨j, -, both⟩ := exists_getLsbD ne
    rw [BitVec.getLsbD_and, getLsbD_one_shiftLeft inside] at both
    obtain ⟨set, rfl⟩ : x.getLsbD j = true ∧ i = j := by simpa using both
    exact set
  · intro set zero
    have bit := congrArg (fun y => y.getLsbD i) zero
    simp [getLsbD_one_shiftLeft inside, set] at bit

theorem contains_iff (width : 0 < w) : contains words b ↔ ∃ word, words[b / w]? = some word ∧ word.getLsbD (b % w) = true := by
  unfold contains
  split
  · simp_all
  · rename_i word here
    simp [here, ← and_shift_ne_zero_iff (Nat.mod_lt b width)]

theorem contains_insert (width : 0 < w) (room : b / w < words.length) :
    contains (insert words b) c ↔ contains words c ∨ b = c := by
  have inside := Nat.mod_lt b width
  rw [contains_iff width, contains_iff width, insert, List.getElem?_modify]
  by_cases same : b / w = c / w
  · obtain ⟨word, here⟩ : ∃ word, words[c / w]? = some word := ⟨_, List.getElem?_eq_getElem (same ▸ room)⟩
    have equal : b % w = c % w ↔ b = c := by
      constructor
      · intro low
        rw [← Nat.div_add_mod b w, ← Nat.div_add_mod c w, same, low]
      · exact fun whole => whole ▸ rfl
    simp [same, here, getLsbD_one_shiftLeft inside, equal]
  · have apart : b ≠ c := fun whole => same (whole ▸ rfl)
    simp [same, apart]

theorem length_foldl_insert (bs : List ℕ) (words : List (BitVec w)) : (bs.foldl insert words).length = words.length := by
  induction bs generalizing words with
  | nil => rfl
  | cons b bs ih => rw [List.foldl_cons, ih, insert, List.length_modify]

/-- A set filled from a list holds the list. -/
theorem contains_foldl_insert {bs : List ℕ} (width : 0 < w) (room : ∀ b ∈ bs, b / w < words.length) :
    contains (bs.foldl insert words) c ↔ contains words c ∨ c ∈ bs := by
  induction bs generalizing words with
  | nil => simp
  | cons b bs ih =>
    have length : (insert words b).length = words.length := List.length_modify _ _ _
    have first := contains_insert (c := c) width (room b List.mem_cons_self)
    rw [List.foldl_cons, ih fun d member => length ▸ room d (List.mem_cons_of_mem b member), first, or_assoc,
      List.mem_cons, @eq_comm _ b c]

theorem contains_replicate_zero (n : ℕ) : contains (List.replicate n 0#w) c = false := by
  unfold contains
  split
  · rfl
  · rename_i word here
    have zero := List.eq_of_mem_replicate (List.mem_of_getElem? here)
    simp [zero]

end Words

end Ctadl.Collections.Bits
