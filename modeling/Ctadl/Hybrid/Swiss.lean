import Ctadl.Collections.Bits
import Ctadl.Collections.Triangular
import Mathlib.Tactic.IntervalCases

/-! # The machinery of a large set

A bucket has a control byte: `EMPTY`, or the top seven bits of its element's hash. A group of eight control bytes is
read as one word, at any bucket, and searched with word arithmetic; a probe walks groups by triangular steps. Words
are read with their lowest byte first.
-/

namespace Ctadl.Hybrid

open Collections Collections.Bits

abbrev Byte := BitVec 8

abbrev Word := BitVec 64

def EMPTY : Byte := 0b11111111

def groupWidth : ℕ := 8

/-- The smallest bucket count of a large table. -/
def minBuckets : ℕ := groupWidth

/-- A `usize` product, which wraps. -/
def usizeMul (a b : ℕ) : ℕ := a * b % 2 ^ 64

def usizeAdd (a b : ℕ) : ℕ := (a + b) % 2 ^ 64

def usizeSub (a b : ℕ) : ℕ := (2 ^ 64 + a - b) % 2 ^ 64

/-- The low bits of the hash, which choose the bucket. -/
def h1 (hash : Word) : ℕ := hash.toNat

/-- The top seven bits of the hash. -/
def h2 (hash : Word) : Byte := (hash >>> 57).setWidth 8

namespace Group

/-- Some bytes from a position on, as a word. -/
def loadBytes (bytes : ℕ → Byte) : ℕ → ℕ → Word
  | 0, _ => 0
  | n + 1, pos => loadBytes bytes n (pos + 1) <<< 8 ||| (bytes pos).setWidth 64

def load (bytes : ℕ → Byte) (pos : ℕ) : Word := loadBytes bytes groupWidth pos

/-- A byte in every place of a word. -/
def repeatByte (byte : Byte) : Word := load (fun _ => byte) 0

/-- The places whose byte may be the one looked for: all that are, and possibly more. -/
def matchByte (group : Word) (byte : Byte) : Word :=
  let cmp := group ^^^ repeatByte byte
  (cmp - repeatByte 0x01) &&& ~~~cmp &&& repeatByte 0x80

def matchEmpty (group : Word) : Word := group &&& repeatByte 0x80

def matchFull (group : Word) : Word := ~~~group &&& repeatByte 0x80

end Group

namespace BitMask

def shift : ℕ := 3

def lowest (mask : Word) : Option ℕ := if mask = 0#64 then none else some (trailingZeros mask >>> shift)

/-- The places of a mask, each taken as the lowest one and cleared. -/
def iter (mask : Word) : List ℕ := (pops 64 mask).map (· >>> shift)

end BitMask

structure ProbeSeq where
  pos : ℕ
  stride : ℕ

namespace ProbeSeq

def new (hash : Word) (mask : ℕ) : ProbeSeq := ⟨h1 hash &&& mask, 0⟩

def moveNext (probe : ProbeSeq) (mask : ℕ) : ProbeSeq :=
  ⟨(probe.pos + (probe.stride + groupWidth)) &&& mask, probe.stride + groupWidth⟩

end ProbeSeq

/-- The least power of two that is not below a number. -/
def nextPowerOfTwo (n : ℕ) : ℕ := if n ≤ 1 then 1 else 2 ^ ((n - 1).log2 + 1)

/-- How many elements a table of so many buckets may hold. -/
def capacityFor (buckets : ℕ) : ℕ := buckets / 8 * 7

/-- How many buckets so many elements need. The product wraps. -/
def bucketsFor (capacity : ℕ) : ℕ :=
  if capacity = 0 then 0 else max (nextPowerOfTwo (usizeMul capacity 8 / 7)) minBuckets

section Words

variable {bytes : ℕ → Byte} {pos b i : ℕ} {byte : Byte} {word cmp : Word}

theorem getLsbD_loadBytes {n : ℕ} (inside : i < 64) :
    (Group.loadBytes bytes n pos).getLsbD i = (decide (i < 8 * n) && (bytes (pos + i / 8)).getLsbD (i % 8)) := by
  induction n generalizing pos i with
  | zero => simp [Group.loadBytes]
  | succ n ih =>
    rw [Group.loadBytes, BitVec.getLsbD_or, BitVec.getLsbD_shiftLeft, BitVec.getLsbD_setWidth]
    by_cases first : i < 8
    · simp [first, inside, Nat.div_eq_of_lt first, Nat.mod_eq_of_lt first, show i < 8 * (n + 1) by omega]
    · obtain ⟨j, rfl⟩ := Nat.exists_eq_add_of_le (Nat.le_of_not_lt first)
      have beyond : (bytes pos).getLsbD (8 + j) = false := BitVec.getLsbD_of_ge _ _ (by omega)
      rw [Nat.add_sub_cancel_left, ih (by omega), beyond, Nat.add_mod_left, show (8 + j) / 8 = j / 8 + 1 by omega,
        show pos + (j / 8 + 1) = pos + 1 + j / 8 by omega]
      simp [inside, show 8 + j < 8 * (n + 1) ↔ j < 8 * n by omega]

theorem getLsbD_load : (Group.load bytes pos).getLsbD i = (decide (i < 64) && (bytes (pos + i / 8)).getLsbD (i % 8)) := by
  by_cases inside : i < 64
  · rw [Group.load, getLsbD_loadBytes inside]
    rfl
  · simp [inside, BitVec.getLsbD_of_ge _ _ (Nat.le_of_not_lt inside)]

theorem getLsbD_repeatByte : (Group.repeatByte byte).getLsbD i = (decide (i < 64) && byte.getLsbD (i % 8)) := getLsbD_load

/-- The highest bit of each byte. -/
theorem getLsbD_highBits : (Group.repeatByte 0x80).getLsbD i = (decide (i < 64) && decide (i % 8 = 7)) := by
  rw [getLsbD_repeatByte]
  have small : i % 8 < 8 := Nat.mod_lt _ (by omega)
  generalize i % 8 = j at small ⊢
  interval_cases j <;> rfl

theorem bit_of_place (inside : b < 8) : 8 * b + 7 < 64 ∧ (8 * b + 7) / 8 = b ∧ (8 * b + 7) % 8 = 7 := by omega

/-- The places of a mask that keeps the highest bit of each byte. -/
theorem ones_highBits : ones (word &&& Group.repeatByte 0x80) =
    ((List.range 8).filter fun b => word.getLsbD (8 * b + 7)).map fun b => 8 * b + 7 := by
  refine List.Pairwise.eq_of_mem_iff sorted_ones ?_ fun i => ?_
  · exact (List.pairwise_lt_range.filter _).map _ fun a b less => by omega
  · rw [mem_ones, BitVec.getLsbD_and, getLsbD_highBits]
    simp only [Bool.and_eq_true, decide_eq_true_eq, List.mem_map, List.mem_filter, List.mem_range]
    constructor
    · rintro ⟨isSet, inside, last⟩
      refine ⟨i / 8, ⟨by omega, ?_⟩, by omega⟩
      rwa [show 8 * (i / 8) + 7 = i by omega]
    · rintro ⟨b, ⟨inside, isSet⟩, rfl⟩
      exact ⟨isSet, by omega, by omega⟩

theorem iter_highBits : BitMask.iter (word &&& Group.repeatByte 0x80) = (List.range 8).filter fun b => word.getLsbD (8 * b + 7) := by
  have few : (ones (word &&& Group.repeatByte 0x80)).length ≤ 64 := (List.length_filter_le _ _).trans (by simp)
  rw [BitMask.iter, pops_eq_ones few, ones_highBits, List.map_map]
  refine (List.map_congr_left fun b _ => ?_).trans (List.map_id _)
  simp only [Function.comp_apply, BitMask.shift, Nat.shiftRight_eq_div_pow, id_eq]
  omega

/-- The lowest place is the first that the iterator yields. -/
theorem lowest_eq_head? : BitMask.lowest word = (BitMask.iter word).head? := by
  unfold BitMask.lowest BitMask.iter
  rw [pops]
  split_ifs <;> rfl

theorem high_load (inside : b < 8) : (Group.load bytes pos).getLsbD (8 * b + 7) = (bytes (pos + b)).msb := by
  obtain ⟨less, place, last⟩ := bit_of_place inside
  rw [getLsbD_load, place, last, BitVec.msb_eq_getLsbD_last]
  simp [less]

/-- The lowest empty place of a group, which is there if and only if the mask is not zero. -/
theorem lowest_matchEmpty : BitMask.lowest (Group.matchEmpty (Group.load bytes pos)) =
    (List.range 8).find? fun b => (bytes (pos + b)).msb := by
  rw [lowest_eq_head?, Group.matchEmpty, iter_highBits, ← List.head?_filter]
  refine congrArg List.head? (List.filter_congr fun b member => ?_)
  rw [high_load (List.mem_range.mp member)]

theorem iter_matchFull : BitMask.iter (Group.matchFull (Group.load bytes pos)) =
    (List.range 8).filter fun b => !(bytes (pos + b)).msb := by
  rw [Group.matchFull, iter_highBits]
  refine List.filter_congr fun b member => ?_
  have inside := List.mem_range.mp member
  rw [BitVec.getLsbD_not, high_load inside]
  simp [(bit_of_place inside).1]

/-- Taking one off every byte sets the highest bit of a byte that is zero, whatever it borrows. -/
theorem high_sub_of_zero (inside : b < 8) (zero : ∀ j < 8, cmp.getLsbD (8 * b + j) = false) :
    (cmp - Group.repeatByte 0x01).getLsbD (8 * b + 7) = true := by
  have low : cmp.toNat / 2 ^ (8 * b) % 2 ^ 8 = 0 := by
    refine Nat.eq_of_testBit_eq fun j => ?_
    rw [Nat.testBit_mod_two_pow, Nat.testBit_div_two_pow, Nat.zero_testBit]
    by_cases less : j < 8
    · have bit : cmp.toNat.testBit (8 * b + j) = false := zero j less
      simp [bit, Nat.add_comm j]
    · simp [less]
  have value : (Group.repeatByte 0x01).toNat = 0x0101010101010101 := by decide
  have bound := cmp.isLt
  change (cmp - Group.repeatByte 0x01).toNat.testBit (8 * b + 7) = true
  rw [BitVec.toNat_sub, value, Nat.testBit_eq_decide_div_mod_eq, decide_eq_true_eq]
  interval_cases b <;> omega

/-- A place that holds the byte is among those found. -/
theorem mem_matchByte (inside : b < 8) (holds : bytes (pos + b) = byte) :
    b ∈ BitMask.iter (Group.matchByte (Group.load bytes pos) byte) := by
  have zero : ∀ j < 8, (Group.load bytes pos ^^^ Group.repeatByte byte).getLsbD (8 * b + j) = false := by
    intro j less
    rw [BitVec.getLsbD_xor, getLsbD_load, getLsbD_repeatByte, show (8 * b + j) / 8 = b by omega,
      show (8 * b + j) % 8 = j by omega, holds, Bool.xor_self]
  unfold Group.matchByte
  rw [iter_highBits, List.mem_filter, List.mem_range]
  refine ⟨inside, ?_⟩
  rw [BitVec.getLsbD_and, high_sub_of_zero inside zero, BitVec.getLsbD_not, zero 7 (by omega)]
  simp [(bit_of_place inside).1]

/-- No place found is empty. -/
theorem full_of_mem_matchByte (short : byte.msb = false) (found : b ∈ BitMask.iter (Group.matchByte (Group.load bytes pos) byte)) :
    b < 8 ∧ (bytes (pos + b)).msb = false := by
  unfold Group.matchByte at found
  rw [iter_highBits, List.mem_filter, List.mem_range] at found
  obtain ⟨inside, found⟩ := found
  obtain ⟨less, place, last⟩ := bit_of_place inside
  rw [BitVec.getLsbD_and, BitVec.getLsbD_not, BitVec.getLsbD_xor, high_load inside, getLsbD_repeatByte, last] at found
  have top : byte.getLsbD 7 = false := by rw [← short, BitVec.msb_eq_getLsbD_last]
  rw [top] at found
  refine ⟨inside, ?_⟩
  simp only [Bool.and_eq_true, Bool.not_eq_true', less, decide_true, Bool.true_and, Bool.and_false, Bool.xor_false] at found
  exact found.2

theorem msb_h2 (hash : Word) : (h2 hash).msb = false := by
  rw [h2, BitVec.msb_eq_getLsbD_last, BitVec.getLsbD_setWidth, BitVec.getLsbD_ushiftRight]
  simp

end Words

section Sizing

variable {n k cap : ℕ}

theorem le_nextPowerOfTwo : n ≤ nextPowerOfTwo n := by
  unfold nextPowerOfTwo
  split_ifs with small
  · exact small
  · have := Nat.lt_log2_self (n := n - 1)
    omega

theorem nextPowerOfTwo_le (fits : n ≤ 2 ^ k) : nextPowerOfTwo n ≤ 2 ^ k := by
  unfold nextPowerOfTwo
  split_ifs with small
  · exact Nat.one_le_two_pow
  · have := (Nat.log2_lt (by omega : n - 1 ≠ 0)).mpr (by omega : n - 1 < 2 ^ k)
    exact Nat.pow_le_pow_right (by omega) this

theorem exists_nextPowerOfTwo (n : ℕ) : ∃ k, nextPowerOfTwo n = 2 ^ k := by
  unfold nextPowerOfTwo
  split_ifs
  · exact ⟨0, rfl⟩
  · exact ⟨_, rfl⟩

/-- The bucket count is a power of two of at least a group. -/
theorem exists_bucketsFor (some : n ≠ 0) : ∃ k, bucketsFor n = 2 ^ k ∧ 3 ≤ k := by
  obtain ⟨k, power⟩ := exists_nextPowerOfTwo (usizeMul n 8 / 7)
  refine ⟨max k 3, ?_, by omega⟩
  rw [bucketsFor, if_neg some, power, minBuckets, groupWidth]
  rcases Nat.le_total k 3 with le | le
  · have := Nat.pow_le_pow_right (n := 2) (by omega) le
    rw [Nat.max_eq_right le]
    omega
  · have := Nat.pow_le_pow_right (n := 2) (by omega) le
    rw [Nat.max_eq_left le]
    omega

/-- Unless the product wraps, the buckets have room for the elements. -/
theorem le_capacityFor_bucketsFor (fits : n < 2 ^ 61) : n ≤ capacityFor (bucketsFor n) := by
  by_cases zero : n = 0
  · omega
  · obtain ⟨k, power, three⟩ := exists_bucketsFor zero
    have wide : n * 8 / 7 ≤ bucketsFor n := by
      rw [bucketsFor, if_neg zero, usizeMul, Nat.mod_eq_of_lt (by omega)]
      exact le_nextPowerOfTwo.trans (Nat.le_max_left _ _)
    obtain ⟨m, rfl⟩ := Nat.exists_eq_add_of_le three
    rw [power] at wide ⊢
    rw [capacityFor, Nat.pow_add]
    rw [Nat.pow_add] at wide
    omega

end Sizing

section Probe

variable {m p : ℕ} {hash : Word}

/-- Where a probe is after so many moves. -/
def probeAt (cap : ℕ) (hash : Word) (k : ℕ) : ℕ := (hash.toNat + groupWidth * Triangular.tri k) % cap

theorem probe_iterate (power : cap = 2 ^ m) (k : ℕ) :
    ((fun probe : ProbeSeq => probe.moveNext (cap - 1))^[k] (ProbeSeq.new hash (cap - 1))) = ⟨probeAt cap hash k, groupWidth * k⟩ := by
  induction k with
  | zero => simp [ProbeSeq.new, probeAt, h1, power, Nat.and_two_pow_sub_one_eq_mod]
  | succ k ih =>
    rw [Function.iterate_succ_apply', ih, ProbeSeq.moveNext, power, Nat.and_two_pow_sub_one_eq_mod]
    refine congrArg₂ ProbeSeq.mk ?_ (by ring)
    rw [probeAt, probeAt, Nat.mod_add_mod, Triangular.tri_succ]
    ring_nf

/-- Some group of the probe, before it has met as many groups as there are, takes in a given bucket. -/
theorem exists_group (power : cap = 2 ^ (m + 3)) (hash : Word) (inside : p < cap) :
    ∃ k < 2 ^ m, ∃ b < 8, (probeAt cap hash k + b) % cap = p := by
  obtain ⟨start, less, same⟩ : ∃ start < cap, hash.toNat % cap = start := ⟨_, Nat.mod_lt _ (by omega), rfl⟩
  have double : cap = 8 * 2 ^ m := by rw [power, Nat.pow_add, Nat.mul_comm]
  obtain ⟨q, b, few, ahead⟩ : ∃ q b, b < 8 ∧ (cap + p - start) % cap = 8 * q + b :=
    ⟨(cap + p - start) % cap / 8, (cap + p - start) % cap % 8, by omega, by omega⟩
  have below : q < 2 ^ m := by
    have := Nat.mod_lt (cap + p - start) (by omega : cap > 0)
    omega
  obtain ⟨k, early, isQ⟩ := Triangular.exists_tri below
  refine ⟨k, early, b, few, ?_⟩
  have around : groupWidth * Triangular.tri k % cap = 8 * q := by
    rw [groupWidth, double, Nat.mul_mod_mul_left, isQ]
  have reaches : (start + (8 * q + b)) % cap = p := by
    rw [← ahead, Nat.add_mod_mod, show start + (cap + p - start) = p + cap by omega, Nat.add_mod_right,
      Nat.mod_eq_of_lt inside]
  calc (probeAt cap hash k + b) % cap
      = (hash.toNat % cap + groupWidth * Triangular.tri k % cap + b) % cap := by
        rw [probeAt, Nat.add_mod hash.toNat, Nat.mod_add_mod]
    _ = (start + (8 * q + b)) % cap := by rw [same, around, Nat.add_assoc]
    _ = p := reaches

end Probe

end Ctadl.Hybrid
