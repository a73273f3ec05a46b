import Mathlib.Data.List.Basic
import Mathlib.Tactic.Common

/-! # UTF-16

A scalar value is one code unit, or a high surrogate and the low one after it. A list of code units is the encoding of
scalar values exactly if every surrogate in it is one of a pair, and then of one list of them.
-/

namespace Ctadl.Collections.Utf16

def isHigh (unit : UInt16) : Bool := 0xD800 ≤ unit.toNat && unit.toNat < 0xDC00

def isLow (unit : UInt16) : Bool := 0xDC00 ≤ unit.toNat && unit.toNat < 0xE000

/-- The code units of a scalar value. -/
def encodeChar (c : Char) : List UInt16 :=
  if c.toNat < 0x10000 then [UInt16.ofNat c.toNat]
  else [UInt16.ofNat (0xD800 + (c.toNat - 0x10000) / 0x400), UInt16.ofNat (0xDC00 + (c.toNat - 0x10000) % 0x400)]

def encode (cs : List Char) : List UInt16 := cs.flatMap encodeChar

/-- The scalar value of a pair. -/
def combine (high low : UInt16) : Char := Char.ofNat (0x10000 + (high.toNat - 0xD800) * 0x400 + (low.toNat - 0xDC00))

/-- The scalar values, where every surrogate is one of a pair. -/
def decode : List UInt16 → Option (List Char)
  | [] => some []
  | unit :: rest =>
    if isHigh unit then
      match rest with
      | low :: rest => if isLow low then (decode rest).map (combine unit low :: ·) else none
      | [] => none
    else if isLow unit then none
    else (decode rest).map (Char.ofNat unit.toNat :: ·)

/-- Every surrogate is one of a pair: a high one stands before a low one, and a low one behind a high one. -/
def Paired (units : List UInt16) : Prop :=
  (∀ i high, units[i]? = some high → isHigh high → ∃ low, units[i + 1]? = some low ∧ isLow low) ∧
    ∀ i low, units[i]? = some low → isLow low → ∃ j high, i = j + 1 ∧ units[j]? = some high ∧ isHigh high

section Decoding

variable {unit high low : UInt16} {rest units : List UInt16} {cs : List Char}

theorem not_isLow_of_isHigh (surrogate : isHigh unit) : isLow unit = false := by
  simp only [isHigh, isLow, Bool.and_eq_true, decide_eq_true_eq, Bool.and_eq_false_iff, decide_eq_false_iff_not] at *
  omega

private theorem toNat_ofNat {n : ℕ} (valid : n.isValidChar) : (Char.ofNat n).toNat = n := by
  rw [Char.ofNat, dif_pos valid]
  exact UInt32.toNat_ofNatLT

theorem encodeChar_combine (isHigh : isHigh high) (isLow : isLow low) : encodeChar (combine high low) = [high, low] := by
  simp only [Utf16.isHigh, Utf16.isLow, Bool.and_eq_true, decide_eq_true_eq] at isHigh isLow
  have valid : (0x10000 + (high.toNat - 0xD800) * 0x400 + (low.toNat - 0xDC00)).isValidChar := by
    right
    omega
  have value : (combine high low).toNat = 0x10000 + (high.toNat - 0xD800) * 0x400 + (low.toNat - 0xDC00) := by
    rw [combine, toNat_ofNat valid]
  rw [encodeChar, value, if_neg (by omega)]
  have first : 0xD800 + (0x10000 + (high.toNat - 0xD800) * 0x400 + (low.toNat - 0xDC00) - 0x10000) / 0x400 = high.toNat := by
    omega
  have second : 0xDC00 + (0x10000 + (high.toNat - 0xD800) * 0x400 + (low.toNat - 0xDC00) - 0x10000) % 0x400 = low.toNat := by
    omega
  rw [first, second, UInt16.ofNat_toNat, UInt16.ofNat_toNat]

theorem encodeChar_ofNat (notHigh : isHigh unit = false) (notLow : isLow unit = false) :
    encodeChar (Char.ofNat unit.toNat) = [unit] := by
  have bound := unit.toNat_lt
  simp only [isHigh, isLow, Bool.and_eq_false_iff, decide_eq_false_iff_not] at notHigh notLow
  have valid : unit.toNat.isValidChar := by
    rcases Nat.lt_or_ge unit.toNat 0xD800 with below | above
    · exact .inl below
    · right
      omega
  rw [encodeChar, toNat_ofNat valid, if_pos (by omega), UInt16.ofNat_toNat]

/-- What is decoded encodes to what it was decoded from. -/
theorem encode_decode (decoded : decode units = some cs) : encode cs = units := by
  fun_induction decode units generalizing cs with
  | case1 =>
    obtain rfl := Option.some.inj decoded
    rfl
  | case2 unit surrogate low rest pair ih =>
    obtain ⟨tail, known, rfl⟩ := Option.map_eq_some_iff.mp decoded
    rw [encode, List.flatMap_cons, encodeChar_combine surrogate pair]
    exact congrArg (unit :: low :: ·) (ih known)
  | case3 => exact nomatch decoded
  | case4 => exact nomatch decoded
  | case5 => exact nomatch decoded
  | case6 unit rest notHigh notLow ih =>
    obtain ⟨tail, known, rfl⟩ := Option.map_eq_some_iff.mp decoded
    rw [encode, List.flatMap_cons, encodeChar_ofNat (by simpa using notHigh) (by simpa using notLow)]
    exact congrArg (unit :: ·) (ih known)

/-- A unit that is no surrogate pairs with nothing. -/
private theorem paired_cons (notHigh : isHigh unit = false) (notLow : isLow unit = false) :
    Paired (unit :: rest) ↔ Paired rest := by
  constructor
  · rintro ⟨highs, lows⟩
    refine ⟨fun i high here => highs (i + 1) high here, fun i low here isLow => ?_⟩
    obtain ⟨j, high, behind, there, isHigh⟩ := lows (i + 1) low here isLow
    cases j with
    | zero =>
      obtain rfl : unit = high := Option.some.inj there
      exact nomatch notHigh.symm.trans isHigh
    | succ j => exact ⟨j, high, by omega, there, isHigh⟩
  · rintro ⟨highs, lows⟩
    constructor
    · rintro (_ | i) high here isHigh
      · obtain rfl : unit = high := Option.some.inj here
        exact nomatch notHigh.symm.trans isHigh
      · exact highs i high here isHigh
    · rintro (_ | i) low here isLow
      · obtain rfl : unit = low := Option.some.inj here
        exact nomatch notLow.symm.trans isLow
      · obtain ⟨j, high, behind, there, isHigh⟩ := lows i low here isLow
        exact ⟨j + 1, high, by omega, there, isHigh⟩

private theorem paired_pair (surrogate : isHigh high) (pair : isLow low) : Paired (high :: low :: rest) ↔ Paired rest := by
  have notHigh : isHigh low = false := by
    cases shape : isHigh low with
    | false => rfl
    | true => exact nomatch (not_isLow_of_isHigh shape).symm.trans pair
  constructor
  · rintro ⟨highs, lows⟩
    refine ⟨fun i unit here => highs (i + 2) unit here, fun i unit here isLow => ?_⟩
    obtain ⟨j, unit', behind, there, isHigh⟩ := lows (i + 2) unit here isLow
    match j with
    | 0 => omega
    | 1 =>
      obtain rfl : low = unit' := Option.some.inj there
      exact nomatch notHigh.symm.trans isHigh
    | j + 2 => exact ⟨j, unit', by omega, there, isHigh⟩
  · rintro ⟨highs, lows⟩
    constructor
    · rintro (_ | _ | i) unit here isHigh
      · exact ⟨low, rfl, pair⟩
      · obtain rfl : low = unit := Option.some.inj here
        exact nomatch notHigh.symm.trans isHigh
      · exact highs i unit here isHigh
    · rintro (_ | _ | i) unit here isLow
      · obtain rfl : high = unit := Option.some.inj here
        exact nomatch (not_isLow_of_isHigh surrogate).symm.trans isLow
      · exact ⟨0, high, rfl, rfl, surrogate⟩
      · obtain ⟨j, unit', behind, there, isHigh⟩ := lows i unit here isLow
        exact ⟨j + 2, unit', by omega, there, isHigh⟩

/-- A list of code units decodes exactly if every surrogate in it is one of a pair. -/
theorem isSome_decode : (decode units).isSome ↔ Paired units := by
  fun_induction decode units with
  | case1 => exact iff_of_true rfl ⟨nofun, nofun⟩
  | case2 unit surrogate low rest pair ih =>
    rw [Option.isSome_map, ih, paired_pair surrogate pair]
  | case3 unit surrogate low rest apart =>
    refine iff_of_false nofun fun paired => ?_
    obtain ⟨low', next, isLow'⟩ := paired.1 0 unit rfl surrogate
    obtain rfl : low = low' := Option.some.inj next
    exact apart isLow'
  | case4 unit surrogate =>
    refine iff_of_false nofun fun paired => ?_
    obtain ⟨low, next, -⟩ := paired.1 0 unit rfl surrogate
    exact nomatch next
  | case5 unit rest notHigh low =>
    refine iff_of_false nofun fun paired => ?_
    obtain ⟨j, high, impossible, -⟩ := paired.2 0 unit rfl low
    exact nomatch impossible
  | case6 unit rest notHigh notLow ih =>
    rw [Option.isSome_map, ih, paired_cons (by simpa using notHigh) (by simpa using notLow)]

/-- Encoding loses nothing. -/
theorem decode_encode : decode (encode cs) = some cs := by
  induction cs with
  | nil => rfl
  | cons c cs ih =>
    rw [encode, List.flatMap_cons]
    change decode (encodeChar c ++ encode cs) = _
    rcases Nat.lt_or_ge c.toNat 0x10000 with plain | wide
    · have unit : (UInt16.ofNat c.toNat).toNat = c.toNat := UInt16.toNat_ofNat_of_lt' plain
      have valid : c.toNat < 0xD800 ∨ 0xDFFF < c.toNat := c.valid.imp id And.left
      have notHigh : isHigh (UInt16.ofNat c.toNat) = false := by
        simp only [isHigh, unit, Bool.and_eq_false_iff, decide_eq_false_iff_not]
        omega
      have notLow : isLow (UInt16.ofNat c.toNat) = false := by
        simp only [isLow, unit, Bool.and_eq_false_iff, decide_eq_false_iff_not]
        omega
      rw [encodeChar, if_pos plain, List.singleton_append, decode.eq_def]
      simp only [notHigh, notLow, ih, unit, Char.ofNat_toNat, Bool.false_eq_true, if_false, Option.map_some]
    · have bound : c.toNat < 0x110000 := by
        have valid : c.toNat.isValidChar := c.valid
        simp only [Nat.isValidChar] at valid
        omega
      have size : UInt16.size = 0x10000 := rfl
      have high : (UInt16.ofNat (0xD800 + (c.toNat - 0x10000) / 0x400)).toNat = 0xD800 + (c.toNat - 0x10000) / 0x400 :=
        UInt16.toNat_ofNat_of_lt' (by omega)
      have low : (UInt16.ofNat (0xDC00 + (c.toNat - 0x10000) % 0x400)).toNat = 0xDC00 + (c.toNat - 0x10000) % 0x400 :=
        UInt16.toNat_ofNat_of_lt' (by omega)
      have first : isHigh (UInt16.ofNat (0xD800 + (c.toNat - 0x10000) / 0x400)) = true := by
        simp only [isHigh, high, Bool.and_eq_true, decide_eq_true_eq]
        omega
      have second : isLow (UInt16.ofNat (0xDC00 + (c.toNat - 0x10000) % 0x400)) = true := by
        simp only [isLow, low, Bool.and_eq_true, decide_eq_true_eq]
        omega
      have value : 0x10000 + (0xD800 + (c.toNat - 0x10000) / 0x400 - 0xD800) * 0x400 +
          (0xDC00 + (c.toNat - 0x10000) % 0x400 - 0xDC00) = c.toNat := by
        omega
      rw [encodeChar, if_neg (by omega), List.cons_append, List.singleton_append, decode.eq_def]
      simp only [first, second, ih, combine, high, low, value, Char.ofNat_toNat, if_true, Option.map_some]

theorem encode_injective : Function.Injective encode := fun _ _ same =>
  Option.some.inj (decode_encode.symm.trans ((congrArg decode same).trans decode_encode))

end Decoding

end Ctadl.Collections.Utf16
