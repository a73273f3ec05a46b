import Ctadl.Collections.Utf16
import Mathlib.Algebra.Group.Nat.Defs

/-! # Strings of a Dex file

A `string_data_item` is a count, the modified UTF-8 of UTF-16 code units, and a zero byte. Every one-, two- or three-byte
sequence is one code unit. The decoder takes the length of a sequence from its lead byte and masks the bytes behind the lead
without asking whether they continue it.
-/

namespace Ctadl.Dex

open Collections

inductive DexError
  | invalidLeb128
  | outOfBounds (offset size len : ℕ)
  | malformedUtf8 (stringIndex : Option ℕ) (offset : ℕ) (byte : UInt8)
  | unpairedSurrogate (stringIndex : Option ℕ) (index : ℕ) (codeUnit : UInt16)
deriving DecidableEq, Repr

/-- The count so far, the bits of the next byte at `shift`. -/
def readUleb128From (data : List UInt8) : ℕ → UInt32 → ℕ → ℕ → Except DexError (UInt32 × ℕ)
  | 0, _, _, _ => .error .invalidLeb128
  | fuel + 1, result, shift, pos =>
    match data[pos]? with
    | none => .error .invalidLeb128
    | some byte =>
      let result := result ||| (byte &&& 0x7f).toUInt32 <<< UInt32.ofNat shift
      if byte &&& 0x80 = 0 then .ok (result, pos + 1)
      else readUleb128From data fuel result (shift + 7) (pos + 1)

def readUleb128 (data : List UInt8) (offset : ℕ) : Except DexError (UInt32 × ℕ) := readUleb128From data 5 0 0 offset

/-- The code units of the bytes from offset `i` on. -/
def decodeUnitsFrom : ℕ → List UInt8 → Except DexError (List UInt16)
  | _, [] => .ok []
  | i, byte :: rest =>
    if byte &&& 0x80 = 0 then
      -- a raw zero byte is a terminator that leaked into the payload
      if byte = 0 then .error (.malformedUtf8 none i byte)
      else (decodeUnitsFrom (i + 1) rest).map (byte.toUInt16 :: ·)
    else if byte &&& 0xE0 = 0xC0 then
      match rest with
      | [] => .error (.malformedUtf8 none i byte)
      | b2 :: rest =>
        let unit : UInt16 := if byte = 0xC0 ∧ b2 = 0x80 then 0 else (byte &&& 0x1F).toUInt16 <<< 6 ||| (b2 &&& 0x3F).toUInt16
        (decodeUnitsFrom (i + 2) rest).map (unit :: ·)
    else if byte &&& 0xF0 = 0xE0 then
      match rest with
      | b2 :: b3 :: rest =>
        let unit : UInt16 := (byte &&& 0x0F).toUInt16 <<< 12 ||| (b2 &&& 0x3F).toUInt16 <<< 6 ||| (b3 &&& 0x3F).toUInt16
        (decodeUnitsFrom (i + 3) rest).map (unit :: ·)
      | _ => .error (.malformedUtf8 none i byte)
    else .error (.malformedUtf8 none i byte)

def decodeModifiedUtf8CodeUnits (data : List UInt8) : Except DexError (List UInt16) := decodeUnitsFrom 0 data

inductive DexString
  /-- Every code unit is a scalar value, surrogates paired. -/
  | utf8 (s : String)
  /-- Holds unpaired surrogates. -/
  | utf16 (units : List UInt16)
deriving DecidableEq

/-- Position and value of the first unpaired surrogate, the units starting at position `i`. -/
def firstUnpairedFrom : ℕ → List UInt16 → Option (ℕ × UInt16)
  | _, [] => none
  | i, unit :: rest =>
    if Utf16.isHigh unit then
      match rest with
      | low :: rest => if Utf16.isLow low then firstUnpairedFrom (i + 2) rest else some (i, unit)
      | [] => some (i, unit)
    else if Utf16.isLow unit then some (i, unit)
    else firstUnpairedFrom (i + 1) rest

def firstUnpairedSurrogate (units : List UInt16) : Option (ℕ × UInt16) := firstUnpairedFrom 0 units

namespace DexString

def fromCodeUnits (units : List UInt16) : DexString :=
  match Utf16.decode units with
  | some cs => utf8 (String.ofList cs)
  | none => utf16 units

def asStr : DexString → Option String
  | utf8 s => some s
  | utf16 _ => none

def codeUnits : DexString → List UInt16
  | utf8 s => Utf16.encode s.toList
  | utf16 units => units

def lenUtf16 : DexString → ℕ
  | utf8 s => (Utf16.encode s.toList).length
  | utf16 units => units.length

def asStrOrErr : DexString → Except DexError String
  | utf8 s => .ok s
  | utf16 units =>
    let (index, codeUnit) := (firstUnpairedSurrogate units).getD (0, 0)
    .error (.unpairedSurrogate none index codeUnit)

end DexString

/-- The offset of the terminator. -/
def scanEnd (data : List UInt8) (stop : ℕ) : Except DexError ℕ :=
  match _here : data[stop]? with
  | none => .error (.outOfBounds stop 1 data.length)
  | some byte => if byte = 0 then .ok stop else scanEnd data (stop + 1)
termination_by data.length - stop
decreasing_by
  have := (List.getElem?_eq_some_iff.mp _here).1
  omega

/-- The string, the count before it, and the offset past its terminator. -/
def readStringDataItem (data : List UInt8) (offset : ℕ) : Except DexError (DexString × UInt32 × ℕ) := do
  let (utf16Len, start) ← readUleb128 data offset
  let stop ← scanEnd data start
  let units ← decodeModifiedUtf8CodeUnits ((data.take stop).drop start)
  return (DexString.fromCodeUnits units, utf16Len, stop + 1)

/-! ## The format -/

/-- A ULEB128 count: seven bits a byte, the low ones first, the top bit on all bytes but the last. -/
def encodeUleb128 (n : ℕ) : List UInt8 :=
  if n < 128 then [UInt8.ofNat n] else UInt8.ofNat (128 + n % 128) :: encodeUleb128 (n / 128)
termination_by n

/-- The modified UTF-8 of a code unit. Zero takes two bytes. -/
def encodeUnit (unit : UInt16) : List UInt8 :=
  let n := unit.toNat
  if 0 < n ∧ n < 0x80 then [UInt8.ofNat n]
  else if n < 0x800 then [UInt8.ofNat (0xC0 + n / 0x40), UInt8.ofNat (0x80 + n % 0x40)]
  else [UInt8.ofNat (0xE0 + n / 0x1000), UInt8.ofNat (0x80 + n / 0x40 % 0x40), UInt8.ofNat (0x80 + n % 0x40)]

def encodeModifiedUtf8 (units : List UInt16) : List UInt8 := units.flatMap encodeUnit

/-- A string's item. The count is not looked at when the item is read. -/
def stringDataItem (count : UInt32) (units : List UInt16) : List UInt8 :=
  encodeUleb128 count.toNat ++ encodeModifiedUtf8 units ++ [0]

/-- The bytes `10xxxxxx`. -/
def IsContinuation (byte : UInt8) : Prop := 0x80 ≤ byte.toNat ∧ byte.toNat < 0xC0

instance : DecidablePred IsContinuation := fun _ => inferInstanceAs (Decidable (_ ∧ _))

/-- Concatenations of well-formed one-, two- and three-byte sequences, none of them a zero byte. -/
inductive WellFormed : List UInt8 → Prop
  | nil : WellFormed []
  | one {lead : UInt8} {rest : List UInt8} : 0 < lead.toNat → lead.toNat < 0x80 → WellFormed rest → WellFormed (lead :: rest)
  | two {lead b2 : UInt8} {rest : List UInt8} : 0xC0 ≤ lead.toNat → lead.toNat < 0xE0 → IsContinuation b2 → WellFormed rest →
      WellFormed (lead :: b2 :: rest)
  | three {lead b2 b3 : UInt8} {rest : List UInt8} : 0xE0 ≤ lead.toNat → lead.toNat < 0xF0 → IsContinuation b2 →
      IsContinuation b3 → WellFormed rest → WellFormed (lead :: b2 :: b3 :: rest)

/-- How many bytes a lead byte calls for behind it. -/
def followers (lead : UInt8) : Option ℕ :=
  if lead = 0 then none
  else if lead.toNat < 0x80 then some 0
  else if lead.toNat < 0xC0 then none
  else if lead.toNat < 0xE0 then some 1
  else if lead.toNat < 0xF0 then some 2
  else none

/-- The bytes behind the leads, where each lead has as many as it calls for. -/
def behindLeads : List UInt8 → Option (List UInt8)
  | [] => some []
  | lead :: rest =>
    match followers lead, rest with
    | some 0, rest => behindLeads rest
    | some 1, b2 :: rest => (behindLeads rest).map (b2 :: ·)
    | some 2, b2 :: b3 :: rest => (behindLeads rest).map (b2 :: b3 :: ·)
    | _, _ => none

section Masks

/-- A fact of every byte. -/
private theorem of_all_bytes {P : UInt8 → Prop} (all : ∀ n : Fin 256, P (UInt8.ofNat n)) (byte : UInt8) : P byte := by
  have this := all ⟨byte.toNat, byte.toNat_lt⟩
  rwa [UInt8.ofNat_toNat] at this

private theorem masks (byte : UInt8) : (byte &&& 0x80 = 0 ↔ byte.toNat < 0x80) ∧
    (byte &&& 0xE0 = 0xC0 ↔ 0xC0 ≤ byte.toNat ∧ byte.toNat < 0xE0) ∧
    (byte &&& 0xF0 = 0xE0 ↔ 0xE0 ≤ byte.toNat ∧ byte.toNat < 0xF0) := by
  revert byte
  apply of_all_bytes
  decide +kernel

theorem one_mask (byte : UInt8) : byte &&& 0x80 = 0 ↔ byte.toNat < 0x80 :=
  (masks byte).1

theorem two_mask (byte : UInt8) : byte &&& 0xE0 = 0xC0 ↔ 0xC0 ≤ byte.toNat ∧ byte.toNat < 0xE0 :=
  (masks byte).2.1

theorem three_mask (byte : UInt8) : byte &&& 0xF0 = 0xE0 ↔ 0xE0 ≤ byte.toNat ∧ byte.toNat < 0xF0 :=
  (masks byte).2.2

/-- Masking with ones below a power of two. -/
theorem toNat_and_mask (byte : UInt8) : (byte &&& 0x1F).toNat = byte.toNat % 0x20 ∧ (byte &&& 0x0F).toNat = byte.toNat % 0x10 ∧
    (byte &&& 0x3F).toNat = byte.toNat % 0x40 ∧ (byte &&& 0x7F).toNat = byte.toNat % 0x80 := by
  refine ⟨?_, ?_, ?_, ?_⟩
  · exact Nat.and_two_pow_sub_one_eq_mod byte.toNat 5
  · exact Nat.and_two_pow_sub_one_eq_mod byte.toNat 4
  · exact Nat.and_two_pow_sub_one_eq_mod byte.toNat 6
  · exact Nat.and_two_pow_sub_one_eq_mod byte.toNat 7

end Masks

section Decoding

variable {unit : UInt16} {units : List UInt16} {data rest : List UInt8} {i : ℕ}

/-- The lead bytes by their masks. -/
theorem followers_eq (lead : UInt8) : followers lead =
    if lead &&& 0x80 = 0 then if lead = 0 then none else some 0
    else if lead &&& 0xE0 = 0xC0 then some 1
    else if lead &&& 0xF0 = 0xE0 then some 2
    else none := by
  have zero : lead = 0 ↔ lead.toNat = 0 := UInt8.toNat_inj.symm
  simp only [followers, one_mask, two_mask, three_mask, zero]
  split_ifs <;> first | rfl | omega

section Leads

variable {lead b2 b3 : UInt8}

theorem behindLeads_one (lengths : followers lead = some 0) : behindLeads (lead :: rest) = behindLeads rest := by
  rw [behindLeads.eq_def]
  simp only [lengths]

theorem behindLeads_two (lengths : followers lead = some 1) :
    behindLeads (lead :: b2 :: rest) = (behindLeads rest).map (b2 :: ·) := by
  rw [behindLeads.eq_def]
  simp only [lengths]

theorem behindLeads_three (lengths : followers lead = some 2) :
    behindLeads (lead :: b2 :: b3 :: rest) = (behindLeads rest).map (b2 :: b3 :: ·) := by
  rw [behindLeads.eq_def]
  simp only [lengths]

/-- Fewer bytes than the lead calls for, or no lead. -/
theorem behindLeads_cut (short : ∀ n, followers lead = some n → rest.length < n) : behindLeads (lead :: rest) = none := by
  cases known : behindLeads (lead :: rest) with
  | none => rfl
  | some behind =>
    rw [behindLeads.eq_def] at known
    split at known
    · exact nomatch ‹lead :: rest = []›
    rename_i lead' rest' same
    obtain ⟨rfl, rfl⟩ := List.cons.inj same
    split at known
    · exact absurd (short 0 ‹_›) (by omega)
    · exact absurd (short 1 ‹_›) (by simp)
    · exact absurd (short 2 ‹_›) (by simp)
    · exact nomatch known

theorem followers_one : followers lead = some 0 ↔ 0 < lead.toNat ∧ lead.toNat < 0x80 := by
  simp only [followers, ← UInt8.toNat_inj, UInt8.toNat_zero]
  split_ifs <;> simp <;> omega

theorem followers_two : followers lead = some 1 ↔ 0xC0 ≤ lead.toNat ∧ lead.toNat < 0xE0 := by
  simp only [followers, ← UInt8.toNat_inj, UInt8.toNat_zero]
  split_ifs <;> simp <;> omega

theorem followers_three : followers lead = some 2 ↔ 0xE0 ≤ lead.toNat ∧ lead.toNat < 0xF0 := by
  simp only [followers, ← UInt8.toNat_inj, UInt8.toNat_zero]
  split_ifs <;> simp <;> omega

end Leads

private theorem map_isOk {f : List UInt16 → List UInt16} {x : Except DexError (List UInt16)} :
    (∃ units, x.map f = .ok units) ↔ ∃ units, x = .ok units := by
  cases x with
  | error e => exact iff_of_false (fun ⟨_, h⟩ => nomatch h) (fun ⟨_, h⟩ => nomatch h)
  | ok units => exact iff_of_true ⟨_, rfl⟩ ⟨_, rfl⟩

/-- The decoder reads as many bytes behind a lead as it calls for, whatever they are. -/
theorem decodeUnitsFrom_isOk_iff : (∃ units, decodeUnitsFrom i data = .ok units) ↔ (behindLeads data).isSome := by
  have refused {lead : UInt8} {rest : List UInt8} {e : DexError} (short : ∀ n, followers lead = some n → rest.length < n) :
      (∃ units : List UInt16, Except.error e = Except.ok units) ↔ (behindLeads (lead :: rest)).isSome := by
    rw [behindLeads_cut short]
    exact iff_of_false (fun ⟨_, same⟩ => nomatch same) nofun
  fun_induction decodeUnitsFrom i data with
  | case1 => exact iff_of_true ⟨_, rfl⟩ rfl
  | case2 i rest one =>
    apply refused
    intro n lengths
    exact nomatch lengths
  | case3 i byte rest one nonzero ih =>
    have lengths : followers byte = some 0 := by rw [followers_eq, if_pos one, if_neg nonzero]
    rw [behindLeads_one lengths]
    exact map_isOk.trans ih
  | case4 i byte long two =>
    apply refused
    intro n lengths
    rw [followers_eq, if_neg long, if_pos two] at lengths
    obtain rfl := Option.some.inj lengths
    exact Nat.one_pos
  | case5 i byte long two b2 rest unit ih =>
    have lengths : followers byte = some 1 := by rw [followers_eq, if_neg long, if_pos two]
    rw [behindLeads_two lengths, Option.isSome_map]
    exact map_isOk.trans ih
  | case6 i byte long notTwo three b2 b3 rest unit ih =>
    have lengths : followers byte = some 2 := by rw [followers_eq, if_neg long, if_neg notTwo, if_pos three]
    rw [behindLeads_three lengths, Option.isSome_map]
    exact map_isOk.trans ih
  | case7 i byte rest long notTwo three short =>
    apply refused
    intro n lengths
    rw [followers_eq, if_neg long, if_neg notTwo, if_pos three] at lengths
    obtain rfl := Option.some.inj lengths
    match rest, short with
    | [], _ => exact Nat.two_pos
    | [_], _ => exact Nat.one_lt_two
    | b2 :: b3 :: rest, short => exact absurd rfl (short b2 b3 rest)
  | case8 i byte rest long notTwo notThree =>
    apply refused
    intro n lengths
    rw [followers_eq, if_neg long, if_neg notTwo, if_neg notThree] at lengths
    exact nomatch lengths

/-- Byte strings are well-formed where every byte behind a lead continues its sequence. -/
theorem wellFormed_iff : WellFormed data ↔ ∃ behind, behindLeads data = some behind ∧ ∀ byte ∈ behind, IsContinuation byte := by
  constructor
  · intro wellFormed
    induction wellFormed with
    | nil => exact ⟨[], rfl, nofun⟩
    | one nonzero small _ ih =>
      rw [behindLeads_one (followers_one.mpr ⟨nonzero, small⟩)]
      exact ih
    | @two lead b2 rest low high second _ ih =>
      obtain ⟨behind, known, continued⟩ := ih
      rw [behindLeads_two (followers_two.mpr ⟨low, high⟩), known]
      exact ⟨b2 :: behind, rfl, List.forall_mem_cons.mpr ⟨second, continued⟩⟩
    | @three lead b2 b3 rest low high second third _ ih =>
      obtain ⟨behind, known, continued⟩ := ih
      rw [behindLeads_three (followers_three.mpr ⟨low, high⟩), known]
      exact ⟨b2 :: b3 :: behind, rfl, List.forall_mem_cons.mpr ⟨second, List.forall_mem_cons.mpr ⟨third, continued⟩⟩⟩
  · rintro ⟨behind, known, continued⟩
    fun_induction behindLeads data generalizing behind with
    | case1 => exact .nil
    | case2 lead rest lengths ih =>
      obtain ⟨nonzero, small⟩ := followers_one.mp lengths
      exact .one nonzero small (ih behind known continued)
    | case3 lead b2 rest lengths ih =>
      obtain ⟨low, high⟩ := followers_two.mp lengths
      obtain ⟨tail, behindRest, rfl⟩ := Option.map_eq_some_iff.mp known
      obtain ⟨second, continued⟩ := List.forall_mem_cons.mp continued
      exact .two low high second (ih tail behindRest continued)
    | case4 lead b2 b3 rest lengths ih =>
      obtain ⟨low, high⟩ := followers_three.mp lengths
      obtain ⟨tail, behindRest, rfl⟩ := Option.map_eq_some_iff.mp known
      obtain ⟨second, continued⟩ := List.forall_mem_cons.mp continued
      obtain ⟨third, continued⟩ := List.forall_mem_cons.mp continued
      exact .three low high second third (ih tail behindRest continued)
    | case5 => exact nomatch known

end Decoding

section RoundTrip

variable {unit : UInt16} {units : List UInt16} {data rest : List UInt8} {i : ℕ}

theorem toNat_twoBytes (high low : UInt8) (small : low.toNat < 0x40) :
    (high.toUInt16 <<< 6 ||| low.toUInt16).toNat = high.toNat * 0x40 + low.toNat := by
  have bound := high.toNat_lt
  have shifted : (high.toUInt16 <<< 6).toNat = high.toNat <<< 6 := by
    rw [UInt16.toNat_shiftLeft, UInt8.toNat_toUInt16]
    apply Nat.mod_eq_of_lt
    change high.toNat <<< 6 < 2 ^ 16
    rw [Nat.shiftLeft_eq]
    omega
  rw [UInt16.toNat_or, shifted, UInt8.toNat_toUInt16, ← Nat.shiftLeft_add_eq_or_of_lt small, Nat.shiftLeft_eq]

theorem toNat_threeBytes (high mid low : UInt8) (highSmall : high.toNat < 0x10) (midSmall : mid.toNat < 0x40)
    (lowSmall : low.toNat < 0x40) : (high.toUInt16 <<< 12 ||| mid.toUInt16 <<< 6 ||| low.toUInt16).toNat =
      high.toNat * 0x1000 + mid.toNat * 0x40 + low.toNat := by
  have highShifted : (high.toUInt16 <<< 12).toNat = high.toNat <<< 12 := by
    rw [UInt16.toNat_shiftLeft, UInt8.toNat_toUInt16]
    apply Nat.mod_eq_of_lt
    change high.toNat <<< 12 < 2 ^ 16
    rw [Nat.shiftLeft_eq]
    omega
  have below : (mid.toUInt16 <<< 6 ||| low.toUInt16).toNat < 2 ^ 12 := by
    rw [toNat_twoBytes mid low lowSmall]
    omega
  rw [UInt16.or_assoc, UInt16.toNat_or, highShifted, ← Nat.shiftLeft_add_eq_or_of_lt below, toNat_twoBytes mid low lowSmall,
    Nat.shiftLeft_eq, Nat.add_assoc]

theorem decodeUnitsFrom_one {lead : UInt8} (nonzero : 0 < lead.toNat) (small : lead.toNat < 0x80) :
    decodeUnitsFrom i (lead :: rest) = (decodeUnitsFrom (i + 1) rest).map (lead.toUInt16 :: ·) := by
  have notZero : lead ≠ 0 := by
    rintro rfl
    exact absurd nonzero (by decide)
  rw [decodeUnitsFrom.eq_def]
  simp only [if_pos ((one_mask lead).mpr small), if_neg notZero]

theorem decodeUnitsFrom_two {lead b2 : UInt8} (low : 0xC0 ≤ lead.toNat) (high : lead.toNat < 0xE0) :
    decodeUnitsFrom i (lead :: b2 :: rest) = (decodeUnitsFrom (i + 2) rest).map
      ((if lead = 0xC0 ∧ b2 = 0x80 then (0 : UInt16) else (lead &&& 0x1F).toUInt16 <<< 6 ||| (b2 &&& 0x3F).toUInt16) :: ·) := by
  have long : ¬ lead &&& 0x80 = 0 := by
    rw [one_mask]
    omega
  rw [decodeUnitsFrom.eq_def]
  simp only [if_neg long, if_pos ((two_mask lead).mpr ⟨low, high⟩)]

theorem decodeUnitsFrom_three {lead b2 b3 : UInt8} (low : 0xE0 ≤ lead.toNat) (high : lead.toNat < 0xF0) :
    decodeUnitsFrom i (lead :: b2 :: b3 :: rest) = (decodeUnitsFrom (i + 3) rest).map
      (((lead &&& 0x0F).toUInt16 <<< 12 ||| (b2 &&& 0x3F).toUInt16 <<< 6 ||| (b3 &&& 0x3F).toUInt16) :: ·) := by
  have long : ¬ lead &&& 0x80 = 0 := by
    rw [one_mask]
    omega
  have notTwo : ¬ lead &&& 0xE0 = 0xC0 := by
    rw [two_mask]
    omega
  rw [decodeUnitsFrom.eq_def]
  simp only [if_neg long, if_neg notTwo, if_pos ((three_mask lead).mpr ⟨low, high⟩)]

private theorem toNat_ofNat_byte {n : ℕ} (small : n < 0x100) : (UInt8.ofNat n).toNat = n := UInt8.toNat_ofNat_of_lt' small

/-- A unit's sequence decodes to the unit. -/
theorem decodeUnitsFrom_encodeUnit :
    decodeUnitsFrom i (encodeUnit unit ++ rest) = (decodeUnitsFrom (i + (encodeUnit unit).length) rest).map (unit :: ·) := by
  have bound := unit.toNat_lt
  rw [encodeUnit]
  split_ifs with one two
  · have lead := toNat_ofNat_byte (n := unit.toNat) (by omega)
    have same : (UInt8.ofNat unit.toNat).toUInt16 = unit := by
      apply UInt16.toNat_inj.mp
      rw [UInt8.toNat_toUInt16, lead]
    rw [List.singleton_append, decodeUnitsFrom_one (by omega) (by omega), same]
    rfl
  · have lead := toNat_ofNat_byte (n := 0xC0 + unit.toNat / 0x40) (by omega)
    have second := toNat_ofNat_byte (n := 0x80 + unit.toNat % 0x40) (by omega)
    have same : (if UInt8.ofNat (0xC0 + unit.toNat / 0x40) = 0xC0 ∧ UInt8.ofNat (0x80 + unit.toNat % 0x40) = 0x80 then (0 : UInt16)
        else (UInt8.ofNat (0xC0 + unit.toNat / 0x40) &&& 0x1F).toUInt16 <<< 6 |||
          (UInt8.ofNat (0x80 + unit.toNat % 0x40) &&& 0x3F).toUInt16) = unit := by
      apply UInt16.toNat_inj.mp
      split_ifs with nul
      · have leadBits := congrArg UInt8.toNat nul.1
        have secondBits := congrArg UInt8.toNat nul.2
        rw [lead] at leadBits
        rw [second] at secondBits
        change 0xC0 + unit.toNat / 0x40 = 0xC0 at leadBits
        change 0x80 + unit.toNat % 0x40 = 0x80 at secondBits
        change 0 = unit.toNat
        omega
      · have leadBits := (toNat_and_mask (UInt8.ofNat (0xC0 + unit.toNat / 0x40))).1
        have secondBits := (toNat_and_mask (UInt8.ofNat (0x80 + unit.toNat % 0x40))).2.2.1
        rw [toNat_twoBytes _ _ (by omega), leadBits, secondBits]
        omega
    rw [List.cons_append, List.singleton_append, decodeUnitsFrom_two (by omega) (by omega), same]
    rfl
  · have lead := toNat_ofNat_byte (n := 0xE0 + unit.toNat / 0x1000) (by omega)
    have second := toNat_ofNat_byte (n := 0x80 + unit.toNat / 0x40 % 0x40) (by omega)
    have third := toNat_ofNat_byte (n := 0x80 + unit.toNat % 0x40) (by omega)
    have leadBits := (toNat_and_mask (UInt8.ofNat (0xE0 + unit.toNat / 0x1000))).2.1
    have secondBits := (toNat_and_mask (UInt8.ofNat (0x80 + unit.toNat / 0x40 % 0x40))).2.2.1
    have thirdBits := (toNat_and_mask (UInt8.ofNat (0x80 + unit.toNat % 0x40))).2.2.1
    have same : (UInt8.ofNat (0xE0 + unit.toNat / 0x1000) &&& 0x0F).toUInt16 <<< 12 |||
        (UInt8.ofNat (0x80 + unit.toNat / 0x40 % 0x40) &&& 0x3F).toUInt16 <<< 6 |||
          (UInt8.ofNat (0x80 + unit.toNat % 0x40) &&& 0x3F).toUInt16 = unit := by
      apply UInt16.toNat_inj.mp
      rw [toNat_threeBytes _ _ _ (by omega) (by omega) (by omega)]
      omega
    rw [List.cons_append, List.cons_append, List.singleton_append, decodeUnitsFrom_three (by omega) (by omega), same]
    rfl

theorem decodeUnitsFrom_encode : decodeUnitsFrom i (encodeModifiedUtf8 units) = .ok units := by
  induction units generalizing i with
  | nil => rfl
  | cons unit units ih =>
    rw [encodeModifiedUtf8, List.flatMap_cons, decodeUnitsFrom_encodeUnit]
    rw [encodeModifiedUtf8] at ih
    rw [ih]
    rfl

/-- Nothing encodes to a zero byte. -/
theorem zero_notMem_encode : (0 : UInt8) ∉ encodeModifiedUtf8 units := by
  intro here
  obtain ⟨unit, -, here⟩ := List.mem_flatMap.mp here
  have bound := unit.toNat_lt
  have no {n : ℕ} (small : n < 0x100) (positive : 0 < n) : (0 : UInt8) ≠ UInt8.ofNat n := by
    intro same
    have value := congrArg UInt8.toNat same
    rw [toNat_ofNat_byte small] at value
    change 0 = n at value
    omega
  rw [encodeUnit] at here
  split_ifs at here with one two
  · exact no (by omega) (by omega) (List.mem_singleton.mp here)
  · rcases List.mem_cons.mp here with lead | here
    · exact no (by omega) (by omega) lead
    · exact no (by omega) (by omega) (List.mem_singleton.mp here)
  · rcases List.mem_cons.mp here with lead | here
    · exact no (by omega) (by omega) lead
    rcases List.mem_cons.mp here with second | here
    · exact no (by omega) (by omega) second
    · exact no (by omega) (by omega) (List.mem_singleton.mp here)

end RoundTrip

section Items

variable {units : List UInt16} {data rest : List UInt8}

/-- Setting the bits from `shift` on in a value below. -/
theorem toNat_shifted_or {result : UInt32} {shift : ℕ} (byte : UInt8) (bound : shift < 32) (below : result.toNat < 2 ^ shift)
    (fits : byte.toNat * 2 ^ shift < 2 ^ 32) :
    (result ||| byte.toUInt32 <<< UInt32.ofNat shift).toNat = result.toNat + byte.toNat * 2 ^ shift := by
  have amount : (UInt32.ofNat shift).toNat % 32 = shift := by
    rw [UInt32.toNat_ofNat_of_lt' (by change shift < 2 ^ 32; omega)]
    exact Nat.mod_eq_of_lt bound
  have shifted : (byte.toUInt32 <<< UInt32.ofNat shift).toNat = byte.toNat <<< shift := by
    rw [UInt32.toNat_shiftLeft, UInt8.toNat_toUInt32, amount]
    apply Nat.mod_eq_of_lt
    rw [Nat.shiftLeft_eq]
    exact fits
  rw [UInt32.toNat_or, shifted, Nat.or_comm, ← Nat.shiftLeft_add_eq_or_of_lt below, Nat.shiftLeft_eq, Nat.add_comm]

/-- A count that fits reads back, with the offset past it. -/
theorem readUleb128From_encode {n fuel shift pos : ℕ} {result : UInt32} {rest : List UInt8} (here : data.drop pos = encodeUleb128 n ++ rest)
    (left : shift + 7 * fuel = 35) (progress : 0 < n ∨ 0 < fuel) (below : result.toNat < 2 ^ shift)
    (fits : n * 2 ^ shift < 2 ^ 32) : readUleb128From data fuel result shift pos =
      .ok (UInt32.ofNat (result.toNat + n * 2 ^ shift), pos + (encodeUleb128 n).length) := by
  induction fuel generalizing n shift pos result with
  | zero =>
    exfalso
    obtain rfl : shift = 35 := left
    omega
  | succ fuel ih =>
    have bound : shift < 32 := by omega
    have positive : 0 < 2 ^ shift := Nat.two_pow_pos shift
    rw [encodeUleb128] at here ⊢
    split_ifs at here ⊢ with last
    · have byteValue := toNat_ofNat_byte (n := n) (by omega)
      have bits := (toNat_and_mask (UInt8.ofNat n)).2.2.2
      rw [byteValue, Nat.mod_eq_of_lt last] at bits
      have at_pos : data[pos]? = some (UInt8.ofNat n) := by
        rw [← List.head?_drop, here]
        rfl
      have value := toNat_shifted_or (UInt8.ofNat n &&& 0x7F) bound below (by rw [bits]; exact fits)
      rw [bits] at value
      rw [readUleb128From, at_pos]
      simp only [if_pos ((one_mask (UInt8.ofNat n)).mpr (by omega)), List.length_singleton]
      rw [← value, UInt32.ofNat_toNat]
    · have byteValue := toNat_ofNat_byte (n := 128 + n % 128) (by omega)
      have bits := (toNat_and_mask (UInt8.ofNat (128 + n % 128))).2.2.2
      rw [byteValue] at bits
      have low : (128 + n % 128) % 0x80 = n % 128 := by omega
      rw [low] at bits
      have at_pos : data[pos]? = some (UInt8.ofNat (128 + n % 128)) := by
        rw [← List.head?_drop, here]
        rfl
      have parts : n * 2 ^ shift = n % 128 * 2 ^ shift + n / 128 * 2 ^ (shift + 7) := by
        rw [Nat.pow_add, ← Nat.mul_assoc, Nat.mul_right_comm, ← Nat.add_mul]
        congr 1
        omega
      have value := toNat_shifted_or (UInt8.ofNat (128 + n % 128) &&& 0x7F) bound below (by rw [bits]; omega)
      rw [bits] at value
      have more : ¬ UInt8.ofNat (128 + n % 128) &&& 0x80 = 0 := by
        rw [one_mask]
        omega
      rw [readUleb128From, at_pos]
      simp only [if_neg more]
      have next : data.drop (pos + 1) = encodeUleb128 (n / 128) ++ rest := by
        rw [← List.tail_drop, here]
        rfl
      have growing : (result ||| (UInt8.ofNat (128 + n % 128) &&& 0x7F).toUInt32 <<< UInt32.ofNat shift).toNat < 2 ^ (shift + 7) := by
        have digit : n % 128 * 2 ^ shift ≤ 127 * 2 ^ shift := Nat.mul_le_mul_right _ (by omega)
        rw [value, Nat.pow_add]
        omega
      rw [ih next (by omega) (.inl (by omega)) growing (by omega), value, parts, List.length_cons]
      congr 2
      · rw [Nat.add_assoc]
      · omega

theorem readUleb128_encode {n : UInt32} {pos : ℕ} (here : data.drop pos = encodeUleb128 n.toNat ++ rest) :
    readUleb128 data pos = .ok (n, pos + (encodeUleb128 n.toNat).length) := by
  have bound := n.toNat_lt
  rw [readUleb128, readUleb128From_encode here rfl (.inr (by decide)) (by decide) (by omega)]
  congr 2
  change UInt32.ofNat (0 + n.toNat * 2 ^ 0) = n
  rw [Nat.pow_zero, Nat.mul_one, Nat.zero_add, UInt32.ofNat_toNat]

/-- The scan stops at the first zero byte. -/
theorem scanEnd_eq {payload : List UInt8} {start : ℕ} (here : data.drop start = payload ++ 0 :: rest) (nonzero : 0 ∉ payload) :
    scanEnd data start = .ok (start + payload.length) := by
  induction payload generalizing start with
  | nil =>
    have at_start : data[start]? = some 0 := by
      rw [← List.head?_drop, here]
      rfl
    rw [scanEnd]
    split
    · rename_i absent
      rw [at_start] at absent
      exact nomatch absent
    · rename_i byte' present
      obtain rfl := Option.some.inj (at_start.symm.trans present)
      rw [if_pos rfl]
      rfl
  | cons byte payload ih =>
    obtain ⟨first, others⟩ := not_or.mp (mt List.mem_cons.mpr nonzero)
    have at_start : data[start]? = some byte := by
      rw [← List.head?_drop, here]
      rfl
    have next : data.drop (start + 1) = payload ++ 0 :: rest := by
      rw [← List.tail_drop, here]
      rfl
    rw [scanEnd]
    split
    · rename_i absent
      rw [at_start] at absent
      exact nomatch absent
    · rename_i byte' present
      obtain rfl := Option.some.inj (at_start.symm.trans present)
      rw [if_neg (Ne.symm first), ih next others, List.length_cons]
      congr 1
      omega

/-- An item reads back wherever it stands. -/
theorem readStringDataItem_eq (front : List UInt8) (count : UInt32) :
    readStringDataItem (front ++ stringDataItem count units ++ rest) front.length =
      .ok (DexString.fromCodeUnits units, count, (front ++ stringDataItem count units).length) := by
  have fromCount : (front ++ stringDataItem count units ++ rest).drop front.length =
      encodeUleb128 count.toNat ++ (encodeModifiedUtf8 units ++ 0 :: rest) := by
    rw [List.append_assoc, List.drop_left, stringDataItem]
    simp
  have fromText : (front ++ stringDataItem count units ++ rest).drop (front.length + (encodeUleb128 count.toNat).length) =
      encodeModifiedUtf8 units ++ 0 :: rest := by
    rw [← List.drop_drop, fromCount, List.drop_left]
  have text : ((front ++ stringDataItem count units ++ rest).take (front.length + (encodeUleb128 count.toNat).length +
      (encodeModifiedUtf8 units).length)).drop (front.length + (encodeUleb128 count.toNat).length) = encodeModifiedUtf8 units := by
    rw [List.drop_take, fromText, Nat.add_sub_cancel_left, List.take_left]
  rw [readStringDataItem, readUleb128_encode fromCount]
  simp only [bind, Except.bind, pure, Except.pure]
  rw [scanEnd_eq fromText zero_notMem_encode]
  simp only
  rw [text, decodeModifiedUtf8CodeUnits, decodeUnitsFrom_encode]
  simp [stringDataItem]
  omega

end Items

section Units

variable {units : List UInt16} {i : ℕ}

/-- The scan stops behind the longest prefix in which every surrogate is one of a pair. -/
theorem firstUnpairedFrom_spec : (firstUnpairedFrom i units).elim ((Utf16.decode units).isSome = true) fun p => ∃ k,
    p.1 = i + k ∧ units[k]? = some p.2 ∧ (Utf16.decode (units.take k)).isSome ∧ ∀ n, Utf16.decode (units.take (k + n + 1)) = none := by
  fun_induction firstUnpairedFrom i units with
  | case1 => rfl
  | case2 i unit high low rest pair ih =>
    cases found : firstUnpairedFrom (i + 2) rest with
    | none => simpa [found, Utf16.decode, high, pair] using ih
    | some p =>
      obtain ⟨k, index, here, before, beyond⟩ := found ▸ ih
      refine ⟨k + 2, by omega, here, by simpa [Utf16.decode, high, pair] using before, fun n => ?_⟩
      simp [show k + 2 + n + 1 = k + n + 1 + 2 by omega, Utf16.decode, high, pair, beyond n]
  | case3 i unit high low rest apart =>
    refine ⟨0, rfl, rfl, rfl, fun n => ?_⟩
    cases n <;> simp [Utf16.decode, high, apart]
  | case4 i unit high => exact ⟨0, rfl, rfl, rfl, fun n => by simp [Utf16.decode, high]⟩
  | case5 i unit rest notHigh low => exact ⟨0, rfl, rfl, rfl, fun n => by simp [Utf16.decode.eq_def, notHigh, low]⟩
  | case6 i unit rest notHigh notLow ih =>
    have plain (rest : List UInt16) : Utf16.decode (unit :: rest) = (Utf16.decode rest).map (Char.ofNat unit.toNat :: ·) := by
      simp [Utf16.decode.eq_def (unit :: rest), notHigh, notLow]
    cases found : firstUnpairedFrom (i + 1) rest with
    | none => simpa [found, plain] using ih
    | some p =>
      obtain ⟨k, index, here, before, beyond⟩ := found ▸ ih
      refine ⟨k + 1, by omega, here, by simpa [plain] using before, fun n => ?_⟩
      simp [show k + 1 + n + 1 = k + n + 1 + 1 by omega, plain, beyond n]

namespace DexString

theorem codeUnits_fromCodeUnits : (fromCodeUnits units).codeUnits = units := by
  rw [fromCodeUnits]
  split
  · rename_i cs decoded
    rw [codeUnits, String.toList_ofList]
    exact Utf16.encode_decode decoded
  · rfl

theorem lenUtf16_eq (s : DexString) : s.lenUtf16 = s.codeUnits.length := by
  cases s with
  | utf8 s => rfl
  | utf16 units => rfl

theorem isSome_asStr : (fromCodeUnits units).asStr.isSome ↔ Utf16.Paired units := by
  rw [← Utf16.isSome_decode, fromCodeUnits]
  split
  · rename_i cs decoded
    rw [decoded]
    exact iff_of_true rfl rfl
  · rename_i undecoded
    rw [undecoded]
    exact iff_of_false nofun nofun

/-- The accessor answers the text the units encode, or the end of the longest prefix that is one and the unit there. -/
theorem asStrOrErr_spec : (∀ s, (fromCodeUnits units).asStrOrErr = .ok s ↔ Utf16.encode s.toList = units) ∧
    ∀ err, (fromCodeUnits units).asStrOrErr = .error err → ∃ index unit, err = .unpairedSurrogate none index unit ∧
      units[index]? = some unit ∧ Utf16.Paired (units.take index) ∧ ∀ n, index < n → ¬ Utf16.Paired (units.take n) := by
  have stops : (firstUnpairedFrom 0 units).elim _ _ := firstUnpairedFrom_spec
  simp only [← Utf16.isSome_decode]
  rw [fromCodeUnits]
  split
  · rename_i cs decoded
    refine ⟨fun s => ?_, fun err failed => by cases failed⟩
    rw [asStrOrErr, Except.ok.injEq, ← Utf16.encode_decode decoded, Utf16.encode_injective.eq_iff, ← String.toList_inj,
      String.toList_ofList, eq_comm]
  · rename_i undecoded
    cases found : firstUnpairedFrom 0 units with
    | none => simp [found, undecoded] at stops
    | some p =>
      rw [found] at stops
      obtain ⟨k, index, here, before, beyond⟩ := stops
      obtain rfl : p.1 = k := by omega
      rw [asStrOrErr, firstUnpairedSurrogate, found]
      refine ⟨fun s => iff_of_false (by simp) ?_, fun err failed => ?_⟩
      · rintro rfl
        simp [Utf16.decode_encode] at undecoded
      · cases failed
        refine ⟨_, _, rfl, here, before, fun n more => ?_⟩
        obtain ⟨m, rfl⟩ := Nat.exists_eq_add_of_lt more
        simp [beyond m]

end DexString

end Units

/-- Code units come back from their encoding and their item, and a byte string no sequences make up is refused exactly if it
does not split, by the lengths its leads call for, into sequences one of which has a byte that continues nothing. -/
theorem decode_encode_and_refuses_iff (data : List UInt8) :
    (∀ units : List UInt16,
      decodeModifiedUtf8CodeUnits (encodeModifiedUtf8 units) = .ok units ∧
      (DexString.fromCodeUnits units).codeUnits = units ∧
      (DexString.fromCodeUnits units).lenUtf16 = units.length ∧
      ((DexString.fromCodeUnits units).asStr.isSome ↔ Utf16.Paired units) ∧
      ∀ (front rest : List UInt8) (count : UInt32),
        readStringDataItem (front ++ stringDataItem count units ++ rest) front.length =
          .ok (DexString.fromCodeUnits units, count, (front ++ stringDataItem count units).length)) ∧
    ((WellFormed data ∨ ∃ e, decodeModifiedUtf8CodeUnits data = .error e) ↔
      ∀ behind, behindLeads data = some behind → ∀ byte ∈ behind, IsContinuation byte) := by
  constructor
  · intro units
    refine ⟨decodeUnitsFrom_encode, DexString.codeUnits_fromCodeUnits, ?_, DexString.isSome_asStr, ?_⟩
    · rw [DexString.lenUtf16_eq, DexString.codeUnits_fromCodeUnits]
    · intro front rest count
      exact readStringDataItem_eq front count
  · constructor
    · rintro (wellFormed | ⟨e, refused⟩) behind known
      · obtain ⟨behind', known', continued⟩ := wellFormed_iff.mp wellFormed
        obtain rfl := Option.some.inj (known.symm.trans known')
        exact continued
      · obtain ⟨units, decoded⟩ := decodeUnitsFrom_isOk_iff (i := 0).mpr (Option.isSome_of_mem known)
        exact nomatch refused.symm.trans decoded
    · intro continued
      cases decoded : decodeModifiedUtf8CodeUnits data with
      | error e => exact .inr ⟨e, rfl⟩
      | ok units =>
        obtain ⟨behind, known⟩ := Option.isSome_iff_exists.mp (decodeUnitsFrom_isOk_iff.mp ⟨units, decoded⟩)
        exact .inl (wellFormed_iff.mpr ⟨behind, known, continued behind known⟩)

/-- The bytes `C2 41` decode to one code unit, though the second continues no sequence. -/
theorem decode_folds_ascii : ¬ ∀ data : List UInt8, ¬ WellFormed data → ∃ e, decodeModifiedUtf8CodeUnits data = .error e := by
  intro refuses
  have malformed : ¬ WellFormed [0xC2, 0x41] := by
    rw [wellFormed_iff]
    decide
  obtain ⟨e, refused⟩ := refuses [0xC2, 0x41] malformed
  have decoded : decodeModifiedUtf8CodeUnits [0xC2, 0x41] = .ok [0x81] := by decide
  exact nomatch refused.symm.trans decoded

end Ctadl.Dex
