import Ctadl.Facts.Build
import Mathlib.Data.Nat.Bitwise
import Mathlib.Tactic.IntervalCases

/-! # Flow variables as words

A flow variable is one 64-bit word whose top two bits tell the variants apart. A local or a global keeps the 32-bit
handle of its name in the low half, a formal its 16-bit index, and a call argument the eight bytes of its packed
identifier, read big-endian. Those bytes begin with the 36-bit instruction id, so an id with one of its top two bits set
reaches into the tag: a `dev` build stops there and a `release` build drops the two bits. The packing itself is generated
code; what its attributes say of it is `CallArgLayout`.
-/

namespace Ctadl.Facts.Packed

/-- A packed call argument. -/
abbrev PackedCallArg := Vector UInt8 8

/-- `u64::from_be_bytes`. -/
def fromBeBytes (bytes : PackedCallArg) : UInt64 := .ofNat (bytes.foldl (fun n byte => n * 256 + byte.toNat) 0)

/-- `u64::to_be_bytes`. -/
def toBeBytes (word : UInt64) : PackedCallArg := Vector.ofFn fun i => (word >>> .ofNat (8 * (7 - i.val))).toUInt8

/-- The variants, with the handles of their names. -/
inductive FlowVariableKind where
  | uninit
  | local (name : UInt32)
  | formal (index : Int16)
  | callArg (packed : PackedCallArg)
  | global (name : UInt32)
deriving DecidableEq

structure FlowVariable where
  word : UInt64
deriving DecidableEq, Repr

def TAG_UNINIT : UInt64 := (0 : UInt64) <<< 62
def TAG_LOCAL : UInt64 := (1 : UInt64) <<< 62
def TAG_FORMAL : UInt64 := (2 : UInt64) <<< 62
def TAG_CALL_ARG : UInt64 := (3 : UInt64) <<< 62
def TAG_MASK : UInt64 := (3 : UInt64) <<< 62
def DATA_MASK : UInt64 := ~~~TAG_MASK
/-- Under the tag of a local, marks a global. -/
def GLOBAL_BIT : UInt64 := (1 : UInt64) <<< 61

namespace FlowVariable

/-- `FlowVariable::from`. -/
def ofKind (build : Build) : FlowVariableKind → Except Panic FlowVariable
  | .uninit => .ok ⟨TAG_UNINIT⟩
  | .local name => .ok ⟨name.toUInt64 ||| TAG_LOCAL⟩
  | .formal index => .ok ⟨index.toUInt16.toUInt64 ||| TAG_FORMAL⟩
  | .callArg packed => do
    let val := fromBeBytes packed
    build.debugAssert (val &&& TAG_MASK = 0)
    .ok ⟨val ||| TAG_CALL_ARG⟩
  | .global name => .ok ⟨name.toUInt64 ||| TAG_LOCAL ||| GLOBAL_BIT⟩

def isGlobal (v : FlowVariable) : Bool := v.word &&& TAG_MASK = TAG_LOCAL && v.word &&& GLOBAL_BIT ≠ 0

/-- The handle of a local's or a global's name, which has to have been handed out. -/
def localStr (issued : UInt32 → Bool) (v : FlowVariable) : Except Panic UInt32 :=
  if issued v.word.toUInt32 then .ok v.word.toUInt32 else .error .expect

def kind (issued : UInt32 → Bool) (v : FlowVariable) : Except Panic FlowVariableKind :=
  let tag := v.word &&& TAG_MASK
  if tag = TAG_UNINIT then .ok .uninit
  else if tag = TAG_LOCAL then do
    let name ← v.localStr issued
    if v.isGlobal then .ok (.global name) else .ok (.local name)
  else if tag = TAG_FORMAL then .ok (.formal (v.word &&& DATA_MASK).toUInt16.toInt16)
  else .ok (.callArg (toBeBytes (v.word &&& DATA_MASK)))

end FlowVariable

/-- What the attributes of a packed call argument say: read big-endian, its first 36 bits are the instruction id and the
next 16 the formal's. -/
structure CallArgLayout (pack : ℕ → Int16 → PackedCallArg) : Prop where
  insn : ∀ insn < 2 ^ 36, ∀ formal, (fromBeBytes (pack insn formal)).toNat / 2 ^ 28 = insn
  formal : ∀ insn < 2 ^ 36, ∀ formal, (fromBeBytes (pack insn formal)).toNat / 2 ^ 12 % 2 ^ 16 = formal.toUInt16.toNat

/-- The kinds the constructors make: names that were handed out, and call arguments packed from their parts. -/
def FlowVariableKind.Admitted (issued : UInt32 → Bool) (pack : ℕ → Int16 → PackedCallArg) : FlowVariableKind → Prop
  | .uninit | .formal _ => True
  | .local name | .global name => issued name
  | .callArg packed => ∃ insn < 2 ^ 36, ∃ formal, packed = pack insn formal

/-- A call argument's instruction id leaves the top two of its 36 bits free. -/
def FlowVariableKind.Fits (pack : ℕ → Int16 → PackedCallArg) (k : FlowVariableKind) : Prop :=
  ∀ insn < 2 ^ 36, ∀ formal, k = .callArg (pack insn formal) → insn < 2 ^ 34

section Bytes

theorem toNat_fromBeBytes (a b c d e f g h : UInt8) :
    (fromBeBytes #v[a, b, c, d, e, f, g, h]).toNat =
      ((((((a.toNat * 256 + b.toNat) * 256 + c.toNat) * 256 + d.toNat) * 256 + e.toNat) * 256 + f.toNat) * 256 +
        g.toNat) * 256 + h.toNat := by
  have bounds := And.intro a.toNat_lt (And.intro b.toNat_lt (And.intro c.toNat_lt (And.intro d.toNat_lt
    (And.intro e.toNat_lt (And.intro f.toNat_lt (And.intro g.toNat_lt h.toNat_lt))))))
  simp only [fromBeBytes, Vector.foldl_mk, List.foldl_toArray, List.foldl_cons, List.foldl_nil, UInt64.toNat_ofNat']
  rw [Nat.mod_eq_of_lt (by omega)]
  omega

theorem fromBeBytes_toBeBytes (word : UInt64) : fromBeBytes (toBeBytes word) = word := by
  have shape : toBeBytes word = #v[(word >>> 56).toUInt8, (word >>> 48).toUInt8, (word >>> 40).toUInt8,
      (word >>> 32).toUInt8, (word >>> 24).toUInt8, (word >>> 16).toUInt8, (word >>> 8).toUInt8, (word >>> 0).toUInt8] := rfl
  apply UInt64.toNat_inj.mp
  rw [shape, toNat_fromBeBytes]
  have bound := word.toNat_lt
  simp [Nat.shiftRight_eq_div_pow]
  omega

theorem toBeBytes_fromBeBytes (bytes : PackedCallArg) : toBeBytes (fromBeBytes bytes) = bytes := by
  obtain ⟨⟨list⟩, size⟩ := bytes
  match list, size with
  | [a, b, c, d, e, f, g, h], _ =>
    have value := toNat_fromBeBytes a b c d e f g h
    have bounds := And.intro a.toNat_lt (And.intro b.toNat_lt (And.intro c.toNat_lt (And.intro d.toNat_lt
      (And.intro e.toNat_lt (And.intro f.toNat_lt (And.intro g.toNat_lt h.toNat_lt))))))
    generalize whole : fromBeBytes #v[a, b, c, d, e, f, g, h] = word at value
    have byte (shift : UInt64) (x : UInt8) (here : word.toNat >>> (shift.toNat % 64) % 256 = x.toNat) :
        (word >>> shift).toUInt8 = x := by
      apply UInt8.toNat_inj.mp
      simpa using here
    have shape : toBeBytes word = #v[(word >>> 56).toUInt8, (word >>> 48).toUInt8, (word >>> 40).toUInt8,
        (word >>> 32).toUInt8, (word >>> 24).toUInt8, (word >>> 16).toUInt8, (word >>> 8).toUInt8, (word >>> 0).toUInt8] := rfl
    change toBeBytes word = #v[a, b, c, d, e, f, g, h]
    rw [shape, byte 56 a, byte 48 b, byte 40 c, byte 32 d, byte 24 e, byte 16 f, byte 8 g, byte 0 h] <;>
      simp [Nat.shiftRight_eq_div_pow] <;> omega

end Bytes

section Tags

/-- A word is its bits inside a mask and its bits outside. -/
private theorem mask_split (w m : UInt64) : (w &&& m).toNat + (w &&& ~~~m).toNat = w.toNat := by
  have disjoint : w.toBitVec &&& m.toBitVec &&& (w.toBitVec &&& ~~~m.toBitVec) = 0#64 := by
    ext i bound
    simp +contextual
  have whole : w.toBitVec &&& m.toBitVec ||| w.toBitVec &&& ~~~m.toBitVec = w.toBitVec := by
    rw [← BitVec.and_or_distrib_left, BitVec.or_not_self, BitVec.and_allOnes]
  have sum := BitVec.toNat_add_of_and_eq_zero disjoint
  rw [BitVec.add_eq_or_of_and_eq_zero _ _ disjoint, whole] at sum
  exact sum.symm

theorem toNat_and_data_mask (w : UInt64) : (w &&& DATA_MASK).toNat = w.toNat % 2 ^ 62 := by
  have mask : DATA_MASK.toNat = 2 ^ 62 - 1 := by decide
  rw [UInt64.toNat_and, mask, Nat.and_two_pow_sub_one_eq_mod]

theorem toNat_and_tag_mask (w : UInt64) : (w &&& TAG_MASK).toNat = w.toNat / 2 ^ 62 * 2 ^ 62 := by
  have split := mask_split w TAG_MASK
  have data := toNat_and_data_mask w
  rw [DATA_MASK] at data
  omega

variable {data tag : UInt64} {n : ℕ}

/-- A word of data under a tag is their sum. -/
theorem toNat_or_tag (small : data.toNat < 2 ^ 62) (shifted : tag.toNat = 2 ^ 62 * n) :
    (data ||| tag).toNat = 2 ^ 62 * n + data.toNat := by
  rw [UInt64.toNat_or, shifted, Nat.lor_comm, Nat.two_pow_add_eq_or_of_lt small]

theorem tag_or (small : data.toNat < 2 ^ 62) (shifted : tag.toNat = 2 ^ 62 * n) : (data ||| tag) &&& TAG_MASK = tag := by
  apply UInt64.toNat_inj.mp
  rw [toNat_and_tag_mask, toNat_or_tag small shifted, shifted]
  omega

theorem data_or (small : data.toNat < 2 ^ 62) (shifted : tag.toNat = 2 ^ 62 * n) : (data ||| tag) &&& DATA_MASK = data := by
  apply UInt64.toNat_inj.mp
  rw [toNat_and_data_mask, toNat_or_tag small shifted]
  omega

/-- Under the tag of a call argument the data is cut to the bits outside the tag. -/
theorem or_tag_call_arg (w : UInt64) :
    (w ||| TAG_CALL_ARG) &&& TAG_MASK = TAG_CALL_ARG ∧ (w ||| TAG_CALL_ARG) &&& DATA_MASK = w &&& DATA_MASK := by
  have same : TAG_CALL_ARG = TAG_MASK := rfl
  rw [same, DATA_MASK]
  generalize TAG_MASK = m
  constructor
  · apply UInt64.toBitVec_inj.mp
    ext i bound
    cases inside : m.toBitVec[i] <;> simp [inside]
  · apply UInt64.toBitVec_inj.mp
    ext i bound
    cases inside : m.toBitVec[i] <;> simp [inside]

/-- The bit that marks a global. -/
theorem and_global_bit_eq_zero_iff (w : UInt64) : w &&& GLOBAL_BIT = 0 ↔ w.toNat / 2 ^ 61 % 2 = 0 := by
  have bit : GLOBAL_BIT.toNat = 2 ^ 61 := by decide
  rw [← UInt64.toNat_inj, UInt64.toNat_and, bit, Nat.and_two_pow, Nat.testBit_eq_decide_div_mod_eq]
  simp

end Tags

namespace FlowVariable

variable {issued : UInt32 → Bool} {build : Build}

private theorem name_small (name : UInt32) : name.toUInt64.toNat < 2 ^ 32 := by
  rw [UInt32.toNat_toUInt64]
  exact name.toNat_lt

/-- The name of a local is read back. -/
theorem kind_local {name : UInt32} (handedOut : issued name) :
    (ofKind build (.local name) >>= kind issued) = .ok (.local name) := by
  have small := name_small name
  have shifted : TAG_LOCAL.toNat = 2 ^ 62 * 1 := by decide
  have word := toNat_or_tag (show name.toUInt64.toNat < 2 ^ 62 by omega) shifted
  have tag := tag_or (show name.toUInt64.toNat < 2 ^ 62 by omega) shifted
  have low : (name.toUInt64 ||| TAG_LOCAL).toUInt32 = name := by
    apply UInt32.toNat_inj.mp
    rw [UInt64.toNat_toUInt32, word, UInt32.toNat_toUInt64]
    have bound := name.toNat_lt
    omega
  have unmarked : (name.toUInt64 ||| TAG_LOCAL) &&& GLOBAL_BIT = 0 := by
    rw [and_global_bit_eq_zero_iff, word]
    omega
  have apart : TAG_LOCAL ≠ TAG_UNINIT := by decide
  simp [ofKind, kind, isGlobal, localStr, tag, low, unmarked, apart, handedOut, bind, Except.bind]

theorem kind_global {name : UInt32} (handedOut : issued name) :
    (ofKind build (.global name) >>= kind issued) = .ok (.global name) := by
  have small := name_small name
  have shifted : TAG_LOCAL.toNat = 2 ^ 62 * 1 := by decide
  have marked : (name.toUInt64 ||| GLOBAL_BIT).toNat = 2 ^ 61 + name.toUInt64.toNat := by
    have bit : GLOBAL_BIT.toNat = 2 ^ 61 * 1 := by decide
    rw [UInt64.toNat_or, bit, Nat.lor_comm, ← Nat.two_pow_add_eq_or_of_lt (by omega)]
    omega
  have regroup : name.toUInt64 ||| TAG_LOCAL ||| GLOBAL_BIT = name.toUInt64 ||| GLOBAL_BIT ||| TAG_LOCAL := by
    rw [UInt64.or_assoc, UInt64.or_comm TAG_LOCAL, UInt64.or_assoc]
  have word := toNat_or_tag (show (name.toUInt64 ||| GLOBAL_BIT).toNat < 2 ^ 62 by omega) shifted
  have tag := tag_or (show (name.toUInt64 ||| GLOBAL_BIT).toNat < 2 ^ 62 by omega) shifted
  have low : (name.toUInt64 ||| GLOBAL_BIT ||| TAG_LOCAL).toUInt32 = name := by
    apply UInt32.toNat_inj.mp
    rw [UInt64.toNat_toUInt32, word, marked, UInt32.toNat_toUInt64]
    have bound := name.toNat_lt
    omega
  have bit : ¬ (name.toUInt64 ||| GLOBAL_BIT ||| TAG_LOCAL) &&& GLOBAL_BIT = 0 := by
    rw [and_global_bit_eq_zero_iff, word, marked]
    omega
  have apart : TAG_LOCAL ≠ TAG_UNINIT := by decide
  simp [ofKind, regroup, kind, isGlobal, localStr, tag, low, bit, apart, handedOut, bind, Except.bind]

theorem kind_formal (index : Int16) : (ofKind build (.formal index) >>= kind issued) = .ok (.formal index) := by
  have small : index.toUInt16.toUInt64.toNat < 2 ^ 16 := by
    rw [UInt16.toNat_toUInt64]
    exact index.toUInt16.toNat_lt
  have shifted : TAG_FORMAL.toNat = 2 ^ 62 * 2 := by decide
  have tag := tag_or (show index.toUInt16.toUInt64.toNat < 2 ^ 62 by omega) shifted
  have payload := data_or (show index.toUInt16.toUInt64.toNat < 2 ^ 62 by omega) shifted
  have first : TAG_FORMAL ≠ TAG_UNINIT := by decide
  have second : TAG_FORMAL ≠ TAG_LOCAL := by decide
  simp [ofKind, kind, tag, payload, first, second, bind, Except.bind]

theorem kind_uninit : (ofKind build .uninit >>= kind issued) = .ok .uninit := by
  simp [ofKind, kind, bind, Except.bind, TAG_UNINIT]

/-- A call argument is read back where its bytes leave the tag bits free. -/
theorem kind_callArg_iff (packed : PackedCallArg) :
    (ofKind build (.callArg packed) >>= kind issued) = .ok (.callArg packed) ↔ (fromBeBytes packed).toNat < 2 ^ 62 := by
  have shifted : TAG_CALL_ARG.toNat = 2 ^ 62 * 3 := by decide
  have first : TAG_CALL_ARG ≠ TAG_UNINIT := by decide
  have second : TAG_CALL_ARG ≠ TAG_LOCAL := by decide
  have third : TAG_CALL_ARG ≠ TAG_FORMAL := by decide
  constructor
  · intro read
    by_cases free : fromBeBytes packed &&& TAG_MASK = 0
    · have value := toNat_and_tag_mask (fromBeBytes packed)
      rw [free] at value
      simp at value
      omega
    · cases build with
      | dev => simp [ofKind, Build.debugAssert, free, bind, Except.bind] at read
      | release =>
        -- the word keeps 62 bits of the bytes, so bytes that are read back have no more
        obtain ⟨tag, payload⟩ := or_tag_call_arg (fromBeBytes packed)
        simp only [ofKind, kind, Build.debugAssert, reduceCtorEq, false_and, if_false, bind, Except.bind, tag, payload,
          first, second, third, Except.ok.injEq, FlowVariableKind.callArg.injEq] at read
        have kept := congrArg (fun bytes => (fromBeBytes bytes).toNat) read
        simp only [fromBeBytes_toBeBytes, toNat_and_data_mask] at kept
        omega
  · intro small
    have free : fromBeBytes packed &&& TAG_MASK = 0 := by
      apply UInt64.toNat_inj.mp
      rw [toNat_and_tag_mask]
      simp
      omega
    have tag := tag_or small shifted
    have payload := data_or small shifted
    simp [ofKind, kind, Build.debugAssert, free, tag, payload, first, second, third, toBeBytes_fromBeBytes, bind, Except.bind]

/-- What is read back of a packed call argument fits: its instruction id has 34 bits. -/
theorem fits_callArg_iff {pack : ℕ → Int16 → PackedCallArg} (layout : CallArgLayout pack) {packed : PackedCallArg}
    (parts : ∃ insn < 2 ^ 36, ∃ formal, packed = pack insn formal) :
    (FlowVariableKind.callArg packed).Fits pack ↔ (fromBeBytes packed).toNat < 2 ^ 62 := by
  constructor
  · intro fits
    obtain ⟨insn, small, formal, rfl⟩ := parts
    have bound := fits insn small formal rfl
    have value := layout.insn insn small formal
    omega
  · rintro bound insn small formal same
    have value := layout.insn insn small formal
    rw [← FlowVariableKind.callArg.inj same] at value
    omega

/-- A kind is read back from its word exactly where it fits. -/
theorem kind_ofKind_iff {pack : ℕ → Int16 → PackedCallArg} (layout : CallArgLayout pack) {k : FlowVariableKind}
    (admitted : k.Admitted issued pack) : (ofKind build k >>= kind issued) = .ok k ↔ k.Fits pack := by
  cases k with
  | uninit => exact iff_of_true kind_uninit nofun
  | «local» name => exact iff_of_true (kind_local admitted) nofun
  | formal index => exact iff_of_true (kind_formal index) nofun
  | global name => exact iff_of_true (kind_global admitted) nofun
  | callArg packed => rw [kind_callArg_iff, fits_callArg_iff layout admitted]

end FlowVariable

section Layout

/-- The packing its attributes describe: the id in the first 36 bits, the formal in the next 16, the rest zero. -/
def packed (insn : ℕ) (formal : Int16) : PackedCallArg :=
  toBeBytes (.ofNat (insn * 2 ^ 28 + formal.toUInt16.toNat * 2 ^ 12))

theorem packed_layout : CallArgLayout packed := by
  have value (insn : ℕ) (small : insn < 2 ^ 36) (formal : Int16) :
      (fromBeBytes (packed insn formal)).toNat = insn * 2 ^ 28 + formal.toUInt16.toNat * 2 ^ 12 := by
    have bound := formal.toUInt16.toNat_lt
    rw [packed, fromBeBytes_toBeBytes, UInt64.toNat_ofNat', Nat.mod_eq_of_lt (by omega)]
  refine ⟨fun insn small formal => ?_, fun insn small formal => ?_⟩
  · rw [value insn small formal]
    have bound := formal.toUInt16.toNat_lt
    omega
  · rw [value insn small formal]
    have bound := formal.toUInt16.toNat_lt
    omega

namespace FlowVariable

end FlowVariable

end Layout

end Ctadl.Facts.Packed
