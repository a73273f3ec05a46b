import Ctadl.Dex.BasicBlocks
import Mathlib.Tactic.NormNum

/-! # Control flow of a Dex method

Dalvik goes from an instruction to the next one, to the target of a branch, to a target in the payload of a
switch, and from a throwing instruction to the handlers of the try ranges around it. The basic blocks have
all of this, but for a goto with more instructions behind it in its block: nothing ends a block at a goto.
-/

namespace Ctadl.Dex

open Graph

variable {code : CodeItem} {items : List DecodedCodeItem} {i j k : ℕ}

/-! ## Dalvik -/

namespace Instruction

/-- The instructions Dalvik may throw in. -/
def throws : Instruction → Bool
  | throw => true
  | plain opcode =>
    0x1a ≤ opcode && opcode ≤ 0x26 || 0x44 ≤ opcode && opcode ≤ 0x72 || 0x74 ≤ opcode && opcode ≤ 0x78 ||
      opcode ∈ [0x93, 0x94, 0x9e, 0x9f, 0xb3, 0xb4, 0xbe, 0xbf, 0xd3, 0xd4, 0xdb, 0xdc] ||
      0xfa ≤ opcode && opcode ≤ 0xff
  | _ => false

/-- Whether control may go on behind the instruction. -/
def goesOn : Instruction → Bool
  | ifTest _ _ | ifTestz _ _ | packedSwitch _ | sparseSwitch _ | plain _ => true
  | _ => false

/-- How far away the target of a goto is. -/
def jump : Instruction → Option ℤ
  | goto off => some off.toInt
  | goto16 off => some off.toInt
  | goto32 off => some off.toInt
  | _ => none

/-- How far away the target of a conditional branch is. -/
def test : Instruction → Option ℤ
  | ifTest _ tgt => some tgt.toInt
  | ifTestz _ tgt => some tgt.toInt
  | _ => none

/-- The targets of a switch in a payload of its own kind. -/
def cases : Instruction → PayloadInstruction → List (BitVec 32)
  | packedSwitch _, .packedSwitch _ targets => targets
  | sparseSwitch _, .sparseSwitch _ targets => targets
  | _, _ => []

/-- How far away the payload of a switch is. -/
def table : Instruction → Option (BitVec 32)
  | packedSwitch tgt | sparseSwitch tgt => some tgt
  | _ => none

theorem canThrow_of_throws {inst : Instruction} (throws : inst.throws) : inst.canThrow := by
  cases inst with
  | throw => rfl
  | plain opcode =>
    simp only [Instruction.throws, Instruction.canThrow, safe, List.mem_cons, List.not_mem_nil, or_false,
      Bool.or_eq_true, Bool.and_eq_true, decide_eq_true_eq, Bool.not_eq_true', Bool.eq_false_iff, ne_eq] at throws ⊢
    omega
  | _ => simp [Instruction.throws] at throws

theorem mem_targets_of_cases {inst : Instruction} {payload : PayloadInstruction} {rel : BitVec 32}
    (inside : rel ∈ inst.cases payload) : rel ∈ payload.targets := by
  cases inst <;> cases payload <;> first | exact inside | exact absurd inside List.not_mem_nil

end Instruction

/-- The instruction `inst` is the item with index `i` and stands at `pc`. -/
def At (items : List DecodedCodeItem) (i pc : ℕ) (inst : Instruction) : Prop :=
  items[i]? = some (.instruction pc inst)

/-- The handler at `addr` catches what an instruction at `pc` throws. -/
def Catches (code : CodeItem) (pc addr : ℕ) : Prop :=
  ∃ t ∈ code.tries, t.startAddr.toNat ≤ pc ∧ pc < t.startAddr.toNat + t.insnCount.toNat ∧
    ∃ l, code.handlers = some l ∧ ∃ h ∈ l.handlers, h.startOff.toNat = t.handlerOff.toNat ∧ addr ∈ h.targets

/-- Dalvik may go from the instruction with index `i` to the one with index `j`. -/
inductive Step (code : CodeItem) (items : List DecodedCodeItem) (i j : ℕ) : Prop
  | next {pc pc' inst inst'} (source : At items i pc inst) (target : At items j pc' inst') (goesOn : inst.goesOn)
      (next : j = i + 1)
  | goto {pc pc' inst inst' off} (source : At items i pc inst) (target : At items j pc' inst') (jump : inst.jump = some off)
      (lands : (pc' : ℤ) = pc + off)
  | test {pc pc' inst inst' tgt} (source : At items i pc inst) (target : At items j pc' inst') (test : inst.test = some tgt)
      (lands : (pc' : ℤ) = pc + tgt)
  | switch {pc pc' inst inst' tgt p payload} {rel : BitVec 32} (source : At items i pc inst) (target : At items j pc' inst')
      (table : inst.table = some tgt) (found : DecodedCodeItem.payload p payload ∈ items)
      (place : (p : ℤ) = pc + tgt.toInt) (inside : rel ∈ inst.cases payload) (lands : (pc' : ℤ) = pc + rel.toInt)
  | raise {pc pc' inst inst'} (source : At items i pc inst) (target : At items j pc' inst') (throws : inst.throws)
      (catches : Catches code pc pc')

/-- An instruction that runs from the entry. -/
inductive Reachable (code : CodeItem) (items : List DecodedCodeItem) : ℕ → Prop
  | entry : Reachable code items 0
  | step {i j : ℕ} (reached : Reachable code items i) (step : Step code items i j) : Reachable code items j

/-! ## Blocks -/

/-- The blocks have the way from the instruction with index `i` to the one with index `j`. -/
def Covered (code : CodeItem) (items : List DecodedCodeItem) (i j : ℕ) : Prop :=
  ∃ (b : ℕ) (block : BasicBlock), (basicBlocks code items)[b]? = some block ∧ block.start ≤ i ∧ i < block.stop ∧
    (j = i + 1 ∧ j < block.stop ∨
      (∀ k pc inst, i < k → k < block.stop → ¬At items k pc inst) ∧
        ∃ (c : ℕ) (block' : BasicBlock) (succs : List ℕ), (basicBlocks code items)[c]? = some block' ∧ block'.start = j ∧
          (blockSuccessors code items)[b]? = some succs ∧ c ∈ succs)

/-- Some instruction goes on at the offset by a branch, or catches there, or goes on there conditionally. -/
inductive IsStart (code : CodeItem) (items : List DecodedCodeItem) (x : ℕ) : Prop
  | entry (zero : x = 0)
  | branch {i : ℕ} {pc inst off} (source : At items i pc inst) (branch : inst.jump = some off ∨ inst.test = some off)
      (lands : (x : ℤ) = pc + off) (short : x < 2 ^ 31)
  | switch {i : ℕ} {pc inst tgt p payload} {rel : BitVec 32} (source : At items i pc inst) (table : inst.table = some tgt)
      (found : DecodedCodeItem.payload p payload ∈ items) (place : (p : ℤ) = pc + tgt.toInt)
      (inside : rel ∈ payload.targets) (lands : (x : ℤ) = pc + rel.toInt) (short : x < 2 ^ 31)
  | catches {i : ℕ} {pc inst} (source : At items i pc inst) (catches : Catches code pc x)
  | behind {i : ℕ} {pc inst item} (source : At items i pc inst) (next : items[i + 1]? = some item) (lands : x = item.offset)
      (splits : inst.test.isSome ∨ inst.table.isSome ∨ inst.canThrow ∧ ∃ addr, Catches code pc addr)

/-- A start stands behind the instruction with index `i`, no further on than the next instruction. -/
def Cut (code : CodeItem) (items : List DecodedCodeItem) (i pc : ℕ) : Prop :=
  ∀ k pc' inst', i < k → At items k pc' inst' → ∃ x, IsStart code items x ∧ pc < x ∧ x ≤ pc'

/-- The blocks have every way Dalvik may go. -/
def Complete (code : CodeItem) (items : List DecodedCodeItem) : Prop :=
  ∀ i j, Reachable code items i → Step code items i j → Covered code items i j

/-- Every goto that runs is cut off from what follows it. -/
def GotosCut (code : CodeItem) (items : List DecodedCodeItem) : Prop :=
  ∀ i j pc inst, Reachable code items i → At items i pc inst → inst.jump.isSome → Step code items i j → Cut code items i pc

/-- The offsets of a stream increase, and are small. -/
structure Stream (items : List DecodedCodeItem) : Prop where
  increases : items.Pairwise (·.offset < ·.offset)
  short : ∀ item ∈ items, item.offset < 2 ^ 31

theorem stream_of_decodes (decodes : decodeCodeItem code = some items) : Stream items where
  increases := decodeFrom_sorted decodes
  short item member := by
    have inside := offset_of_mem_decodeFrom decodes member
    have short := code.short
    omega

namespace Stream

variable {item item' : DecodedCodeItem} {block : BasicBlock} {x : ℕ}

theorem offset_lt (stream : Stream items) (found : items[i]? = some item) (found' : items[j]? = some item') (lt : i < j) :
    item.offset < item'.offset := by
  obtain ⟨short, rfl⟩ := List.getElem?_eq_some_iff.mp found
  obtain ⟨short', rfl⟩ := List.getElem?_eq_some_iff.mp found'
  exact List.pairwise_iff_getElem.mp stream.increases i j short short' lt

theorem index_unique (stream : Stream items) (found : items[i]? = some item) (found' : items[j]? = some item')
    (same : item.offset = item'.offset) : i = j := by
  rcases lt_trichotomy i j with lt | eq | gt
  · exact absurd same (stream.offset_lt found found' lt).ne
  · exact eq
  · exact absurd same (stream.offset_lt found' found gt).ne'

theorem position_le_iff (stream : Stream items) (found : items[i]? = some item) :
    position items x ≤ i ↔ x ≤ item.offset := by
  obtain ⟨short, rfl⟩ := List.getElem?_eq_some_iff.mp found
  constructor
  · intro le
    have inside : position items x < items.length := lt_of_le_of_lt le short
    have first : x ≤ items[position items x].offset := of_decide_eq_true (List.findIdx_getElem (w := inside))
    rcases Nat.lt_or_eq_of_le le with lt | eq
    · have later := stream.offset_lt (List.getElem?_eq_getElem inside) found lt
      omega
    · simpa only [eq] using first
  · intro le
    by_contra not
    have none := List.not_of_lt_findIdx (not_le.mp not)
    exact of_decide_eq_false none le

/-- A block is a run between two starts. -/
theorem mem_basicBlocks (stream : Stream items) (member : block ∈ basicBlocks code items)
    (found : items[i]? = some item) (inside : block.start ≤ i ∧ i < block.stop) :
    ∃ a e, (a, e) ∈ pieces (2 ^ 64 - 1) (controlFlowTargets code items) ∧ a ≤ item.offset ∧ item.offset < e ∧
      block = ⟨position items a, position items e⟩ := by
  obtain ⟨member, -⟩ := List.mem_filter.mp member
  obtain ⟨⟨a, e⟩, piece, rfl⟩ := List.mem_map.mp member
  have start := (stream.position_le_iff found).mp inside.1
  have stop := mt (stream.position_le_iff found).mpr (not_le.mpr inside.2)
  exact ⟨a, e, piece, start, not_le.mp stop, rfl⟩

/-- Every item is in a block. -/
theorem exists_block (stream : Stream items) (found : items[i]? = some item) :
    ∃ (b : ℕ) (block : BasicBlock), (basicBlocks code items)[b]? = some block ∧ block.start ≤ i ∧ i < block.stop := by
  have zero : 0 ∈ controlFlowTargets code items := mem_sorted.mpr List.mem_cons_self
  have short := stream.short item (List.mem_of_getElem? found)
  obtain ⟨a, e, piece, le, lt⟩ : ∃ a e, (a, e) ∈ pieces (2 ^ 64 - 1) (controlFlowTargets code items) ∧
      a ≤ item.offset ∧ item.offset < e := exists_piece_of_le zero (Nat.zero_le item.offset) (by omega)
  have start := (stream.position_le_iff found).mpr le
  have stop := not_le.mp (mt (stream.position_le_iff found).mp (not_le.mpr lt))
  have member : (⟨position items a, position items e⟩ : BasicBlock) ∈ basicBlocks code items := by
    apply List.mem_filter.mpr
    exact ⟨List.mem_map.mpr ⟨(a, e), piece, rfl⟩, decide_eq_true (lt_of_le_of_lt start stop)⟩
  obtain ⟨b, at'⟩ := List.getElem?_of_mem member
  exact ⟨b, _, at', start, stop⟩

/-- No block goes on over a start. -/
theorem not_start_inside (stream : Stream items) (member : block ∈ basicBlocks code items)
    (found : items[i]? = some item) (found' : items[k]? = some item') (start : block.start ≤ i) (lt : i < k)
    (stop : k < block.stop) (cut : x ∈ controlFlowTargets code items) : x ≤ item.offset ∨ item'.offset < x := by
  obtain ⟨a, e, piece, le, -, rfl⟩ := stream.mem_basicBlocks member found ⟨start, lt.trans stop⟩
  have inside := not_le.mp (mt (stream.position_le_iff found').mpr (not_le.mpr stop))
  rcases (mem_pieces (sorted_pairwise _) piece).1 x cut with before | behind
  · exact .inl (before.trans le)
  · exact .inr (lt_of_lt_of_le inside behind)

/-- A block ends at a start. -/
theorem exists_start (stream : Stream items) (member : block ∈ basicBlocks code items)
    (found : items[i]? = some item) (found' : items[k]? = some item') (start : block.start ≤ i) (lt : i < block.stop)
    (stop : block.stop ≤ k) : ∃ x ∈ controlFlowTargets code items, item.offset < x ∧ x ≤ item'.offset := by
  obtain ⟨a, e, piece, -, inside, rfl⟩ := stream.mem_basicBlocks member found ⟨start, lt⟩
  have behind := (stream.position_le_iff found').mp stop
  rcases (mem_pieces (sorted_pairwise _) piece).2 with ⟨-, cut⟩ | ⟨rfl, -⟩
  · exact ⟨e, cut, inside, behind⟩
  · have short := stream.short item' (List.mem_of_getElem? found')
    omega

/-- A block starts at the first item at or behind a start. -/
theorem block_of_start (stream : Stream items) (found : items[j]? = some item) (cut : x ∈ controlFlowTargets code items)
    (le : x ≤ item.offset) (first : ∀ i item', i < j → items[i]? = some item' → item'.offset < x) :
    ∃ (c : ℕ) (block : BasicBlock), offsetToBlock items (basicBlocks code items) item.offset = some c ∧
      (basicBlocks code items)[c]? = some block ∧ block.start = j := by
  obtain ⟨b, block, at', start, stop⟩ : ∃ (b : ℕ) (block : BasicBlock), (basicBlocks code items)[b]? = some block ∧
      block.start ≤ j ∧ j < block.stop := stream.exists_block found
  have member := List.mem_of_getElem? at'
  have starts : block.start = j := by
    by_contra not
    have before : block.start < j := by omega
    obtain ⟨item', found'⟩ : ∃ item', items[block.start]? = some item' := by
      obtain ⟨short, -⟩ := List.getElem?_eq_some_iff.mp found
      exact ⟨_, List.getElem?_eq_getElem (by omega)⟩
    have early := first block.start item' before found'
    rcases stream.not_start_inside member found' found le_rfl before stop cut with low | high <;> omega
  have holds : (items[block.start]?.any fun other => decide (other.offset = item.offset)) = true := by
    rw [starts, found]
    simp
  cases index : offsetToBlock items (basicBlocks code items) item.offset with
  | none => exact absurd holds (by simpa using List.findIdx?_eq_none_iff.mp index block member)
  | some c =>
    obtain ⟨short, same, -⟩ := List.findIdx?_eq_some_iff_getElem.mp index
    refine ⟨c, _, rfl, List.getElem?_eq_getElem short, ?_⟩
    cases found' : items[((basicBlocks code items)[c]).start]? with
    | none => simp [found'] at same
    | some item' => exact stream.index_unique found' found (by simpa [found'] using same)

end Stream

/-! ## Starts -/

theorem resolveTarget_eq_some {pc x : ℕ} {off : ℤ} (short : pc < 2 ^ 31) :
    resolveTarget pc off = some x ↔ (x : ℤ) = pc + off ∧ x < 2 ^ 31 := by
  unfold resolveTarget
  dsimp only
  split_ifs <;> simp <;> omega

theorem payloadOffset_eq {pc p : ℕ} {tgt : BitVec 32} (short : pc < 2 ^ 31) (short' : p < 2 ^ 31) :
    p = payloadOffset pc tgt ↔ (p : ℤ) = pc + tgt.toInt := by
  have low := BitVec.le_toInt tgt
  have high := BitVec.toInt_lt (x := tgt)
  have same : (BitVec.ofNat 32 pc).toInt = pc := by
    rw [BitVec.toInt_ofNat', Int.bmod_def]
    omega
  simp only [payloadOffset, BitVec.signExtend, BitVec.toNat_ofInt, BitVec.toInt_add, same, Int.bmod_def]
  norm_num at low high ⊢
  omega

variable {pc x : ℕ} {inst : Instruction}

theorem At.mem (found : At items i pc inst) : DecodedCodeItem.instruction pc inst ∈ items := List.mem_of_getElem? found

theorem Stream.at_short (stream : Stream items) (found : At items i pc inst) : pc < 2 ^ 31 := stream.short _ found.mem

theorem mem_switchTargets (stream : Stream items) (short : pc < 2 ^ 31) {tgt : BitVec 32} :
    x ∈ switchTargets items pc tgt ↔ ∃ p payload, DecodedCodeItem.payload p payload ∈ items ∧ (p : ℤ) = pc + tgt.toInt ∧
      ∃ rel ∈ payload.targets, (x : ℤ) = pc + rel.toInt ∧ x < 2 ^ 31 := by
  have place : ∀ p payload, DecodedCodeItem.payload p payload ∈ items →
      (p = payloadOffset pc tgt ↔ (p : ℤ) = pc + tgt.toInt) := fun p payload member =>
    payloadOffset_eq short (stream.short _ member)
  unfold switchTargets
  constructor
  · intro target
    split at target
    · rename_i p payload found
      obtain ⟨rel, inside, lands⟩ := List.mem_filterMap.mp target
      have member := List.mem_of_find?_eq_some found
      have holds := List.find?_some found
      have same : p = payloadOffset pc tgt := of_decide_eq_true holds
      exact ⟨p, payload, member, (place p payload member).mp same, rel, inside, (resolveTarget_eq_some short).mp lands⟩
    · exact absurd target List.not_mem_nil
  · rintro ⟨p, payload, member, at', rel, inside, lands⟩
    have same := (place p payload member).mpr at'
    have found : items.find? (fun item => decide (item.offset = payloadOffset pc tgt)) = some (.payload p payload) := by
      cases first : items.find? (fun item => decide (item.offset = payloadOffset pc tgt)) with
      | none => simpa [same, DecodedCodeItem.offset] using List.find?_eq_none.mp first _ member
      | some item =>
        obtain ⟨m, found⟩ := List.getElem?_of_mem (List.mem_of_find?_eq_some first)
        obtain ⟨n, found'⟩ := List.getElem?_of_mem member
        have offset : item.offset = p := by simpa [same] using List.find?_some first
        obtain rfl := stream.index_unique found found' offset
        exact found.symm.trans found'
    rw [found]
    exact List.mem_filterMap.mpr ⟨rel, inside, (resolveTarget_eq_some short).mpr lands⟩

theorem contains_iff {t : TryItem} (short : pc < 2 ^ 31) :
    t.contains pc ↔ t.startAddr.toNat ≤ pc ∧ pc < t.startAddr.toNat + t.insnCount.toNat := by
  have start := t.startAddr.isLt
  have count := t.insnCount.isLt
  simp only [TryItem.contains, Bool.and_eq_true, decide_eq_true_eq, BitVec.le_def, BitVec.lt_def, BitVec.toNat_ofNat,
    BitVec.toNat_add, BitVec.toNat_setWidth]
  omega

theorem getByOff_eq_some {l : CatchHandlerList} {off : BitVec 16} {h : EncodedCatchHandler} :
    l.getByOff off = some h ↔ h ∈ l.handlers ∧ h.startOff.toNat = off.toNat := by
  have same : ∀ h : EncodedCatchHandler, h.startOff = off.setWidth 32 ↔ h.startOff.toNat = off.toNat := fun h => by
    have small := off.isLt
    rw [← BitVec.toNat_inj, BitVec.toNat_setWidth]
    omega
  rw [← same]
  constructor
  · intro found
    exact ⟨List.mem_of_find?_eq_some found, by simpa using List.find?_some found⟩
  · rintro ⟨member, place⟩
    unfold CatchHandlerList.getByOff
    cases first : l.handlers.find? (fun h => decide (h.startOff = off.setWidth 32)) with
    | none => simpa [place] using List.find?_eq_none.mp first h member
    | some h' =>
      have holds := List.find?_some first
      have place' : h'.startOff = off.setWidth 32 := of_decide_eq_true holds
      have member' := List.mem_of_find?_eq_some first
      exact congrArg some (List.inj_on_of_nodup_map l.startOffs member' member (place'.trans place.symm))

theorem mem_protectedHandlerTargets (short : pc < 2 ^ 31) : x ∈ protectedHandlerTargets code pc ↔ Catches code pc x := by
  unfold protectedHandlerTargets Catches
  cases code.handlers with
  | none => simp
  | some l =>
    simp only [mem_sorted, List.mem_flatMap, List.mem_filter, contains_iff short, Option.some.injEq]
    constructor
    · rintro ⟨t, ⟨member, inside⟩, target⟩
      cases found : l.getByOff t.handlerOff with
      | none => simp [found] at target
      | some h =>
        rw [found] at target
        obtain ⟨listed, off⟩ := getByOff_eq_some.mp found
        exact ⟨t, member, inside.1, inside.2, l, rfl, h, listed, off, target⟩
    · rintro ⟨t, member, start, stop, l, rfl, h, listed, off, target⟩
      refine ⟨t, ⟨member, start, stop⟩, ?_⟩
      rw [getByOff_eq_some.mpr ⟨listed, off⟩]
      exact target

/-- What an instruction asks for beside its handlers. -/
theorem mem_startsOf (short : pc < 2 ^ 31) : x ∈ startsOf code items i (.instruction pc inst) ↔
    Catches code pc x ∨ (∃ off, (inst.jump = some off ∨ inst.test = some off) ∧ (x : ℤ) = pc + off ∧ x < 2 ^ 31) ∨
      (∃ tgt, inst.table = some tgt ∧ x ∈ switchTargets items pc tgt) ∨
      (∃ item, items[i + 1]? = some item ∧ x = item.offset ∧
        (inst.test.isSome ∨ inst.table.isSome ∨ inst.canThrow ∧ ∃ addr, Catches code pc addr)) := by
  have protects : protectedHandlerTargets code pc = [] ↔ ¬∃ addr, Catches code pc addr := by
    simp only [List.eq_nil_iff_forall_not_mem, not_exists, mem_protectedHandlerTargets short]
  simp only [startsOf, List.mem_append, mem_protectedHandlerTargets short, ne_eq, protects, not_not]
  cases inst <;> cases items[i + 1]? <;>
    simp [Instruction.jump, Instruction.test, Instruction.table, Instruction.canThrow, resolveTarget_eq_some short] <;>
    tauto

theorem mem_controlFlowTargets (stream : Stream items) : x ∈ controlFlowTargets code items ↔ IsStart code items x := by
  simp only [controlFlowTargets, mem_sorted, List.mem_cons, List.mem_flatMap, Prod.exists, List.mem_zipIdx_iff_getElem?]
  constructor
  · rintro (zero | ⟨item, i, found, start⟩)
    · exact .entry zero
    · cases item with
      | payload => exact absurd start List.not_mem_nil
      | instruction pc inst =>
        have source : At items i pc inst := found
        have short := stream.at_short source
        rcases (mem_startsOf short).mp start with catches | ⟨off, branch, lands, small⟩ | ⟨tgt, table, target⟩ |
          ⟨item, next, lands, splits⟩
        · exact .catches source catches
        · exact .branch source branch lands small
        · obtain ⟨p, payload, member, place, rel, inside, lands, small⟩ := (mem_switchTargets stream short).mp target
          exact .switch source table member place inside lands small
        · exact .behind source next lands splits
  · have start : ∀ {i pc inst}, At items i pc inst → x ∈ startsOf code items i (.instruction pc inst) →
        x = 0 ∨ ∃ item i, items[i]? = some item ∧ x ∈ startsOf code items i item := fun source start =>
      .inr ⟨_, _, source, start⟩
    intro start'
    cases start' with
    | entry zero => exact .inl zero
    | branch source branch lands small =>
      exact start source ((mem_startsOf (stream.at_short source)).mpr (.inr (.inl ⟨_, branch, lands, small⟩)))
    | switch source table member place inside lands small =>
      have target := (mem_switchTargets stream (stream.at_short source)).mpr
        ⟨_, _, member, place, _, inside, lands, small⟩
      exact start source ((mem_startsOf (stream.at_short source)).mpr (.inr (.inr (.inl ⟨_, table, target⟩))))
    | catches source catches => exact start source ((mem_startsOf (stream.at_short source)).mpr (.inl catches))
    | behind source next lands splits =>
      exact start source ((mem_startsOf (stream.at_short source)).mpr (.inr (.inr (.inr ⟨_, next, lands, splits⟩))))

/-! ## Successors -/

theorem terminator_eq {start stop : ℕ} (found : At items i pc inst) (le : start ≤ i) (lt : i < stop)
    (last : ∀ k pc inst, i < k → k < stop → ¬At items k pc inst) : terminator items start stop = some (i, pc, inst) := by
  induction stop with
  | zero => exact absurd lt (Nat.not_lt_zero i)
  | succ stop ih =>
    rw [terminator, if_neg (by omega)]
    rcases Nat.lt_succ_iff_lt_or_eq.mp lt with before | rfl
    · have rest := ih before fun k pc inst lt lt' => last k pc inst lt (Nat.lt_succ_of_lt lt')
      split
      · rename_i pc' inst' found'
        exact absurd found' (last stop pc' inst' before (Nat.lt_succ_self stop))
      · exact rest
    · rw [show items[i]? = some (.instruction pc inst) from found]

/-- The successors of a block with a last instruction. -/
theorem mem_successors {blocks : List BasicBlock} {block : BasicBlock} {b c : ℕ} (short : pc < 2 ^ 31)
    (ends : terminator items block.start block.stop = some (i, pc, inst)) :
    c ∈ successors code items blocks b block ↔
      (∃ off, (inst.jump = some off ∨ inst.test = some off) ∧
        ∃ x : ℕ, ((x : ℤ) = pc + off ∧ x < 2 ^ 31) ∧ offsetToBlock items blocks x = some c) ∨
      (∃ tgt, inst.table = some tgt ∧ ∃ x ∈ switchTargets items pc tgt, offsetToBlock items blocks x = some c) ∨
      (inst.goesOn ∧ ∃ item, items[i + 1]? = some item ∧ offsetToBlock items blocks item.offset = some c) ∨
      (inst.canThrow ∧ ∃ x, Catches code pc x ∧ offsetToBlock items blocks x = some c) := by
  have raised : ∀ succs : List ℕ, (c ∈ if inst.canThrow then
      ((protectedHandlerTargets code pc).filterMap (offsetToBlock items blocks)).foldl pushNew succs else succs) ↔
      c ∈ succs ∨ (inst.canThrow ∧ ∃ x, Catches code pc x ∧ offsetToBlock items blocks x = some c) := fun succs => by
    split_ifs with throws <;> simp [mem_foldl_pushNew, mem_protectedHandlerTargets short, throws]
  unfold successors
  rw [ends]
  dsimp only
  rw [raised, ← or_assoc, ← or_assoc, or_congr_left]
  cases inst <;>
    simp [Instruction.jump, Instruction.test, Instruction.table, Instruction.goesOn, mem_foldl_pushNew,
      Option.bind_eq_some_iff, resolveTarget_eq_some short, or_comm]

/-! ## Transfers -/

theorem At.unique {pc' : ℕ} {inst' : Instruction} (found : At items i pc inst) (found' : At items i pc' inst') :
    pc = pc' ∧ inst = inst' := by
  have same := Option.some.inj (found.symm.trans found')
  exact ⟨congrArg DecodedCodeItem.offset same, by injection same⟩

/-- The last instruction of a block has an edge to where a start is, once it is a successor. -/
theorem covered_of_last (stream : Stream items) {b pc' : ℕ} {block : BasicBlock} {inst' : Instruction}
    (target : At items j pc' inst') (found : (basicBlocks code items)[b]? = some block)
    (inside : block.start ≤ i ∧ i < block.stop) (last : ∀ k pc inst, i < k → k < block.stop → ¬At items k pc inst)
    (starts : ∃ x, IsStart code items x ∧ x ≤ pc' ∧ ∀ i item', i < j → items[i]? = some item' → item'.offset < x)
    (out : ∀ c, offsetToBlock items (basicBlocks code items) pc' = some c →
      c ∈ successors code items (basicBlocks code items) b block) :
    Covered code items i j := by
  obtain ⟨x, start, le, first⟩ := starts
  obtain ⟨c, block', at', found', begins⟩ :=
    stream.block_of_start target ((mem_controlFlowTargets stream).mpr start) le first
  refine ⟨b, block, found, inside.1, inside.2, .inr ⟨last, c, block', _, found', begins, ?_, out c at'⟩⟩
  simp [blockSuccessors, found]

/-- A block ends behind an instruction that is cut off. -/
theorem last_of_start (stream : Stream items) {block : BasicBlock} (source : At items i pc inst)
    (member : block ∈ basicBlocks code items) (start : block.start ≤ i) (cut : Cut code items i pc) :
    ∀ k pc inst, i < k → k < block.stop → ¬At items k pc inst := by
  intro k pc' inst' lt stop found
  obtain ⟨x, starts, behind, le⟩ := cut k pc' inst' lt found
  rcases stream.not_start_inside member source found start lt stop ((mem_controlFlowTargets stream).mpr starts) with
    low | high
  · exact absurd low (not_le.mpr behind)
  · exact absurd le (not_le.mpr high)

/-- Where an instruction splits the stream behind it, that is so. -/
theorem cut_of_splits (stream : Stream items) (source : At items i pc inst)
    (splits : inst.test.isSome ∨ inst.table.isSome ∨ inst.canThrow ∧ ∃ addr, Catches code pc addr) :
    Cut code items i pc := by
  intro k pc' inst' lt found
  obtain ⟨short, -⟩ := List.getElem?_eq_some_iff.mp (show items[k]? = some _ from found)
  have next : items[i + 1]? = some items[i + 1] := List.getElem?_eq_getElem (by omega)
  refine ⟨items[i + 1].offset, .behind source next rfl splits, stream.offset_lt source next (Nat.lt_succ_self i), ?_⟩
  rcases Nat.lt_or_eq_of_le (show i + 1 ≤ k from lt) with before | rfl
  · exact (stream.offset_lt next found before).le
  · obtain same := Option.some.inj (next.symm.trans found)
    rw [same]
    exact le_rfl

/-- A start at an item is behind all the items before. -/
theorem starts_of_target (stream : Stream items) (target : At items j pc inst) (start : IsStart code items pc) :
    ∃ x, IsStart code items x ∧ x ≤ pc ∧ ∀ i item', i < j → items[i]? = some item' → item'.offset < x :=
  ⟨pc, start, le_rfl, fun _ _ lt found => stream.offset_lt found target lt⟩

/-- A goto goes to its target only. -/
theorem Step.of_jump (stream : Stream items) (step : Step code items i j) (source : At items i pc inst) (jump : inst.jump.isSome) :
    ∃ pc' inst', At items j pc' inst' ∧ IsStart code items pc' := by
  have only : inst.test = none ∧ inst.goesOn = false ∧ inst.table = none ∧ inst.throws = false := by
    cases inst <;> simp [Instruction.jump, Instruction.test, Instruction.goesOn, Instruction.table, Instruction.throws] at jump ⊢
  obtain ⟨test', next', table', throws'⟩ := only
  cases step with
  | next source' target goesOn =>
    obtain ⟨-, rfl⟩ := source.unique source'
    exact absurd goesOn (by simp [next'])
  | goto source' target jump lands =>
    obtain ⟨rfl, rfl⟩ := source.unique source'
    exact ⟨_, _, target, .branch source (.inl jump) lands (stream.at_short target)⟩
  | test source' target test =>
    obtain ⟨-, rfl⟩ := source.unique source'
    exact absurd test (by simp [test'])
  | switch source' target table =>
    obtain ⟨-, rfl⟩ := source.unique source'
    exact absurd table (by simp [table'])
  | raise source' target throws =>
    obtain ⟨-, rfl⟩ := source.unique source'
    exact absurd throws (by simp [throws'])

/-- Whatever leaves the last instruction of a block is there. -/
theorem Step.covered (stream : Stream items) (step : Step code items i j)
    (gotos : ∀ pc inst, At items i pc inst → inst.jump.isSome → Cut code items i pc) : Covered code items i j := by
  obtain ⟨pc, inst, source⟩ : ∃ pc inst, At items i pc inst := by cases step <;> exact ⟨_, _, ‹At items i _ _›⟩
  obtain ⟨pc', inst', target⟩ : ∃ pc' inst', At items j pc' inst' := by cases step <;> exact ⟨_, _, ‹At items j _ _›⟩
  obtain ⟨b, block, found, start, stop⟩ : ∃ (b : ℕ) (block : BasicBlock), (basicBlocks code items)[b]? = some block ∧
      block.start ≤ i ∧ i < block.stop := stream.exists_block source
  have member := List.mem_of_getElem? found
  have short := stream.at_short source
  have short' := stream.at_short target
  have ends : (∀ k pc inst, i < k → k < block.stop → ¬At items k pc inst) →
      terminator items block.start block.stop = some (i, pc, inst) := terminator_eq source start stop
  cases step with
  | next source' target' goesOn eq =>
    obtain ⟨rfl, rfl⟩ := source.unique source'
    subst eq
    by_cases within : i + 1 < block.stop
    · exact ⟨b, block, found, start, stop, .inl ⟨rfl, within⟩⟩
    · have last : ∀ k pc inst, i < k → k < block.stop → ¬At items k pc inst := fun k _ _ lt lt' => by omega
      obtain ⟨x, cut, behind, le⟩ := stream.exists_start member source target start stop (not_lt.mp within)
      refine covered_of_last stream target found ⟨start, stop⟩ last
        ⟨x, (mem_controlFlowTargets stream).mp cut, le, fun m item lt found => ?_⟩ fun c at' => ?_
      · rcases Nat.lt_succ_iff_lt_or_eq.mp lt with before | rfl
        · exact (stream.offset_lt found source before).trans behind
        · exact Option.some.inj (found.symm.trans source) ▸ behind
      · exact (mem_successors short (ends last)).mpr (.inr (.inr (.inl ⟨goesOn, _, target, at'⟩)))
  | goto source' target' jump lands =>
    obtain ⟨rfl, rfl⟩ := source.unique source'
    obtain ⟨rfl, rfl⟩ := target.unique target'
    have last := last_of_start stream source member start (gotos pc inst source (by simp [jump]))
    apply covered_of_last stream target found ⟨start, stop⟩ last
    · exact starts_of_target stream target (.branch source (.inl jump) lands short')
    · exact fun c at' => (mem_successors short (ends last)).mpr (.inl ⟨_, .inl jump, pc', ⟨lands, short'⟩, at'⟩)
  | test source' target' test lands =>
    obtain ⟨rfl, rfl⟩ := source.unique source'
    obtain ⟨rfl, rfl⟩ := target.unique target'
    have last := last_of_start stream source member start (cut_of_splits stream source (.inl (by simp [test])))
    apply covered_of_last stream target found ⟨start, stop⟩ last
    · exact starts_of_target stream target (.branch source (.inr test) lands short')
    · exact fun c at' => (mem_successors short (ends last)).mpr (.inl ⟨_, .inr test, pc', ⟨lands, short'⟩, at'⟩)
  | switch source' target' table listed place inside lands =>
    obtain ⟨rfl, rfl⟩ := source.unique source'
    obtain ⟨rfl, rfl⟩ := target.unique target'
    have last := last_of_start stream source member start (cut_of_splits stream source (.inr (.inl (by simp [table]))))
    have inside' := Instruction.mem_targets_of_cases inside
    apply covered_of_last stream target found ⟨start, stop⟩ last
    · exact starts_of_target stream target (.switch source table listed place inside' lands short')
    · intro c at'
      have listed' := (mem_switchTargets stream short).mpr ⟨_, _, listed, place, _, inside', lands, short'⟩
      exact (mem_successors short (ends last)).mpr (.inr (.inl ⟨_, table, pc', listed', at'⟩))
  | raise source' target' throws catches =>
    obtain ⟨rfl, rfl⟩ := source.unique source'
    obtain ⟨rfl, rfl⟩ := target.unique target'
    have raises := Instruction.canThrow_of_throws throws
    have last := last_of_start stream source member start
      (cut_of_splits stream source (.inr (.inr ⟨raises, pc', catches⟩)))
    apply covered_of_last stream target found ⟨start, stop⟩ last
    · exact starts_of_target stream target (.catches source catches)
    · exact fun c at' => (mem_successors short (ends last)).mpr (.inr (.inr (.inr ⟨raises, pc', catches, at'⟩)))

/-- A goto with its way in the blocks is cut off: it is the last instruction of its block. -/
theorem cut_of_covered (stream : Stream items) (source : At items i pc inst) (jump : inst.jump.isSome)
    (step : Step code items i j) (covered : Covered code items i j) : Cut code items i pc := by
  obtain ⟨b, block, found, start, stop, way⟩ := covered
  have member := List.mem_of_getElem? found
  intro k pc' inst' lt found'
  have behind : block.stop ≤ k := by
    by_contra within
    rcases way with ⟨rfl, within'⟩ | ⟨last, -⟩
    · obtain ⟨target, _, at', starts⟩ := step.of_jump stream source jump
      have later := stream.offset_lt source at' (Nat.lt_succ_self i)
      rcases stream.not_start_inside member source at' start (Nat.lt_succ_self i) within'
        ((mem_controlFlowTargets stream).mpr starts) with low | high
      · exact absurd low (not_le.mpr later)
      · exact absurd high (lt_irrefl _)
    · exact last k pc' inst' lt (not_le.mp within) found'
  obtain ⟨x, cut, above, le⟩ := stream.exists_start member source found' start stop behind
  exact ⟨x, (mem_controlFlowTargets stream).mp cut, above, le⟩

/-- The blocks of a stream have every way Dalvik may go just when its gotos are cut off. -/
theorem complete_iff_gotosCut (decodes : decodeCodeItem code = some items) :
    Complete code items ↔ GotosCut code items := by
  have stream := stream_of_decodes decodes
  constructor
  · intro complete i j pc inst reached source jump step
    exact cut_of_covered stream source jump step (complete i j reached step)
  · intro cut i j reached step
    apply step.covered stream
    exact fun pc inst source jump => cut i j pc inst reached source jump step

/-- `goto +1` and the return it goes to. -/
def gotoNext : CodeItem where
  insns := [0x0128, 0x000e]
  short := by decide

theorem complete_gotoNext : Complete gotoNext [.instruction 0 (.goto 1), .instruction 1 (.ret 0x0e)] := by
  apply (complete_iff_gotosCut (by rfl)).mpr
  intro i j pc inst _ source jump _ k pc' inst' lt found
  obtain ⟨short, -⟩ := List.getElem?_eq_some_iff.mp (show _ = some _ from found)
  obtain rfl : i = 0 := by simp at short; omega
  obtain rfl : k = 1 := by simp at short; omega
  obtain ⟨rfl, rfl⟩ := found.unique (show At _ 1 1 (.ret 0x0e) from rfl)
  obtain ⟨rfl, rfl⟩ := source.unique (show At _ 0 0 (.goto 1) from rfl)
  exact ⟨1, .branch source (.inl rfl) rfl (by decide), by decide, le_rfl⟩

/-- A goto over a nop and a return that nothing else goes to: `goto +3`, `nop`, `return-void`, `return-void`. -/
def gotoOver : CodeItem where
  insns := [0x0328, 0x0000, 0x000e, 0x000e]
  short := by decide

/-- The block of the goto ends in the first return, so the goto's way to the second is lost. -/
theorem not_complete_gotoOver : ∃ items, decodeCodeItem gotoOver = some items ∧ ¬Complete gotoOver items := by
  refine ⟨[.instruction 0 (.goto 3), .instruction 1 (.plain 0), .instruction 2 (.ret 0x0e), .instruction 3 (.ret 0x0e)],
    rfl, fun complete => ?_⟩
  obtain ⟨b, block, found, start, stop, way⟩ := complete 0 3 .entry
    (.goto rfl rfl rfl rfl)
  have blocks : basicBlocks gotoOver [.instruction 0 (.goto 3), .instruction 1 (.plain 0), .instruction 2 (.ret 0x0e),
      .instruction 3 (.ret 0x0e)] = [⟨0, 3⟩, ⟨3, 4⟩] := by decide
  rw [blocks] at found
  rcases way with ⟨next, -⟩ | ⟨last, -⟩
  · exact absurd next (by decide)
  · match b with
    | 0 =>
      obtain rfl := Option.some.inj found
      exact last 1 1 (.plain 0) (by decide) (by decide) rfl
    | 1 =>
      obtain rfl := Option.some.inj found
      exact absurd start (by decide)
    | b + 2 => simp at found

end Ctadl.Dex
