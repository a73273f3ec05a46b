import Ctadl.Jvm.Blocks
import Mathlib.Tactic.NormNum

/-! # Control flow of a JVM method

The JVM goes from an instruction to the next one or to where it branches. The basic blocks have such a way
unless it is lost inside a block: a goto or switch with more instructions behind it in its block, or a next
instruction that other leaders, inside the instruction before, set apart.
-/

namespace Ctadl.Jvm

open Graph
open Collections (bind_eq_ok)

variable {attr : CodeAttribute} {code : List UInt8} {ctrl : List InstrCtrl} {i j k pc opcode : ℕ} {m m' : InstrCtrl}

/-! ## The JVM -/

/-- The instruction is one of the JVM's, and `wide` stands only before what it may. -/
def Valid (code : List UInt8) (m : InstrCtrl) : Prop :=
  ∃ byte, code[m.pc]? = some byte ∧ byte.toNat ≤ 0xc9 ∧ (byte = 0xc4 → wideOperands m.opcode ≠ 0)

/-- A branch offset in the instruction at `pc`. -/
inductive Offset (code : List UInt8) (pc opcode : ℕ) : BitVec 32 → Prop
  | short {n} (branch : isConditional opcode ∨ opcode = 0xa7 ∨ opcode = 0xa8) (read : readU16Be code (pc + 1) = .ok n) :
    Offset code pc opcode ((BitVec.ofNat 16 n).signExtend 32)
  | long {off} (branch : opcode = 0xc8 ∨ opcode = 0xc9) (read : readI32Be code (pc + 1) = .ok off) :
    Offset code pc opcode off
  | default {off} (switch : opcode = 0xaa ∨ opcode = 0xab) (read : readI32Be code (align pc) = .ok off) :
    Offset code pc opcode off
  | table {low high off} {k : ℕ} (switch : opcode = 0xaa) (readLow : readI32Be code (align pc + 4) = .ok low)
    (readHigh : readI32Be code (align pc + 8) = .ok high) (inside : (k : ℤ) < (tableCount low high).toInt)
    (read : readI32Be code (align pc + 12 + k * 4) = .ok off) : Offset code pc opcode off
  | lookup {npairs off} {k : ℕ} (switch : opcode = 0xab) (readPairs : readI32Be code (align pc + 4) = .ok npairs)
    (inside : (k : ℤ) < npairs.toInt) (read : readI32Be code (align pc + 12 + k * 8) = .ok off) :
    Offset code pc opcode off

/-- Whether the next instruction may follow: not behind a goto, `jsr`, `ret`, switch, return or `athrow`. -/
def GoesOn (opcode : ℕ) : Prop :=
  opcode ∉ [0xa7, 0xa8, 0xa9, 0xaa, 0xab, 0xac, 0xad, 0xae, 0xaf, 0xb0, 0xb1, 0xbf, 0xc8, 0xc9]

/-- The JVM may go from the instruction with index `i` to the one with index `j`. -/
inductive Step (code : List UInt8) (ctrl : List InstrCtrl) (i j : ℕ) : Prop
  | next {m m' : InstrCtrl} (source : ctrl[i]? = some m) (target : ctrl[j]? = some m') (valid : Valid code m) (goesOn : GoesOn m.opcode)
    (next : j = i + 1)
  | branch {m m' : InstrCtrl} {off : BitVec 32} (source : ctrl[i]? = some m) (target : ctrl[j]? = some m') (valid : Valid code m)
    (offset : Offset code m.pc m.opcode off) (lands : (m'.pc : ℤ) = m.pc + off.toInt)

/-- An instruction that runs from the entry. -/
inductive Reachable (code : List UInt8) (ctrl : List InstrCtrl) : ℕ → Prop
  | entry : Reachable code ctrl 0
  | step {i j : ℕ} (reached : Reachable code ctrl i) (step : Step code ctrl i j) : Reachable code ctrl j

/-- The blocks have the way from the instruction with index `i` to the one with index `j`. -/
def Covered (attr : CodeAttribute) (ctrl : List InstrCtrl) (i j : ℕ) : Prop :=
  ∃ (b : ℕ) (block : BasicBlock), (basicBlocks attr ctrl)[b]? = some block ∧ block.first ≤ i ∧ i < block.stop ∧
    (j = i + 1 ∧ j < block.stop ∨
      block.stop = i + 1 ∧ ∃ (c : ℕ) (block' : BasicBlock) (succs : List ℕ), (basicBlocks attr ctrl)[c]? = some block' ∧
        block'.first = j ∧ j < block'.stop ∧ (blockSuccessors attr ctrl)[b]? = some succs ∧ c ∈ succs)

/-- The blocks have every way the JVM may go. -/
def Complete (attr : CodeAttribute) (ctrl : List InstrCtrl) : Prop :=
  ∀ i j, Reachable attr.code ctrl i → Step attr.code ctrl i j → Covered attr ctrl i j

/-- The entry, a handler, a branch target, or the next instruction of a conditional branch. -/
inductive IsLeader (attr : CodeAttribute) (ctrl : List InstrCtrl) (l : ℕ) : Prop
  | entry (zero : l = 0)
  | handler {ex} (listed : ex ∈ attr.exceptionTable) (starts : l = ex.handlerPc.toNat)
  | target {m : InstrCtrl} {off : BitVec 32} (member : m ∈ ctrl) (offset : Offset attr.code m.pc m.opcode off) (lands : l = branchTarget m.pc off)
    (inside : l < attr.code.length)
  | behind {i : ℕ} {m m' : InstrCtrl} (source : ctrl[i]? = some m) (next : ctrl[i + 1]? = some m') (branch : isConditional m.opcode)
    (starts : l = m'.pc)

/-- A leader stands behind the instruction with index `i`, no further on than the next instruction. -/
def Cut (attr : CodeAttribute) (ctrl : List InstrCtrl) (i : ℕ) : Prop :=
  ∀ m m', ctrl[i]? = some m → ctrl[i + 1]? = some m' → ∃ l, IsLeader attr ctrl l ∧ m.pc < l ∧ l ≤ m'.pc

/-- No leader stands between an instruction and a later one, that one included. -/
def Straight (attr : CodeAttribute) (ctrl : List InstrCtrl) (m m' : InstrCtrl) : Prop :=
  ∀ l, IsLeader attr ctrl l → l ≤ m.pc ∨ m'.pc < l

/-- Where leaders stand behind the instruction with index `i` up to the next one, the last of them is the only one,
a branch target of the instruction, or the handler of a range that its block reaches into. -/
def Entered (attr : CodeAttribute) (ctrl : List InstrCtrl) (i : ℕ) : Prop :=
  ∀ m m' l, ctrl[i]? = some m → ctrl[i + 1]? = some m' → IsLeader attr ctrl l → m.pc < l → l ≤ m'.pc →
    (∀ l', IsLeader attr ctrl l' → l' ≤ m'.pc → l' ≤ l) →
      (∀ l', IsLeader attr ctrl l' → m.pc < l' → l ≤ l') ∨
      (∃ off, Offset attr.code m.pc m.opcode off ∧ l = branchTarget m.pc off) ∨
      ∃ ex ∈ attr.exceptionTable, ex.handlerPc.toNat = l ∧ ex.startPc.toNat ≤ m.pc ∧
        ∃ (k : ℕ) (first : InstrCtrl), k ≤ i ∧ ctrl[k]? = some first ∧ Straight attr ctrl first m ∧
          first.pc < ex.endPc.toNat

/-- Every branch that runs is cut off from what follows it, and every instruction behind one that runs is entered. -/
def Kept (attr : CodeAttribute) (ctrl : List InstrCtrl) : Prop :=
  ∀ i m, Reachable attr.code ctrl i → ctrl[i]? = some m → Valid attr.code m →
    ((∃ off m', m' ∈ ctrl ∧ Offset attr.code m.pc m.opcode off ∧ (m'.pc : ℤ) = m.pc + off.toInt) → Cut attr ctrl i) ∧
    (GoesOn m.opcode → Entered attr ctrl i)

/-! ## Decoding -/

theorem decodeInstr_pc (decodes : decodeInstr code pc = .ok m) : m.pc = pc := by
  unfold decodeInstr at decodes
  split at decodes
  · exact nomatch decodes
  · simp only [bind_eq_ok] at decodes
    obtain ⟨_, _, _, _, eq⟩ := decodes
    cases eq
    rfl

theorem instructionLength_pos {length : ℕ} (reads : instructionLength code pc opcode = .ok length) :
    0 < length ∧ (isConditional (logicalOpcode code pc opcode) → 2 ≤ length) := by
  have far : pc < align pc := by
    unfold align
    omega
  unfold instructionLength at reads
  unfold logicalOpcode isConditional
  split_ifs at reads with table truncated lookup truncated wide
  · simp only [bind_eq_ok] at reads
    obtain ⟨low, _, high, _, eq⟩ := reads
    cases eq
    subst table
    exact ⟨by omega, by simp⟩
  · simp only [bind_eq_ok] at reads
    obtain ⟨npairs, _, eq⟩ := reads
    cases eq
    subst lookup
    exact ⟨by omega, by simp⟩
  · split at reads
    · exact nomatch reads
    · cases reads
      omega
  · cases reads
    refine ⟨by omega, fun conditional => ?_⟩
    rw [if_neg wide] at conditional
    have operands : operandByteCount opcode = 2 := by
      simp only [Bool.or_eq_true, Bool.and_eq_true, decide_eq_true_eq] at conditional
      rw [operandByteCount, if_neg, if_pos]
      · simp
        omega
      · simp
        omega
    omega

/-- What the decoder keeps of the instruction at `pc`. -/
theorem decodeInstr_spec (decodes : decodeInstr code pc = .ok m) : pc < code.length ∧ pc < m.nextPc ∧
    branchTargets code pc m.opcode = .ok m.branchTargets ∧
    m.fallsThrough = (!endsFlow m.opcode && m.nextPc < code.length) ∧ (isConditional m.opcode → pc + 2 ≤ m.nextPc) := by
  unfold decodeInstr at decodes
  split at decodes
  · exact nomatch decodes
  · rename_i byte found
    simp only [bind_eq_ok] at decodes
    obtain ⟨length, reads, targets, branches, eq⟩ := decodes
    cases eq
    obtain ⟨pos, two⟩ := instructionLength_pos reads
    obtain ⟨short, -⟩ := List.getElem?_eq_some_iff.mp found
    exact ⟨short, by dsimp only; omega, branches, rfl, fun conditional => Nat.add_le_add_left (two conditional) pc⟩

/-- The instructions from `pc` to the end of the code, each where the one before ends. -/
inductive Run (code : List UInt8) : ℕ → List InstrCtrl → Prop
  | nil {pc : ℕ} (done : code.length ≤ pc) : Run code pc []
  | cons {pc : ℕ} {m : InstrCtrl} {ctrl} (decodes : decodeInstr code pc = .ok m) (rest : Run code m.nextPc ctrl) :
    Run code pc (m :: ctrl)

theorem run_of_decodeFrom {left skip : ℕ} (all : pc + left = code.length) (decodes : decodeFrom code left pc skip = .ok ctrl) :
    Run code (pc + skip) ctrl := by
  induction left generalizing pc skip ctrl with
  | zero =>
    cases decodes
    exact .nil (by omega)
  | succ left ih =>
    cases skip with
    | succ skip =>
      have rest : Run code (pc + 1 + skip) ctrl := ih (by omega) decodes
      rwa [Nat.add_right_comm] at rest
    | zero =>
      obtain ⟨m, first, ok⟩ := bind_eq_ok.mp decodes
      obtain ⟨ctrl, others, ok⟩ := bind_eq_ok.mp ok
      cases ok
      have behind := (decodeInstr_spec first).2.1
      have run := ih (by omega) others
      rw [show pc + 1 + (m.nextPc - pc - 1) = m.nextPc by omega] at run
      exact .cons first run

theorem run_of_decodeCtrl (decodes : decodeCtrl code = .ok ctrl) : Run code 0 ctrl :=
  run_of_decodeFrom (Nat.zero_add _) decodes

namespace Run

theorem decoded (run : Run code pc ctrl) (member : m ∈ ctrl) :
    pc ≤ m.pc ∧ m.pc < code.length ∧ decodeInstr code m.pc = .ok m := by
  induction run with
  | nil => exact absurd member List.not_mem_nil
  | cons decodes rest ih =>
    rename_i pc first ctrl
    have start := decodeInstr_pc decodes
    obtain ⟨short, behind, -⟩ := decodeInstr_spec decodes
    rcases List.mem_cons.mp member with rfl | later
    · rw [start]
      exact ⟨le_rfl, short, decodes⟩
    · obtain ⟨le, inside, decodes'⟩ := ih later
      exact ⟨behind.le.trans le, inside, decodes'⟩

theorem increases (run : Run code pc ctrl) : ctrl.Pairwise (·.pc < ·.pc) := by
  induction run with
  | nil => exact .nil
  | cons decodes rest ih =>
    apply List.Pairwise.cons
    · intro m member
      have start := decodeInstr_pc decodes
      have behind := (decodeInstr_spec decodes).2.1
      have le := (rest.decoded member).1
      omega
    · exact ih

theorem next (run : Run code pc ctrl) (found : ctrl[i]? = some m) (found' : ctrl[i + 1]? = some m') : m'.pc = m.nextPc := by
  induction run generalizing i with
  | nil => simp at found
  | cons decodes rest ih =>
    cases i with
    | zero =>
      obtain rfl := Option.some.inj found
      cases rest with
      | nil => simp at found'
      | cons decodes' _ =>
        obtain rfl := Option.some.inj found'
        exact decodeInstr_pc decodes'
    | succ i => exact ih found found'

theorem last (run : Run code pc ctrl) (found : ctrl[i]? = some m) (none : ctrl[i + 1]? = none) : code.length ≤ m.nextPc := by
  induction run generalizing i with
  | nil => simp at found
  | cons decodes rest ih =>
    cases i with
    | zero =>
      obtain rfl := Option.some.inj found
      cases rest with
      | nil done => exact done
      | cons => simp at none
    | succ i => exact ih found none

theorem pc_lt (run : Run code pc ctrl) (found : ctrl[i]? = some m) (found' : ctrl[j]? = some m') (lt : i < j) : m.pc < m'.pc := by
  obtain ⟨short, rfl⟩ := List.getElem?_eq_some_iff.mp found
  obtain ⟨short', rfl⟩ := List.getElem?_eq_some_iff.mp found'
  exact List.pairwise_iff_getElem.mp run.increases i j short short' lt

end Run

/-! ## Branch targets -/

theorem mem_of_mapM_ok {α β : Type} {f : α → ClassFileResult β} {l : List α} {out : List β} {b : β}
    (ok : l.mapM f = .ok out) : b ∈ out ↔ ∃ a ∈ l, f a = .ok b := by
  induction l generalizing out with
  | nil =>
    cases ok
    simp
  | cons a l ih =>
    rw [List.mapM_cons] at ok
    obtain ⟨c, first, ok⟩ := bind_eq_ok.mp ok
    obtain ⟨rest, others, ok⟩ := bind_eq_ok.mp ok
    cases ok
    simp [ih others, first, eq_comm]

theorem ok_of_mapM_ok {α β : Type} {f : α → ClassFileResult β} {l : List α} {out : List β} {a : α}
    (ok : l.mapM f = .ok out) (member : a ∈ l) : ∃ b, f a = .ok b := by
  induction l generalizing out with
  | nil => exact absurd member List.not_mem_nil
  | cons c l ih =>
    rw [List.mapM_cons] at ok
    obtain ⟨b, first, ok⟩ := bind_eq_ok.mp ok
    obtain ⟨rest, others, -⟩ := bind_eq_ok.mp ok
    rcases List.mem_cons.mp member with rfl | later
    · exact ⟨b, first⟩
    · exact ih others later

theorem readI32Be_short {data : List UInt8} {offset : ℕ} {n : BitVec 32} (reads : readI32Be data offset = .ok n) :
    offset + 3 < data.length := by
  unfold readI32Be at reads
  split at reads
  · rename_i found
    exact (List.getElem?_eq_some_iff.mp found).1
  · exact nomatch reads

theorem lt_asUsize {n : BitVec 32} (nonneg : 0 ≤ n.toInt) : k < asUsize n ↔ (k : ℤ) < n.toInt := by
  have high := BitVec.toInt_lt (x := n)
  unfold asUsize BitVec.signExtend
  rw [BitVec.toNat_ofInt]
  norm_num at high ⊢
  omega

/-- A table that is read whole has its count of entries. -/
theorem mem_readTable {n : BitVec 32} {stride : ℕ} {offsets : List (BitVec 32)} {off : BitVec 32}
    (short : code.length < 2 ^ 32) (pos : 0 < stride) (ok : readTable code pc (asUsize n) stride = .ok offsets) : off ∈ offsets ↔
      readI32Be code (align pc) = .ok off ∨
        ∃ k : ℕ, (k : ℤ) < n.toInt ∧ readI32Be code (align pc + 12 + k * stride) = .ok off := by
  obtain ⟨default, first, ok⟩ := bind_eq_ok.mp ok
  obtain ⟨rest, entries, ok⟩ := bind_eq_ok.mp ok
  cases ok
  have nonneg : 0 ≤ n.toInt := by
    by_contra negative
    -- a negative count is more than the code has bytes
    have huge : code.length < asUsize n := by
      have low := BitVec.le_toInt n
      unfold asUsize BitVec.signExtend
      rw [BitVec.toNat_ofInt]
      norm_num at low ⊢
      omega
    obtain ⟨entry, reads⟩ := ok_of_mapM_ok entries (List.mem_range.mpr huge)
    have inside := readI32Be_short reads
    have far := Nat.le_mul_of_pos_right code.length pos
    omega
  simp only [List.mem_cons, mem_of_mapM_ok entries, List.mem_range, lt_asUsize nonneg, first, Except.ok.injEq, eq_comm]

theorem readU16Be_short {data : List UInt8} {offset n : ℕ} (reads : readU16Be data offset = .ok n) :
    offset + 1 < data.length := by
  unfold readU16Be at reads
  split at reads
  · rename_i found
    exact (List.getElem?_eq_some_iff.mp found).1
  · exact nomatch reads

theorem isConditional_iff : isConditional opcode ↔ 0x99 ≤ opcode ∧ opcode ≤ 0xa6 ∨ opcode = 0xc6 ∨ opcode = 0xc7 := by
  simp [isConditional, or_assoc]

variable {off : BitVec 32}

theorem offset_short (branch : isConditional opcode ∨ opcode = 0xa7 ∨ opcode = 0xa8) : Offset code pc opcode off ↔
    ∃ n, readU16Be code (pc + 1) = .ok n ∧ off = (BitVec.ofNat 16 n).signExtend 32 := by
  constructor
  · intro offset
    rw [isConditional_iff] at branch
    cases offset with
    | short _ read => exact ⟨_, read, rfl⟩
    | _ => omega
  · rintro ⟨n, read, rfl⟩
    exact .short branch read

theorem offset_long (branch : opcode = 0xc8 ∨ opcode = 0xc9) :
    Offset code pc opcode off ↔ readI32Be code (pc + 1) = .ok off := by
  constructor
  · intro offset
    cases offset with
    | long _ read => exact read
    | short other => rw [isConditional_iff] at other; omega
    | _ => omega
  · exact .long branch

theorem offset_table (switch : opcode = 0xaa) {low high : BitVec 32} (readLow : readI32Be code (align pc + 4) = .ok low)
    (readHigh : readI32Be code (align pc + 8) = .ok high) : Offset code pc opcode off ↔
      readI32Be code (align pc) = .ok off ∨
        ∃ k : ℕ, (k : ℤ) < (tableCount low high).toInt ∧ readI32Be code (align pc + 12 + k * 4) = .ok off := by
  constructor
  · intro offset
    cases offset with
    | default _ read => exact .inl read
    | table _ readLow' readHigh' inside read =>
      obtain rfl := Except.ok.inj (readLow.symm.trans readLow')
      obtain rfl := Except.ok.inj (readHigh.symm.trans readHigh')
      exact .inr ⟨_, inside, read⟩
    | short other => rw [isConditional_iff] at other; omega
    | _ => omega
  · rintro (read | ⟨k, inside, read⟩)
    · exact .default (.inl switch) read
    · exact .table switch readLow readHigh inside read

theorem offset_lookup (switch : opcode = 0xab) {npairs : BitVec 32}
    (readPairs : readI32Be code (align pc + 4) = .ok npairs) : Offset code pc opcode off ↔
      readI32Be code (align pc) = .ok off ∨
        ∃ k : ℕ, (k : ℤ) < npairs.toInt ∧ readI32Be code (align pc + 12 + k * 8) = .ok off := by
  constructor
  · intro offset
    cases offset with
    | default _ read => exact .inl read
    | lookup _ readPairs' inside read =>
      obtain rfl := Except.ok.inj (readPairs.symm.trans readPairs')
      exact .inr ⟨_, inside, read⟩
    | short other => rw [isConditional_iff] at other; omega
    | _ => omega
  · rintro (read | ⟨k, inside, read⟩)
    · exact .default (.inr switch) read
    · exact .lookup switch readPairs inside read

/-- An instruction with a branch offset is a conditional branch, or nothing goes on behind it. -/
theorem Offset.branches (offset : Offset code pc opcode off) : isConditional opcode ∨ endsFlow opcode := by
  cases offset with
  | short branch =>
    rcases branch with conditional | rfl | rfl
    · exact .inl conditional
    · exact .inr rfl
    · exact .inr rfl
  | long branch => rcases branch with rfl | rfl <;> exact .inr rfl
  | default switch => rcases switch with rfl | rfl <;> exact .inr rfl
  | table switch => exact switch ▸ .inr rfl
  | lookup switch => exact switch ▸ .inr rfl

/-- The targets kept of an instruction are where its offsets lead. -/
theorem mem_branchTargets {targets : List ℕ} {t : ℕ} (short : code.length < 2 ^ 32)
    (ok : branchTargets code pc opcode = .ok targets) :
    t ∈ targets ↔ ∃ off, Offset code pc opcode off ∧ t = branchTarget pc off := by
  unfold branchTargets at ok
  split_ifs at ok with branch whole branch' whole' table lookup
  · obtain ⟨off, read, ok⟩ := bind_eq_ok.mp ok
    cases ok
    simp only [offset_short branch]
    unfold readOffset16 at read
    cases read' : readU16Be code (pc + 1) with
    | error e => simp [read', Except.map] at read
    | ok n =>
      rw [read'] at read
      obtain rfl := Except.ok.inj read
      simp
  · cases ok
    simp only [offset_short branch, List.not_mem_nil, false_iff]
    rintro ⟨off, ⟨n, read, -⟩, -⟩
    have inside := readU16Be_short read
    omega
  · obtain ⟨off, read, ok⟩ := bind_eq_ok.mp ok
    cases ok
    simp [offset_long branch', read]
  · cases ok
    simp only [offset_long branch', List.not_mem_nil, false_iff]
    rintro ⟨off, read, -⟩
    have inside := readI32Be_short read
    omega
  · obtain ⟨low, readLow, ok⟩ := bind_eq_ok.mp ok
    obtain ⟨high, readHigh, ok⟩ := bind_eq_ok.mp ok
    obtain ⟨offsets, read, ok⟩ := bind_eq_ok.mp ok
    cases ok
    simp only [mem_sorted, List.mem_map, mem_readTable short (by decide) read, offset_table table readLow readHigh, eq_comm]
  · obtain ⟨npairs, readPairs, ok⟩ := bind_eq_ok.mp ok
    obtain ⟨offsets, read, ok⟩ := bind_eq_ok.mp ok
    cases ok
    simp only [mem_sorted, List.mem_map, mem_readTable short (by decide) read, offset_lookup lookup readPairs, eq_comm]
  · cases ok
    simp only [List.not_mem_nil, false_iff]
    rintro ⟨off, offset, -⟩
    cases offset with
    | short other => exact branch other
    | long other => exact branch' other
    | default other => exact other.elim table lookup
    | table other => exact table other
    | lookup other => exact lookup other

/-! ## Leaders -/

/-- What the decoder keeps of an instruction of the run. -/
theorem Run.mem_targets (run : Run attr.code pc ctrl) (member : m ∈ ctrl) {t : ℕ} :
    t ∈ m.branchTargets ↔ ∃ off, Offset attr.code m.pc m.opcode off ∧ t = branchTarget m.pc off :=
  mem_branchTargets attr.short (decodeInstr_spec (run.decoded member).2.2).2.2.1

theorem Run.fallsThrough_iff (run : Run code pc ctrl) (found : ctrl[i]? = some m) :
    m.fallsThrough ↔ endsFlow m.opcode = false ∧ ∃ m', ctrl[i + 1]? = some m' := by
  have spec := (decodeInstr_spec (run.decoded (List.mem_of_getElem? found)).2.2).2.2.2.1
  have next : m.nextPc < code.length ↔ ∃ m', ctrl[i + 1]? = some m' := by
    constructor
    · intro short
      cases found' : ctrl[i + 1]? with
      | none => exact absurd short (not_lt.mpr (run.last found found'))
      | some m' => exact ⟨m', rfl⟩
    · rintro ⟨m', found'⟩
      rw [← run.next found found']
      exact (run.decoded (List.mem_of_getElem? found')).2.1
  rw [spec, Bool.and_eq_true, Bool.not_eq_true', decide_eq_true_eq, next]

/-- A conditional branch with an instruction behind it has its offset in the code. -/
theorem Run.exists_offset (run : Run code pc ctrl) (found : ctrl[i]? = some m) (found' : ctrl[i + 1]? = some m')
    (conditional : isConditional m.opcode) : ∃ off, Offset code m.pc m.opcode off := by
  obtain ⟨-, inside, decodes⟩ := run.decoded (List.mem_of_getElem? found')
  have spec := (decodeInstr_spec (run.decoded (List.mem_of_getElem? found)).2.2).2.2.2.2 conditional
  have next := run.next found found'
  obtain ⟨high, at'⟩ : ∃ high, code[m.pc + 1]? = some high := ⟨_, List.getElem?_eq_getElem (by omega)⟩
  obtain ⟨low, at''⟩ : ∃ low, code[m.pc + 1 + 1]? = some low := ⟨_, List.getElem?_eq_getElem (by omega)⟩
  have read : readU16Be code (m.pc + 1) = .ok (high.toNat * 256 + low.toNat) := by
    simp only [readU16Be, at', at'']
  exact ⟨_, .short (.inl conditional) read⟩

theorem mem_leaders (run : Run attr.code 0 ctrl) {l : ℕ} : l ∈ leaders attr ctrl ↔ IsLeader attr ctrl l := by
  simp only [leaders, mem_sorted, List.mem_append, List.mem_cons, List.mem_map, List.mem_flatMap]
  constructor
  · rintro ((zero | ⟨ex, listed, rfl⟩) | ⟨m, member, asked⟩)
    · exact .entry zero
    · exact .handler listed rfl
    · rcases List.mem_append.mp asked with target | behind
      · obtain ⟨target, inside⟩ := List.mem_filter.mp target
        obtain ⟨off, offset, lands⟩ := (run.mem_targets member).mp target
        exact .target member offset lands (of_decide_eq_true inside)
      · obtain ⟨i, found⟩ := List.getElem?_of_mem member
        split_ifs at behind with splits
        · obtain rfl := List.mem_singleton.mp behind
          obtain ⟨flows, m', found'⟩ := (run.fallsThrough_iff found).mp splits.2.1
          obtain ⟨t, target⟩ := List.exists_mem_of_ne_nil _ splits.1
          obtain ⟨off, offset, -⟩ := (run.mem_targets member).mp target
          have conditional : isConditional m.opcode := offset.branches.resolve_right (by simp [flows])
          exact .behind found found' conditional (run.next found found').symm
        · exact absurd behind List.not_mem_nil
  · intro leader
    cases leader with
    | entry zero => exact .inl (.inl zero)
    | handler listed starts => exact .inl (.inr ⟨_, listed, starts.symm⟩)
    | target member offset lands inside =>
      refine .inr ⟨_, member, List.mem_append_left _ (List.mem_filter.mpr ⟨?_, decide_eq_true inside⟩)⟩
      exact (run.mem_targets member).mpr ⟨_, offset, lands⟩
    | behind source next branch starts =>
      rename_i i m m'
      have member := List.mem_of_getElem? source
      obtain ⟨off, offset⟩ := run.exists_offset source next branch
      have target := (run.mem_targets member).mpr ⟨off, offset, rfl⟩
      have flows : endsFlow m.opcode = false := by
        rw [isConditional_iff] at branch
        simp [endsFlow]
        omega
      have falls := (run.fallsThrough_iff source).mpr ⟨flows, m', next⟩
      have inside := (run.decoded (List.mem_of_getElem? next)).2.1
      refine .inr ⟨m, member, List.mem_append_right _ ?_⟩
      rw [if_pos ⟨List.ne_nil_of_mem target, falls, run.next source next ▸ inside⟩, starts, run.next source next]
      exact List.mem_singleton_self _

/-! ## Blocks -/

theorem advance_zero (ctrl : List InstrCtrl) (x : ℕ) : advance ctrl x 0 = (ctrl.takeWhile (·.pc < x)).length := by
  rw [advance, List.drop_zero, Nat.zero_add]

/-- To advance to one place and from there to a later one is to advance to the later one. -/
theorem advance_advance {x y : ℕ} (later : x ≤ y ∨ ∀ m ∈ ctrl, m.pc < y) :
    advance ctrl y (advance ctrl x 0) = advance ctrl y 0 := by
  rw [advance_zero, advance_zero, advance]
  induction ctrl with
  | nil => rfl
  | cons m ctrl ih =>
    have rest := ih (later.imp_right fun all m member => all m (List.mem_cons_of_mem _ member))
    by_cases before : m.pc < x
    · have before' : m.pc < y := later.elim (lt_of_lt_of_le before) fun all => all m List.mem_cons_self
      simp only [List.takeWhile_cons, before, before', decide_true, if_true, List.length_cons, List.drop_succ_cons]
      omega
    · simp [before]

theorem Run.lt_advance_iff (run : Run code pc ctrl) {x : ℕ} (found : ctrl[i]? = some m) :
    i < advance ctrl x 0 ↔ m.pc < x := by
  have increases := run.increases
  rw [advance_zero]
  clear run
  induction ctrl generalizing i with
  | nil => simp at found
  | cons first ctrl ih =>
    obtain ⟨head, tail⟩ := List.pairwise_cons.mp increases
    by_cases before : first.pc < x
    · cases i with
      | zero =>
        obtain rfl := Option.some.inj found
        simp [before]
      | succ i =>
        have rest := ih found tail
        simpa [before] using rest
    · have after : ¬m.pc < x := by
        cases i with
        | zero => exact Option.some.inj found ▸ before
        | succ i => exact fun lt => before ((head m (List.mem_of_getElem? found)).trans lt)
      simp [before, after]

/-- The block of a piece. -/
def blockOf (ctrl : List InstrCtrl) (piece : ℕ × ℕ) : BasicBlock :=
  ⟨piece.1, piece.2, advance ctrl piece.1 0, advance ctrl piece.2 0⟩

theorem blocksFrom_eq {len a : ℕ} {cuts : List ℕ} (increases : (a :: cuts).Pairwise (· < ·))
    (inside : ∀ m ∈ ctrl, m.pc < len) :
    blocksFrom ctrl (advance ctrl a 0) (pieces len (a :: cuts)) = (pieces len (a :: cuts)).map (blockOf ctrl) := by
  induction cuts generalizing a with
  | nil => simp [pieces, blocksFrom, blockOf, advance_advance (.inr inside)]
  | cons b cuts ih =>
    obtain ⟨head, tail⟩ := List.pairwise_cons.mp increases
    have step : advance ctrl b (advance ctrl a 0) = advance ctrl b 0 :=
      advance_advance (.inl (head b List.mem_cons_self).le)
    rw [pieces, blocksFrom, List.map_cons, step, ih tail]
    rfl

theorem Run.basicBlocks_eq (run : Run attr.code 0 ctrl) :
    basicBlocks attr ctrl = (pieces attr.code.length (leaders attr ctrl)).map (blockOf ctrl) := by
  have increases : (leaders attr ctrl).Pairwise (· < ·) := sorted_pairwise _
  have zero : 0 ∈ leaders attr ctrl := (mem_leaders run).mpr (.entry rfl)
  unfold basicBlocks
  cases starts : leaders attr ctrl with
  | nil => exact absurd (starts ▸ zero) List.not_mem_nil
  | cons a cuts =>
    rw [starts] at increases zero
    obtain rfl : a = 0 := by
      rcases List.mem_cons.mp zero with eq | later
      · exact eq.symm
      · exact absurd ((List.pairwise_cons.mp increases).1 0 later) (Nat.not_lt_zero a)
    have none : advance ctrl 0 0 = 0 := by
      rw [advance_zero]
      cases ctrl <;> simp
    have blocks := blocksFrom_eq increases fun m member => (run.decoded member).2.1
    rwa [none] at blocks

section Blocks

variable {block block' : BasicBlock} {b c l : ℕ}

theorem Run.mem_basicBlocks (run : Run attr.code 0 ctrl) (member : block ∈ basicBlocks attr ctrl) :
    (block.startPc, block.endPc) ∈ pieces attr.code.length (leaders attr ctrl) ∧ block = blockOf ctrl (block.startPc, block.endPc) := by
  rw [run.basicBlocks_eq] at member
  obtain ⟨piece, listed, rfl⟩ := List.mem_map.mp member
  exact ⟨listed, rfl⟩

theorem Run.span (run : Run attr.code 0 ctrl) (member : block ∈ basicBlocks attr ctrl) (found : ctrl[i]? = some m) :
    (block.first ≤ i ↔ block.startPc ≤ m.pc) ∧ (i < block.stop ↔ m.pc < block.endPc) := by
  rw [(run.mem_basicBlocks member).2]
  exact ⟨by rw [← not_lt, ← not_lt]; exact not_congr (run.lt_advance_iff found), run.lt_advance_iff found⟩

/-- Every instruction is in a block. -/
theorem Run.exists_block (run : Run attr.code 0 ctrl) (found : ctrl[i]? = some m) :
    ∃ (b : ℕ) (block : BasicBlock), (basicBlocks attr ctrl)[b]? = some block ∧ block.first ≤ i ∧ i < block.stop := by
  have zero : 0 ∈ leaders attr ctrl := (mem_leaders run).mpr (.entry rfl)
  have short := (run.decoded (List.mem_of_getElem? found)).2.1
  obtain ⟨s, e, piece, le, lt⟩ := exists_piece_of_le zero (Nat.zero_le m.pc) short
  obtain ⟨b, at'⟩ := List.getElem?_of_mem piece
  have block : (basicBlocks attr ctrl)[b]? = some (blockOf ctrl (s, e)) := by
    rw [run.basicBlocks_eq, List.getElem?_map, at', Option.map_some]
  have span := run.span (List.mem_of_getElem? block) found
  exact ⟨b, _, block, span.1.mpr le, span.2.mpr lt⟩

/-- A block has no leader but its start. -/
theorem Run.not_leader_inside (run : Run attr.code 0 ctrl) (member : block ∈ basicBlocks attr ctrl)
    (leader : IsLeader attr ctrl l) : l ≤ block.startPc ∨ block.endPc ≤ l :=
  (mem_pieces (sorted_pairwise _) (run.mem_basicBlocks member).1).1 l ((mem_leaders run).mpr leader)

theorem Run.start_leader (run : Run attr.code 0 ctrl) (member : block ∈ basicBlocks attr ctrl) :
    IsLeader attr ctrl block.startPc :=
  (mem_leaders run).mp (cut_of_mem (run.mem_basicBlocks member).1)

/-- A block before other instructions ends at a leader. -/
theorem Run.end_leader (run : Run attr.code 0 ctrl) (member : block ∈ basicBlocks attr ctrl) (found : ctrl[k]? = some m)
    (behind : block.stop ≤ k) : IsLeader attr ctrl block.endPc := by
  rcases (mem_pieces (sorted_pairwise _) (run.mem_basicBlocks member).1).2 with ⟨-, cut⟩ | ⟨eq, -⟩
  · exact (mem_leaders run).mp cut
  · have inside := (run.decoded (List.mem_of_getElem? found)).2.1
    have after := mt (run.span member found).2.mpr (not_lt.mpr behind)
    omega

/-- A block is found by its start. -/
theorem Run.pcToBlockIndex_eq_some (run : Run attr.code 0 ctrl) : pcToBlockIndex (basicBlocks attr ctrl) l = some c ↔
    ∃ block, (basicBlocks attr ctrl)[c]? = some block ∧ block.startPc = l := by
  constructor
  · intro index
    obtain ⟨short, same, -⟩ := List.findIdx?_eq_some_iff_getElem.mp index
    exact ⟨_, List.getElem?_eq_getElem short, of_decide_eq_true same⟩
  · rintro ⟨block, found, rfl⟩
    cases index : pcToBlockIndex (basicBlocks attr ctrl) block.startPc with
    | none => simpa using List.findIdx?_eq_none_iff.mp index block (List.mem_of_getElem? found)
    | some c' =>
      obtain ⟨short, same, -⟩ := List.findIdx?_eq_some_iff_getElem.mp index
      have found' := List.getElem?_eq_getElem short
      have same : ((basicBlocks attr ctrl)[c']).startPc = block.startPc := of_decide_eq_true same
      have starts : (basicBlocks attr ctrl).map (·.startPc) = leaders attr ctrl := by
        rw [run.basicBlocks_eq, List.map_map]
        exact pieces_map_fst attr.code.length (leaders attr ctrl)
      have distinct : ((basicBlocks attr ctrl).map (·.startPc)).Nodup := starts ▸ (sorted_pairwise _).imp fun lt => lt.ne
      have eq : ((basicBlocks attr ctrl).map (·.startPc))[c']? = ((basicBlocks attr ctrl).map (·.startPc))[c]? := by
        rw [List.getElem?_map, List.getElem?_map, found', found, Option.map_some, Option.map_some, same]
      exact congrArg some ((List.getElem?_inj (by simpa using short) distinct).mp eq)

theorem Run.stop_le (run : Run attr.code 0 ctrl) (member : block ∈ basicBlocks attr ctrl) : block.stop ≤ ctrl.length := by
  rw [(run.mem_basicBlocks member).2]
  change advance ctrl block.endPc 0 ≤ ctrl.length
  rw [advance_zero]
  exact (List.takeWhile_prefix _).length_le

/-- The successors of a block whose last instruction is `m`. -/
theorem Run.mem_successors (run : Run attr.code 0 ctrl) (found : (basicBlocks attr ctrl)[b]? = some block)
    (first : block.first ≤ i) (stop : block.stop = i + 1) (last : ctrl[i]? = some m) :
    ∃ succs, (blockSuccessors attr ctrl)[b]? = some succs ∧ ∀ c, c ∈ succs ↔
      (∃ off, Offset attr.code m.pc m.opcode off ∧ pcToBlockIndex (basicBlocks attr ctrl) (branchTarget m.pc off) = some c) ∨
      ((m.fallsThrough ∧ block.endPc < attr.code.length) ∧ pcToBlockIndex (basicBlocks attr ctrl) block.endPc = some c) ∨
      ∃ ex ∈ attr.exceptionTable, ex.startPc.toNat ≤ m.pc ∧
        (∃ start, ctrl[block.first]? = some start ∧ start.pc < ex.endPc.toNat) ∧
        pcToBlockIndex (basicBlocks attr ctrl) ex.handlerPc.toNat = some c := by
  refine ⟨_, by rw [blockSuccessors, List.getElem?_map, found, Option.map_some], fun c => ?_⟩
  have range : ∀ ex, inRange ctrl block ex ↔ ex.startPc.toNat ≤ m.pc ∧
      ∃ start, ctrl[block.first]? = some start ∧ start.pc < ex.endPc.toNat := fun ex => by
    have nonempty : block.first < block.stop := by omega
    simp only [inRange, stop, Nat.add_sub_cancel, last, Option.any_some, stop ▸ nonempty, decide_true,
      Bool.true_and, Bool.and_eq_true, decide_eq_true_eq]
    cases ctrl[block.first]? <;> simp
  have exceptional : c ∈ exceptionSuccessors attr.exceptionTable ctrl (basicBlocks attr ctrl) block ↔
      ∃ ex ∈ attr.exceptionTable, ex.startPc.toNat ≤ m.pc ∧
        (∃ start, ctrl[block.first]? = some start ∧ start.pc < ex.endPc.toNat) ∧
        pcToBlockIndex (basicBlocks attr ctrl) ex.handlerPc.toNat = some c := by
    simp only [exceptionSuccessors, List.mem_filterMap, List.mem_filter, range, and_assoc]
  have branches : c ∈ (m.branchTargets.filterMap (pcToBlockIndex (basicBlocks attr ctrl))).foldl pushNew [] ↔
      ∃ off, Offset attr.code m.pc m.opcode off ∧ pcToBlockIndex (basicBlocks attr ctrl) (branchTarget m.pc off) = some c := by
    simp only [mem_foldl_pushNew, List.not_mem_nil, false_or, List.mem_filterMap, run.mem_targets (List.mem_of_getElem? last)]
    constructor
    · rintro ⟨t, ⟨off, offset, rfl⟩, index⟩
      exact ⟨off, offset, index⟩
    · rintro ⟨off, offset, index⟩
      exact ⟨_, ⟨off, offset, rfl⟩, index⟩
  rw [mem_foldl_pushNew, exceptional, ← or_assoc, normalSuccessors, if_neg (by omega), stop, Nat.add_sub_cancel, last]
  apply or_congr_left
  dsimp only
  split_ifs with falls
  · rw [mem_foldl_pushNew, branches, Option.mem_toList, and_iff_right falls]
  · rw [branches]
    simp only [falls, false_and, or_false]

end Blocks

/-! ## Transfers -/

theorem goesOn_iff : GoesOn opcode ↔ endsFlow opcode = false := by
  simp [GoesOn, endsFlow]
  omega

theorem branchTarget_eq {target : ℕ} {off : BitVec 32} (short : target < 2 ^ 32) (lands : (target : ℤ) = pc + off.toInt) :
    branchTarget pc off = target := by
  have small := off.isLt
  rw [BitVec.toInt_eq_toNat_cond] at lands
  rw [branchTarget, BitVec.toNat_add, BitVec.toNat_ofNat]
  split_ifs at lands <;> omega

section Transfers

variable (run : Run attr.code 0 ctrl)
include run

/-- Where an instruction branches to, a block starts. -/
theorem leader_of_branch {off : BitVec 32} (found : ctrl[i]? = some m) (found' : ctrl[j]? = some m')
    (offset : Offset attr.code m.pc m.opcode off) (lands : (m'.pc : ℤ) = m.pc + off.toInt) :
    branchTarget m.pc off = m'.pc ∧ IsLeader attr ctrl m'.pc := by
  have inside := (run.decoded (List.mem_of_getElem? found')).2.1
  have target := branchTarget_eq (inside.trans attr.short) lands
  exact ⟨target, .target (List.mem_of_getElem? found) offset target.symm inside⟩

/-- An instruction that is the last of its block is cut off from what follows. -/
theorem cut_of_stop {b : ℕ} {block : BasicBlock} (found : (basicBlocks attr ctrl)[b]? = some block)
    (last : ctrl[i]? = some m) (stop : block.stop = i + 1) : Cut attr ctrl i := by
  intro m₁ m' found₁ next
  obtain rfl := Option.some.inj (last.symm.trans found₁)
  have member := List.mem_of_getElem? found
  have before := (run.span member last).2.mp (by omega)
  have behind := mt (run.span member next).2.mpr (by omega)
  exact ⟨block.endPc, run.end_leader member next stop.le, before, not_lt.mp behind⟩

/-- And one that is cut off is the last of its block. -/
theorem stop_of_cut {b : ℕ} {block : BasicBlock} (found : (basicBlocks attr ctrl)[b]? = some block)
    (here : ctrl[i]? = some m) (inside : block.first ≤ i ∧ i < block.stop) (cut : Cut attr ctrl i) : block.stop = i + 1 := by
  by_contra later
  have member := List.mem_of_getElem? found
  have short := run.stop_le member
  obtain ⟨m', next⟩ : ∃ m', ctrl[i + 1]? = some m' := ⟨_, List.getElem?_eq_getElem (by omega)⟩
  obtain ⟨l, leader, above, le⟩ := cut m m' here next
  have low := (run.span member here).1.mp inside.1
  have high := (run.span member next).2.mp (by omega)
  have free := run.not_leader_inside member leader
  omega

theorem cut_of_covered (found : ctrl[i]? = some m) (found' : ctrl[j]? = some m') (leader : IsLeader attr ctrl m'.pc)
    (covered : Covered attr ctrl i j) : Cut attr ctrl i := by
  obtain ⟨b, block, at', first, stop, way⟩ := covered
  rcases way with ⟨rfl, within⟩ | ⟨eq, -⟩
  · -- the target is a leader, and so not inside the block
    have member := List.mem_of_getElem? at'
    have low := (run.span member found).1.mp first
    have high := (run.span member found').2.mp within
    have free := run.not_leader_inside member leader
    have lt := run.pc_lt found found' (Nat.lt_succ_self i)
    omega
  · exact cut_of_stop run at' found eq

theorem entered_of_covered (found : ctrl[i]? = some m) (covered : Covered attr ctrl i (i + 1)) : Entered attr ctrl i := by
  intro m₁ m' l found₁ next leader above le last
  obtain rfl := Option.some.inj (found.symm.trans found₁)
  obtain ⟨b, block, at', first, stop, way⟩ := covered
  have member := List.mem_of_getElem? at'
  have low := (run.span member found).1.mp first
  have high := (run.span member found).2.mp stop
  have free := fun {l} (leader : IsLeader attr ctrl l) => run.not_leader_inside member leader
  rcases way with ⟨-, within⟩ | ⟨eq, c, block', succs, at'', first', stop', listed, out⟩
  · have inside := (run.span member next).2.mp within
    have apart := free leader
    omega
  · have member' := List.mem_of_getElem? at''
    have start : block'.startPc = l := by
      have low' := (run.span member' next).1.mp first'.le
      have high' := (run.span member' next).2.mp stop'
      have apart := run.not_leader_inside member' leader
      have le' := last block'.startPc (run.start_leader member') low'
      omega
    obtain ⟨succs', listed', all⟩ := run.mem_successors at' first eq found
    obtain rfl := Option.some.inj (listed.symm.trans listed')
    have index : ∀ {t}, pcToBlockIndex (basicBlocks attr ctrl) t = some c → l = t := fun {t} index => by
      obtain ⟨block'', found'', eq'⟩ := run.pcToBlockIndex_eq_some.mp index
      obtain rfl := Option.some.inj (at''.symm.trans found'')
      exact start.symm.trans eq'
    rcases (all c).mp out with ⟨off, offset, target⟩ | ⟨-, target⟩ | ⟨ex, listed, begins, ⟨start', found', ends⟩, target⟩
    · exact .inr (.inl ⟨off, offset, index target⟩)
    · refine .inl fun l' leader' above' => ?_
      have apart := free leader'
      have same := index target
      omega
    · refine .inr (.inr ⟨ex, listed, (index target).symm, begins, block.first, start', first, found', ?_, ends⟩)
      intro l' leader'
      have low' := (run.span member found').1.mp le_rfl
      have apart := free leader'
      omega

theorem covered_of_entered (found : ctrl[i]? = some m) (found' : ctrl[i + 1]? = some m') (flows : endsFlow m.opcode = false)
    (entered : Entered attr ctrl i) : Covered attr ctrl i (i + 1) := by
  obtain ⟨b, block, at', first, stop⟩ := run.exists_block found
  refine ⟨b, block, at', first, stop, ?_⟩
  by_cases within : i + 1 < block.stop
  · exact .inl ⟨rfl, within⟩
  · have eq : block.stop = i + 1 := by omega
    have member := List.mem_of_getElem? at'
    have ends := run.end_leader member found' eq.le
    have high := (run.span member found).2.mp stop
    have behind := mt (run.span member found').2.mpr within
    obtain ⟨c, block', at'', first', stop'⟩ := run.exists_block found'
    have member' := List.mem_of_getElem? at''
    have low' := (run.span member' found').1.mp first'
    have high' := (run.span member' found').2.mp stop'
    have free := fun {l} (leader : IsLeader attr ctrl l) => run.not_leader_inside member' leader
    have above : m.pc < block'.startPc := by
      have apart := free ends
      omega
    have starts : block'.first = i + 1 := by
      have early := mt (run.span member' found).1.mp (not_le.mpr above)
      omega
    obtain ⟨succs, listed, all⟩ := run.mem_successors at' first eq found
    have index := run.pcToBlockIndex_eq_some.mpr ⟨block', at'', rfl⟩
    refine .inr ⟨eq, c, block', succs, at'', starts, stop', listed, (all c).mpr ?_⟩
    have last : ∀ l', IsLeader attr ctrl l' → l' ≤ m'.pc → l' ≤ block'.startPc := fun l' leader le => by
      have apart := free leader
      omega
    rcases entered m m' block'.startPc found found' (run.start_leader member') above low' last with
      only | ⟨off, offset, target⟩ | ⟨ex, listed, handles, begins, k, start, le, found'', straight, ends'⟩
    · refine .inr (.inl ⟨⟨(run.fallsThrough_iff found).mpr ⟨flows, m', found'⟩, ?_⟩, ?_⟩)
      · have inside := (run.decoded (List.mem_of_getElem? found')).2.1
        omega
      · have le := only block.endPc ends high
        have ge := last block.endPc ends (not_lt.mp behind)
        rwa [← le_antisymm le ge]
    · exact .inl ⟨off, offset, target ▸ index⟩
    · have low := (run.span member found).1.mp first
      have early := straight block.startPc (run.start_leader member)
      have here : block.first ≤ k := (run.span member found'').1.mpr (by omega)
      obtain ⟨head, found₀⟩ : ∃ head, ctrl[block.first]? = some head := by
        obtain ⟨short, -⟩ := List.getElem?_eq_some_iff.mp found
        exact ⟨_, List.getElem?_eq_getElem (by omega)⟩
      have before : head.pc ≤ start.pc := by
        rcases Nat.lt_or_eq_of_le here with lt | eq'
        · exact (run.pc_lt found₀ found'' lt).le
        · exact (congrArg InstrCtrl.pc (Option.some.inj (found₀.symm.trans (eq' ▸ found'')))).le
      exact .inr (.inr ⟨ex, listed, begins, ⟨head, found₀, by omega⟩, handles ▸ index⟩)

theorem covered_of_cut {off : BitVec 32} (found : ctrl[i]? = some m) (found' : ctrl[j]? = some m')
    (offset : Offset attr.code m.pc m.opcode off) (lands : (m'.pc : ℤ) = m.pc + off.toInt) (cut : Cut attr ctrl i) :
    Covered attr ctrl i j := by
  obtain ⟨target, leader⟩ := leader_of_branch run found found' offset lands
  obtain ⟨b, block, at', first, stop⟩ := run.exists_block found
  have eq := stop_of_cut run at' found ⟨first, stop⟩ cut
  obtain ⟨c, block', at'', first', stop'⟩ := run.exists_block found'
  have member' := List.mem_of_getElem? at''
  have start : block'.startPc = m'.pc := by
    have low := (run.span member' found').1.mp first'
    have high := (run.span member' found').2.mp stop'
    have apart := run.not_leader_inside member' leader
    omega
  have starts : block'.first = j := by
    by_contra early
    obtain ⟨m₀, found₀⟩ : ∃ m₀, ctrl[block'.first]? = some m₀ := by
      obtain ⟨short, -⟩ := List.getElem?_eq_some_iff.mp found'
      exact ⟨_, List.getElem?_eq_getElem (by omega)⟩
    have low := (run.span member' found₀).1.mp le_rfl
    have lt := run.pc_lt found₀ found' (by omega)
    omega
  obtain ⟨succs, listed, all⟩ := run.mem_successors at' first eq found
  have index := run.pcToBlockIndex_eq_some.mpr ⟨block', at'', start⟩
  exact ⟨b, block, at', first, stop, .inr ⟨eq, c, block', succs, at'', starts, stop', listed,
    (all c).mpr (.inl ⟨off, offset, target ▸ index⟩)⟩⟩

end Transfers

/-- The blocks of a method have every way the JVM may go just when its branches and next instructions are kept. -/
theorem complete_iff_kept (decodes : decodeCtrl attr.code = .ok ctrl) : Complete attr ctrl ↔ Kept attr ctrl := by
  have run := run_of_decodeCtrl decodes
  constructor
  · intro complete i m reached found valid
    constructor
    · rintro ⟨off, m', member, offset, lands⟩
      obtain ⟨j, found'⟩ := List.getElem?_of_mem member
      have covered := complete i j reached (.branch found found' valid offset lands)
      exact cut_of_covered run found found' (leader_of_branch run found found' offset lands).2 covered
    · intro goesOn m₁ m' l found₁ next
      have covered := complete i (i + 1) reached (.next found next valid goesOn rfl)
      exact entered_of_covered run found covered m₁ m' l found₁ next
  · intro kept i j reached step
    cases step with
    | next source target valid goesOn eq =>
      subst eq
      exact covered_of_entered run source target (goesOn_iff.mp goesOn) ((kept i _ reached source valid).2 goesOn)
    | branch source target valid offset lands =>
      apply covered_of_cut run source target offset lands
      exact (kept i _ reached source valid).1 ⟨_, _, List.mem_of_getElem? target, offset, lands⟩

/-- A goto over a `nop` and a return that nothing else goes to. -/
def gotoOver : CodeAttribute where
  code := [0xa7, 0x00, 0x05, 0x00, 0xb1, 0xb1]
  short := by decide

/-- The block of the goto ends in the first return, so the goto's way to the second is lost. -/
theorem not_complete_gotoOver_code : ∃ ctrl, decodeCtrl gotoOver.code = .ok ctrl ∧ ¬Complete gotoOver ctrl := by
  refine ⟨[⟨0, 3, 0xa7, [5], false⟩, ⟨3, 4, 0x00, [], true⟩, ⟨4, 5, 0xb1, [], false⟩, ⟨5, 6, 0xb1, [], false⟩],
    rfl, fun complete => ?_⟩
  have step : Step gotoOver.code [⟨0, 3, 0xa7, [5], false⟩, ⟨3, 4, 0x00, [], true⟩, ⟨4, 5, 0xb1, [], false⟩,
      ⟨5, 6, 0xb1, [], false⟩] 0 3 :=
    .branch rfl rfl ⟨0xa7, rfl, by decide, by decide⟩ (.short (.inr (.inl rfl)) rfl) rfl
  obtain ⟨b, block, found, first, stop, way⟩ := complete 0 3 .entry step
  have blocks : basicBlocks gotoOver [⟨0, 3, 0xa7, [5], false⟩, ⟨3, 4, 0x00, [], true⟩, ⟨4, 5, 0xb1, [], false⟩,
      ⟨5, 6, 0xb1, [], false⟩] = [⟨0, 5, 0, 3⟩, ⟨5, 6, 3, 4⟩] := by decide
  rw [blocks] at found
  match b with
  | 0 =>
    obtain rfl := Option.some.inj found
    rcases way with ⟨next, -⟩ | ⟨last, -⟩
    · exact absurd next (by decide)
    · exact absurd last (by decide)
  | 1 =>
    obtain rfl := Option.some.inj found
    exact absurd first (by decide)
  | b + 2 => simp at found

/-- `goto` to the return behind it. -/
def gotoNext : CodeAttribute where
  code := [0xa7, 0x00, 0x03, 0xb1]
  short := by decide

theorem complete_gotoNext_code : Complete gotoNext [⟨0, 3, 0xa7, [3], false⟩, ⟨3, 4, 0xb1, [], false⟩] := by
  apply (complete_iff_kept rfl).mpr
  intro i m _ found _
  have leader : IsLeader gotoNext [⟨0, 3, 0xa7, [3], false⟩, ⟨3, 4, 0xb1, [], false⟩] 3 :=
    .target List.mem_cons_self (.short (.inr (.inl rfl)) rfl) (by decide) (by decide)
  match i with
  | 0 =>
    obtain rfl := Option.some.inj found
    refine ⟨fun _ m m' first next => ?_, fun goesOn => absurd goesOn (by simp [GoesOn])⟩
    obtain rfl := Option.some.inj first
    obtain rfl := Option.some.inj next
    exact ⟨3, leader, by decide, le_rfl⟩
  | 1 =>
    obtain rfl := Option.some.inj found
    exact ⟨fun _ _ _ _ next => absurd next (by simp), fun goesOn => absurd goesOn (by simp [GoesOn])⟩
  | i + 2 => simp at found

end Ctadl.Jvm
