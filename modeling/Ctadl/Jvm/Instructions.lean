import Ctadl.Jvm.Lowering
import Mathlib.Tactic.IntervalCases

/-! # From the bytes of a JVM instruction to its effect

The reader's tables of operands and results, range by range, against what the instructions do. Behind them, a
decoded and simulated instruction other than a call is lowered to its effect exactly if its operation is kept.
-/

namespace Ctadl.Jvm

open Cir Moves
open Collections (bind_eq_ok)

/-! ## Decoding -/

section Decoding

variable {code : List UInt8} {pc : ℕ} {cf : ResolvedPool} {params : ParameterSlotMap} {inst : InstructionFlowInfo}
  {byte : UInt8}

/-- An instruction with data flow of its own. -/
theorem decode_dataflow {op : ℕ} (at_pc : code[pc]? = some byte) (names : logicalOpcode code pc byte.toNat = op)
    (kind : opcodeKind op = .dataflow) (alone : byte.toNat = 0xc4 ∨ stackShuffle op = none)
    (decodes : decodeFlowInstruction code pc cf params = .ok inst) :
    ∃ flow, decodeDataflow code pc cf op params (byte.toNat = 0xc4) = .ok flow ∧
      inst = ⟨.dataflow, op, splitDataflowInfos flow⟩ := by
  have noThrow : op ≠ 0xbf := by
    rintro rfl
    cases kind
  have noShuffle : (if byte.toNat = 0xc4 then none else stackShuffle op) = none := by
    rcases alone with wide | none
    · exact if_pos wide
    · rw [none, ite_self]
  rw [decodeFlowInstruction, at_pc] at decodes
  obtain ⟨length, -, decodes⟩ := bind_eq_ok.mp decodes
  simp only [names, decide_eq_true_eq, noShuffle, kind, ↓reduceIte, noThrow] at decodes
  obtain ⟨dataflow, decoded, decodes⟩ := bind_eq_ok.mp decodes
  cases flows : decodeDataflow code pc cf op params (byte.toNat = 0xc4) with
  | error e =>
    rw [flows] at decoded
    cases decoded
  | ok flow =>
    rw [flows] at decoded
    obtain rfl := Except.ok.inj decoded
    exact ⟨flow, rfl, (Except.ok.inj decodes).symm⟩

/-- A shuffle. -/
theorem decode_shuffle {inputs : List ℕ} (at_pc : code[pc]? = some byte) (narrow : byte.toNat ≠ 0xc4)
    (shuffles : stackShuffle byte.toNat = some inputs) (noThrow : byte.toNat ≠ 0xbf)
    (decodes : decodeFlowInstruction code pc cf params = .ok inst) :
    inst = ⟨opcodeKind byte.toNat, byte.toNat, stackShuffleDataflow inputs⟩ := by
  have names : logicalOpcode code pc byte.toNat = byte.toNat := if_neg narrow
  rw [decodeFlowInstruction, at_pc] at decodes
  obtain ⟨length, -, decodes⟩ := bind_eq_ok.mp decodes
  simp only [names, decide_eq_true_eq, narrow, shuffles, ↓reduceIte, noThrow] at decodes
  exact (Except.ok.inj decodes).symm

/-- An instruction without data flow, or `athrow`. -/
theorem decode_other {op : ℕ} (at_pc : code[pc]? = some byte) (names : logicalOpcode code pc byte.toNat = op)
    (noFlow : opcodeKind op ≠ .dataflow) (noShuffle : stackShuffle op = none)
    (decodes : decodeFlowInstruction code pc cf params = .ok inst) :
    inst = ⟨opcodeKind op, op, if op = 0xbf then [⟨[.stackInput 0], .stackInput 0⟩] else []⟩ := by
  rw [decodeFlowInstruction, at_pc] at decodes
  obtain ⟨length, -, decodes⟩ := bind_eq_ok.mp decodes
  simp only [names, decide_eq_true_eq, noShuffle, ite_self, noFlow, ↓reduceIte] at decodes
  exact (Except.ok.inj decodes).symm

end Decoding

/-! ## The tables -/

/-- The sources and destinations the reader decodes for an operation, and the opcodes that lower it. -/
inductive Flows (params : ParameterSlotMap) (op : ℕ) : Operation → List FlowLocation × List FlowLocation → Prop where
  | constant {width : ℕ} {value : ConstantValue} (plain : FrontendNames.literalObject value = none)
      (two : width = 1 ∨ width = 2) (default : FrontendNames.Default op) (copies : isValueOnlyOpcode op = false) :
      Flows params op (.constant width) ([.constant value], stackOutputs width)
  | literal {width : ℕ} {value : ConstantValue} (two : width = 1 ∨ width = 2) (default : FrontendNames.Default op)
      (copies : isValueOnlyOpcode op = false) :
      Flows params op (.literal width value) ([.constant value], stackOutputs width)
  | load {width slot : ℕ} (two : width = 1 ∨ width = 2) (default : FrontendNames.Default op)
      (copies : isValueOnlyOpcode op = false) :
      Flows params op (.load width slot) ([localSlotToLocation slot params], stackOutputs width)
  | store {width slot : ℕ} (default : FrontendNames.Default op) :
      Flows params op (.store width slot) (stackInputs width, [localSlotToLocation slot params])
  | arrayLoad {type : ℕ} (range : 0x2e ≤ op ∧ op ≤ 0x35) :
      Flows params op (.arrayLoad type)
        ([.arrayElement (.stackInput 1) (.stackInput 0)], stackOutputs (typeWidth type))
  | arrayStore {type : ℕ} (range : 0x4f ≤ op ∧ op ≤ 0x55) (exact_type : type ≠ 7) :
      Flows params op (.arrayStore type) (stackInputs (typeWidth type),
        [.arrayElement (.stackInput (typeWidth type + 1)) (.stackInput (typeWidth type))])
  | sastore (exact_op : op = 0x56) :
      Flows params op (.arrayStore 7) (stackInputs 1, [.arrayElement (.stackInput 2) (.stackInput 1)])
  | compute {pops width : ℕ} (two : width = 1 ∨ width = 2) (default : FrontendNames.Default op) :
      Flows params op (.compute pops width) (stackInputs pops, stackOutputs width)
  | increment {slot : ℕ} (default : FrontendNames.Default op) :
      Flows params op (.increment slot) ([localSlotToLocation slot params], [localSlotToLocation slot params])
  | getStatic {field : FieldRef} (exact_op : op = 0xb2) :
      Flows params op (.getStatic field) ([.fieldRef field], stackOutputs (fieldSlotWidth field.descriptor))
  | putStatic {field : FieldRef} (exact_op : op = 0xb3) :
      Flows params op (.putStatic field) (stackInputs (fieldSlotWidth field.descriptor), [.fieldRef field])
  | getField {field : FieldRef} (exact_op : op = 0xb4) :
      Flows params op (.getField field)
        ([.stackInput 0, .fieldRef field], stackOutputs (fieldSlotWidth field.descriptor))
  | putField {field : FieldRef} (exact_op : op = 0xb5) :
      Flows params op (.putField field) (stackInputs (fieldSlotWidth field.descriptor + 1), [.fieldRef field])
  | newObject {cls : String} (exact_op : op = 0xbb) :
      Flows params op (.newObject cls) ([.allocation cls], [.stackOutput])
  | newArray {descriptor : String} (range : 0xbc ≤ op ∧ op ≤ 0xbd) :
      Flows params op (.newArray descriptor) ([.stackInput 0, .allocation descriptor], [.stackOutput])
  | newMultiArray {dimensions : ℕ} {descriptor : String} (exact_op : op = 0xc5) :
      Flows params op (.newMultiArray dimensions descriptor)
        (stackInputs dimensions ++ [.allocation descriptor], [.stackOutput])

section Tables

open FrontendNames

variable {code : List UInt8} {pc : ℕ} {cf : ResolvedPool} {params : ParameterSlotMap} {op : ℕ}
  {flow : List FlowLocation × List FlowLocation}

theorem map_toOption {α β : Type} {result : ClassFileResult α} {a : α} {f : α → β} (ok : result = .ok a) :
    result.toOption.map f = some (f a) := by
  rw [ok]
  rfl

theorem bind_toOption {α β : Type} {result : ClassFileResult α} {a : α} {f : α → Option β} {b : Option β}
    (ok : result = .ok a) (next : f a = b) : result.toOption.bind f = b := by
  rw [ok]
  exact next

theorem copies_of_lt (low : op < 0x60) : isValueOnlyOpcode op = false := by
  simp only [isValueOnlyOpcode, Bool.or_eq_false_iff, Bool.and_eq_false_iff, decide_eq_false_iff_not]
  omega

/-- Constants without operands in the code. -/
theorem flows_constant (range : 0x01 ≤ op ∧ op ≤ 0x0f) (decodes : decodeDataflow code pc cf op params false = .ok flow) :
    ∃ o, narrowOperation code pc cf op = some o ∧ Flows params op o flow := by
  have default : Default op := default_of_apart (by omega)
  obtain ⟨low, high⟩ := range
  have decoded : ∃ value, literalObject value = none ∧ decodeDataflow code pc cf op params false =
      .ok ([.constant value], stackOutputs (if op ∈ [0x09, 0x0a, 0x0e, 0x0f] then 2 else 1)) := by
    interval_cases op <;> exact ⟨_, rfl, rfl⟩
  have operation : narrowOperation code pc cf op =
      some (.constant (if op ∈ [0x09, 0x0a, 0x0e, 0x0f] then 2 else 1)) := by
    interval_cases op <;> rfl
  obtain ⟨value, plain, decoded⟩ := decoded
  obtain rfl := Except.ok.inj (decodes.symm.trans decoded)
  refine ⟨_, operation, .constant plain ?_ default (copies_of_lt (by omega))⟩
  split_ifs <;> simp

theorem flows_localLoad (range : 0x1a ≤ op ∧ op ≤ 0x2d) (decodes : decodeDataflow code pc cf op params false = .ok flow) :
    ∃ o, narrowOperation code pc cf op = some o ∧ Flows params op o flow := by
  have default : Default op := default_of_apart (by omega)
  obtain ⟨low, high⟩ := range
  have decoded : decodeDataflow code pc cf op params false =
      .ok ([localSlotToLocation ((op - 0x1a) % 4) params], stackOutputs (typeWidth ((op - 0x1a) / 4))) := by
    interval_cases op <;> rfl
  have operation : narrowOperation code pc cf op = some (.load (typeWidth ((op - 0x1a) / 4)) ((op - 0x1a) % 4)) := by
    interval_cases op <;> rfl
  obtain rfl := Except.ok.inj (decodes.symm.trans decoded)
  exact ⟨_, operation, .load (width_of_type _) default (copies_of_lt (by omega))⟩

theorem flows_localStore (range : 0x3b ≤ op ∧ op ≤ 0x4e) (decodes : decodeDataflow code pc cf op params false = .ok flow) :
    ∃ o, narrowOperation code pc cf op = some o ∧ Flows params op o flow := by
  have default : Default op := default_of_apart (by omega)
  obtain ⟨low, high⟩ := range
  have decoded : decodeDataflow code pc cf op params false =
      .ok (stackInputs (typeWidth ((op - 0x3b) / 4)), [localSlotToLocation ((op - 0x3b) % 4) params]) := by
    interval_cases op <;> rfl
  have operation : narrowOperation code pc cf op = some (.store (typeWidth ((op - 0x3b) / 4)) ((op - 0x3b) % 4)) := by
    interval_cases op <;> rfl
  obtain rfl := Except.ok.inj (decodes.symm.trans decoded)
  exact ⟨_, operation, .store default⟩

theorem flows_arrayLoad (range : 0x2e ≤ op ∧ op ≤ 0x35) (decodes : decodeDataflow code pc cf op params false = .ok flow) :
    ∃ o, narrowOperation code pc cf op = some o ∧ Flows params op o flow := by
  obtain ⟨low, high⟩ := range
  have decoded : decodeDataflow code pc cf op params false =
      .ok ([.arrayElement (.stackInput 1) (.stackInput 0)], stackOutputs (typeWidth (op - 0x2e))) := by
    interval_cases op <;> rfl
  have operation : narrowOperation code pc cf op = some (.arrayLoad (op - 0x2e)) := by
    interval_cases op <;> rfl
  obtain rfl := Except.ok.inj (decodes.symm.trans decoded)
  exact ⟨_, operation, .arrayLoad ⟨low, high⟩⟩

theorem flows_arrayStore (range : 0x4f ≤ op ∧ op ≤ 0x56) (decodes : decodeDataflow code pc cf op params false = .ok flow) :
    ∃ o, narrowOperation code pc cf op = some o ∧ Flows params op o flow := by
  obtain ⟨low, high⟩ := range
  have decoded : decodeDataflow code pc cf op params false = .ok (stackInputs (typeWidth (op - 0x4f)),
      [.arrayElement (.stackInput (typeWidth (op - 0x4f) + 1)) (.stackInput (typeWidth (op - 0x4f)))]) := by
    interval_cases op <;> rfl
  have operation : narrowOperation code pc cf op = some (.arrayStore (op - 0x4f)) := by
    interval_cases op <;> rfl
  obtain rfl := Except.ok.inj (decodes.symm.trans decoded)
  refine ⟨_, operation, ?_⟩
  by_cases short : op = 0x56
  · subst short
    exact .sastore rfl
  · exact .arrayStore ⟨low, by omega⟩ (by omega)

/-- Arithmetic, conversions and comparisons. -/
theorem flows_compute (range : 0x60 ≤ op ∧ op ≤ 0x83 ∨ 0x85 ≤ op ∧ op ≤ 0x98)
    (decodes : decodeDataflow code pc cf op params false = .ok flow) :
    ∃ o, narrowOperation code pc cf op = some o ∧ Flows params op o flow := by
  have default : Default op := default_of_apart (by omega)
  have tables : ∃ pops width, (width = 1 ∨ width = 2) ∧
      decodeDataflow code pc cf op params false = .ok (stackInputs pops, stackOutputs width) ∧
      narrowOperation code pc cf op = some (.compute pops width) := by
    rcases range with ⟨low, high⟩ | ⟨low, high⟩ <;> interval_cases op <;> exact ⟨_, _, by decide, rfl, rfl⟩
  obtain ⟨pops, width, two, decoded, operation⟩ := tables
  obtain rfl := Except.ok.inj (decodes.symm.trans decoded)
  exact ⟨_, operation, .compute two default⟩

/-! ### Operands in the code -/

theorem flows_push (exact_op : op = 0x10 ∨ op = 0x11) (decodes : decodeDataflow code pc cf op params false = .ok flow) :
    ∃ o, narrowOperation code pc cf op = some o ∧ Flows params op o flow := by
  have default : Default op := default_of_apart (by omega)
  have copies : isValueOnlyOpcode op = false := copies_of_lt (by omega)
  rcases exact_op with rfl | rfl
  · obtain ⟨b, -, decodes⟩ := bind_eq_ok.mp decodes
    obtain rfl := Except.ok.inj decodes
    exact ⟨_, rfl, .constant rfl (.inl rfl) default copies⟩
  · obtain ⟨s, -, decodes⟩ := bind_eq_ok.mp decodes
    obtain rfl := Except.ok.inj decodes
    exact ⟨_, rfl, .constant rfl (.inl rfl) default copies⟩

theorem flows_literal (range : 0x12 ≤ op ∧ op ≤ 0x14) (decodes : decodeDataflow code pc cf op params false = .ok flow) :
    ∃ o, narrowOperation code pc cf op = some o ∧ Flows params op o flow := by
  have default : Default op := default_of_apart (by omega)
  have copies : isValueOnlyOpcode op = false := copies_of_lt (by omega)
  obtain ⟨low, high⟩ := range
  interval_cases op
  · obtain ⟨idx, index, decodes⟩ := bind_eq_ok.mp decodes
    obtain ⟨value, resolved, decodes⟩ := bind_eq_ok.mp decodes
    obtain rfl := Except.ok.inj decodes
    exact ⟨_, bind_toOption index (map_toOption resolved), .literal (.inl rfl) default copies⟩
  · obtain ⟨idx, index, decodes⟩ := bind_eq_ok.mp decodes
    obtain ⟨value, resolved, decodes⟩ := bind_eq_ok.mp decodes
    obtain rfl := Except.ok.inj decodes
    exact ⟨_, bind_toOption index (map_toOption resolved), .literal (.inl rfl) default copies⟩
  · obtain ⟨idx, index, decodes⟩ := bind_eq_ok.mp decodes
    obtain ⟨value, resolved, decodes⟩ := bind_eq_ok.mp decodes
    obtain rfl := Except.ok.inj decodes
    exact ⟨_, bind_toOption index (map_toOption resolved), .literal (.inr rfl) default copies⟩

/-- Loads and stores of the local variable the code names, with and without a prefix. -/
theorem flows_indexedLocal {wide : Bool} (family : 0x15 ≤ op ∧ op ≤ 0x19 ∨ 0x36 ≤ op ∧ op ≤ 0x3a)
    (decodes : decodeDataflow code pc cf op params wide = .ok flow) :
    ∃ slot, readSlot code (if wide then pc + 2 else pc + 1) wide = .ok slot ∧
      Flows params op (if op ≤ 0x19 then .load (typeWidth (op - 0x15)) slot else .store (typeWidth (op - 0x36)) slot)
        flow := by
  have default : Default op := default_of_apart (by omega)
  have copies : isValueOnlyOpcode op = false := copies_of_lt (by omega)
  rcases family with ⟨low, high⟩ | ⟨low, high⟩
  · have decoded : decodeDataflow code pc cf op params wide =
        (readSlot code (if wide then pc + 2 else pc + 1) wide).bind fun slot =>
          .ok ([localSlotToLocation slot params], stackOutputs (typeWidth (op - 0x15))) := by
      clear decodes
      interval_cases op <;> rfl
    obtain ⟨slot, read, decodes⟩ := bind_eq_ok.mp (decoded.symm.trans decodes)
    obtain rfl := Except.ok.inj decodes
    refine ⟨slot, read, ?_⟩
    rw [if_pos high]
    exact .load (width_of_type _) default copies
  · have decoded : decodeDataflow code pc cf op params wide =
        (readSlot code (if wide then pc + 2 else pc + 1) wide).bind fun slot =>
          .ok (stackInputs (typeWidth (op - 0x36)), [localSlotToLocation slot params]) := by
      clear decodes
      interval_cases op <;> rfl
    obtain ⟨slot, read, decodes⟩ := bind_eq_ok.mp (decoded.symm.trans decodes)
    obtain rfl := Except.ok.inj decodes
    refine ⟨slot, read, ?_⟩
    rw [if_neg (by omega)]
    exact .store default

theorem flows_increment {wide : Bool} (decodes : decodeDataflow code pc cf 0x84 params wide = .ok flow) :
    ∃ slot, readSlot code (if wide then pc + 2 else pc + 1) wide = .ok slot ∧
      Flows params 0x84 (.increment slot) flow := by
  have default : Default 0x84 := default_of_apart (by omega)
  obtain ⟨slot, read, decodes⟩ := bind_eq_ok.mp decodes
  refine ⟨slot, read, ?_⟩
  cases wide with
  | false =>
    obtain rfl := Except.ok.inj decodes
    exact .increment default
  | true =>
    obtain ⟨-, -, decodes⟩ := bind_eq_ok.mp decodes
    obtain rfl := Except.ok.inj decodes
    exact .increment default

/-- Fields. -/
theorem flows_field (range : 0xb2 ≤ op ∧ op ≤ 0xb5) (decodes : decodeDataflow code pc cf op params false = .ok flow) :
    ∃ o, narrowOperation code pc cf op = some o ∧ Flows params op o flow := by
  obtain ⟨low, high⟩ := range
  interval_cases op
  all_goals
    obtain ⟨idx, index, decodes⟩ := bind_eq_ok.mp decodes
    obtain ⟨field, resolved, decodes⟩ := bind_eq_ok.mp decodes
    obtain rfl := Except.ok.inj decodes
    have known : ((readU16Be code (pc + 1)).toOption.bind fun idx => (cf.fieldRef idx).toOption) = some field :=
      bind_toOption index (by rw [resolved]; rfl)
  · exact ⟨_, Option.map_eq_some_iff.mpr ⟨field, known, rfl⟩, .getStatic rfl⟩
  · exact ⟨_, Option.map_eq_some_iff.mpr ⟨field, known, rfl⟩, .putStatic rfl⟩
  · exact ⟨_, Option.map_eq_some_iff.mpr ⟨field, known, rfl⟩, .getField rfl⟩
  · exact ⟨_, Option.map_eq_some_iff.mpr ⟨field, known, rfl⟩, .putField rfl⟩

/-- The class an allocation names. -/
theorem className_known {idx : ℕ} {name : String} (index : readU16Be code (pc + 1) = .ok idx)
    (resolved : cf.className idx = .ok name) :
    ((readU16Be code (pc + 1)).toOption.bind fun idx => (cf.className idx).toOption) = some name :=
  bind_toOption index (by rw [resolved]; rfl)

/-- Allocations. -/
theorem flows_new (family : 0xbb ≤ op ∧ op ≤ 0xbd ∨ op = 0xc5)
    (decodes : decodeDataflow code pc cf op params false = .ok flow) :
    ∃ o, narrowOperation code pc cf op = some o ∧ Flows params op o flow := by
  rcases family with ⟨low, high⟩ | rfl
  · interval_cases op
    · obtain ⟨idx, index, decodes⟩ := bind_eq_ok.mp decodes
      obtain ⟨name, resolved, decodes⟩ := bind_eq_ok.mp decodes
      obtain rfl := Except.ok.inj decodes
      exact ⟨_, Option.map_eq_some_iff.mpr ⟨name, className_known index resolved, rfl⟩, .newObject rfl⟩
    · obtain ⟨atype, byte, decodes⟩ := bind_eq_ok.mp decodes
      obtain rfl := Except.ok.inj decodes
      exact ⟨_, map_toOption byte, .newArray (by omega)⟩
    · obtain ⟨idx, index, decodes⟩ := bind_eq_ok.mp decodes
      obtain ⟨name, resolved, decodes⟩ := bind_eq_ok.mp decodes
      obtain rfl := Except.ok.inj decodes
      exact ⟨_, Option.map_eq_some_iff.mpr ⟨name, className_known index resolved, rfl⟩, .newArray (by omega)⟩
  · obtain ⟨idx, index, decodes⟩ := bind_eq_ok.mp decodes
    obtain ⟨dimensions, byte, decodes⟩ := bind_eq_ok.mp decodes
    obtain ⟨name, resolved, decodes⟩ := bind_eq_ok.mp decodes
    obtain rfl := Except.ok.inj decodes
    exact ⟨_, Option.bind_eq_some_iff.mpr ⟨name, className_known index resolved, map_toOption byte⟩, .newMultiArray rfl⟩

/-- Every instruction without a prefix that has data flow of its own and is no shuffle. -/
theorem flows_of_narrow (small : op < 256) (kind : opcodeKind op = .dataflow) (noShuffle : stackShuffle op = none)
    (decodes : decodeDataflow code pc cf op params false = .ok flow) :
    ∃ o, narrowOperation code pc cf op = some o ∧ Flows params op o flow := by
  have families : 0x01 ≤ op ∧ op ≤ 0x0f ∨ (op = 0x10 ∨ op = 0x11) ∨ 0x12 ≤ op ∧ op ≤ 0x14 ∨
      (0x15 ≤ op ∧ op ≤ 0x19 ∨ 0x36 ≤ op ∧ op ≤ 0x3a) ∨ 0x1a ≤ op ∧ op ≤ 0x2d ∨ 0x2e ≤ op ∧ op ≤ 0x35 ∨
      0x3b ≤ op ∧ op ≤ 0x4e ∨ 0x4f ≤ op ∧ op ≤ 0x56 ∨ (0x60 ≤ op ∧ op ≤ 0x83 ∨ 0x85 ≤ op ∧ op ≤ 0x98) ∨ op = 0x84 ∨
      0xb2 ≤ op ∧ op ≤ 0xb5 ∨ (0xbb ≤ op ∧ op ≤ 0xbd ∨ op = 0xc5) := by
    clear decodes
    interval_cases op
    all_goals first
      | omega
      | (cases noShuffle; done)
      | cases kind
  rcases families with h | h | h | h | h | h | h | h | h | rfl | h | h
  · exact flows_constant h decodes
  · exact flows_push h decodes
  · exact flows_literal h decodes
  · obtain ⟨slot, read, flows⟩ := flows_indexedLocal h decodes
    have operation : narrowOperation code pc cf op = (readU8 code (pc + 1)).toOption.map fun slot =>
        if op ≤ 0x19 then .load (typeWidth (op - 0x15)) slot else .store (typeWidth (op - 0x36)) slot := by
      clear decodes flows kind noShuffle
      rcases h with ⟨low, high⟩ | ⟨low, high⟩ <;> interval_cases op <;> rfl
    exact ⟨_, operation.trans (map_toOption read), flows⟩
  · exact flows_localLoad h decodes
  · exact flows_arrayLoad h decodes
  · exact flows_localStore h decodes
  · exact flows_arrayStore h decodes
  · exact flows_compute h decodes
  · obtain ⟨slot, read, flows⟩ := flows_increment decodes
    exact ⟨_, map_toOption read, flows⟩
  · exact flows_field h decodes
  · exact flows_new h decodes

/-- Every instruction behind a prefix, but `ret`. -/
theorem flows_of_wide (family : (0x15 ≤ op ∧ op ≤ 0x19 ∨ 0x36 ≤ op ∧ op ≤ 0x3a) ∨ op = 0x84)
    (decodes : decodeDataflow code pc cf op params true = .ok flow) :
    ∃ o, wideOperation code pc op = some o ∧ Flows params op o flow := by
  rcases family with h | rfl
  · obtain ⟨slot, read, flows⟩ := flows_indexedLocal h decodes
    have operation : wideOperation code pc op = (readU16Be code (pc + 2)).toOption.map fun slot =>
        if op ≤ 0x19 then .load (typeWidth (op - 0x15)) slot else .store (typeWidth (op - 0x36)) slot := by
      clear decodes flows
      rcases h with ⟨low, high⟩ | ⟨low, high⟩ <;> interval_cases op <;> rfl
    exact ⟨_, operation.trans (map_toOption read), flows⟩
  · obtain ⟨slot, read, flows⟩ := flows_increment decodes
    exact ⟨_, map_toOption read, flows⟩

end Tables

/-! ## Instructions -/

namespace FrontendNames

variable {names : FrontendNames} {params : ParameterSlotMap} {context : InstructionContext} {stackLen op : ℕ}
  {dfs : List DataflowInfo} {stmts : List Statement} {o : Operation}

/-- Data flow of the tables. -/
theorem correct_iff_of_flows {kind : InstructionKind} {flow : List FlowLocation × List FlowLocation}
    (flows : Flows params op o flow)
    (simulates : simulateDataflow context stackLen ⟨kind, op, splitDataflowInfos flow⟩ = .ok dfs)
    (lowers : names.instructionStatements op dfs = some stmts) :
    Correct names.clean names.temps stmts (names.effect params stackLen o) ↔ o.Kept := by
  cases flows with
  | @constant width value plain two default copies =>
    have correct := @correct_literal names params _ _ _ _ _ _ _ value two default copies simulates lowers
    rw [effect, plain] at correct
    exact iff_of_true correct trivial
  | literal two default copies => exact iff_of_true (correct_literal _ two default copies simulates lowers) trivial
  | load two default copies => exact iff_of_true (correct_localLoad two default copies simulates lowers) trivial
  | store default => exact iff_of_true (correct_localStore default simulates lowers) trivial
  | arrayLoad range => exact correct_arrayLoad_iff range simulates lowers
  | arrayStore range exact_type => exact correct_arrayStore_iff range exact_type simulates lowers
  | sastore exact_op =>
    subst exact_op
    exact iff_of_false (not_correct_sastore simulates lowers) fun kept => kept.2 rfl
  | compute two default => exact iff_of_true (correct_compute two default simulates lowers) trivial
  | increment default => exact iff_of_true (correct_increment default simulates lowers) trivial
  | getStatic exact_op =>
    subst exact_op
    exact iff_of_true (correct_getStatic simulates lowers) trivial
  | putStatic exact_op =>
    subst exact_op
    exact correct_putStatic_iff simulates lowers
  | getField exact_op =>
    subst exact_op
    exact correct_getField_iff simulates lowers
  | putField exact_op =>
    subst exact_op
    exact correct_putField_iff simulates lowers
  | newObject exact_op =>
    subst exact_op
    exact iff_of_true (correct_new (by omega) rfl rfl simulates lowers) trivial
  | newArray range =>
    exact iff_of_true (correct_new (by omega) rfl rfl simulates lowers) trivial
  | newMultiArray exact_op =>
    subst exact_op
    exact correct_newMultiArray_iff simulates lowers

/-- A shuffle pops what its deepest output needs. -/
theorem operation_of_shuffle {code : List UInt8} {pc : ℕ} {cf : ResolvedPool} {inputs : List ℕ}
    (kind : InstructionKind) (range : 0x59 ≤ op ∧ op ≤ 0x5f) (shuffles : stackShuffle op = some inputs) :
    narrowOperation code pc cf op =
      some (.shuffle (InstructionFlowInfo.consume ⟨kind, op, stackShuffleDataflow inputs⟩) inputs) := by
  obtain ⟨low, high⟩ := range
  interval_cases op <;> cases shuffles <;> rfl

theorem shuffle_range {inputs : List ℕ} (shuffles : stackShuffle op = some inputs) : 0x59 ≤ op ∧ op ≤ 0x5f := by
  rw [stackShuffle] at shuffles
  split_ifs at shuffles <;> omega

/-- Instructions without data flow do nothing, or keep the top of the stack. -/
theorem operation_of_other {code : List UInt8} {pc : ℕ} {cf : ResolvedPool} (kind : opcodeKind op = .other)
    (noThrow : op ≠ 0xbf) (acts : narrowOperation code pc cf op = some o) : o = .compute 1 1 ∨ o = .other := by
  have apart : op = 0 ∨ 0x57 ≤ op ∧ op ≤ 0x58 ∨ 0x99 ≤ op ∧ op ≤ 0xb1 ∨ op = 0xbe ∨ 0xc0 ≤ op ∧ op ≤ 0xc4 ∨ 0xc6 ≤ op := by
    rw [opcodeKind] at kind
    split_ifs at kind
    omega
  rw [narrowOperation] at acts
  repeat rw [if_neg (by omega)] at acts
  have plain : plainOperation op = (if op = 0xbe ∨ op = 0xc0 ∨ op = 0xc1 then some (.compute 1 1) else none) := by
    rw [plainOperation]
    repeat rw [if_neg (by omega : ¬ _)]
    simp [noThrow]
  rw [plain] at acts
  split_ifs at acts
  · exact .inl (Option.some.inj acts).symm
  · exact .inr (Option.some.inj acts).symm

/-- The opcodes a prefix may stand before. -/
theorem wide_cases {code : List UInt8} {pc : ℕ} (acts : wideOperation code pc op = some o) :
    ((0x15 ≤ op ∧ op ≤ 0x19 ∨ 0x36 ≤ op ∧ op ≤ 0x3a) ∨ op = 0x84) ∨ op = 0xa9 ∧ o = .other := by
  rw [wideOperation] at acts
  split_ifs at acts with load store increment ret
  · exact .inl (.inl (.inl load))
  · exact .inl (.inl (.inr store))
  · exact .inl (.inr increment)
  · exact .inr ⟨ret, (Option.some.inj acts).symm⟩

section Instruction

variable {code : List UInt8} {pc : ℕ} {cf : ResolvedPool} {inst : InstructionFlowInfo} {byte : UInt8}

/-- Behind a prefix. -/
theorem correct_iff_of_wide {subop : UInt8} (at_pc : code[pc]? = some byte) (wide : byte.toNat = 0xc4)
    (next : code[pc + 1]? = some subop) (acts : wideOperation code pc subop.toNat = some o)
    (decodes : decodeFlowInstruction code pc cf params = .ok inst)
    (simulates : simulateDataflow context stackLen inst = .ok dfs)
    (lowers : names.instructionStatements inst.opcode dfs = some stmts) :
    Correct names.clean names.temps stmts (names.effect params stackLen o) ↔ o.Kept := by
  have logical : logicalOpcode code pc byte.toNat = subop.toNat := by
    rw [logicalOpcode, if_pos wide, List.getD_eq_getElem?_getD, next]
    rfl
  rcases wide_cases acts with family | ⟨ret, rfl⟩
  · have kind : opcodeKind subop.toNat = .dataflow := by
      rw [opcodeKind]
      split_ifs <;> first | rfl | omega
    obtain ⟨flow, decoded, rfl⟩ := decode_dataflow at_pc logical kind (.inl wide) decodes
    rw [decide_eq_true wide] at decoded
    obtain ⟨o', acts', flows⟩ := flows_of_wide family decoded
    obtain rfl := Option.some.inj (acts.symm.trans acts')
    exact correct_iff_of_flows flows simulates lowers
  · rw [ret] at logical
    obtain rfl := decode_other at_pc logical (by decide) rfl decodes
    obtain rfl := statements_of_nil ((simulateDataflow_eq simulates).2 ▸ lowers)
    exact iff_of_true correct_other trivial

/-- Without a prefix. -/
theorem correct_iff_of_narrow (at_pc : code[pc]? = some byte) (narrow : byte.toNat ≠ 0xc4)
    (acts : narrowOperation code pc cf byte.toNat = some o)
    (decodes : decodeFlowInstruction code pc cf params = .ok inst) (noCall : inst.kind ≠ .call)
    (simulates : simulateDataflow context stackLen inst = .ok dfs)
    (lowers : names.instructionStatements inst.opcode dfs = some stmts) :
    Correct names.clean names.temps stmts (names.effect params stackLen o) ↔ o.Kept := by
  have logical : logicalOpcode code pc byte.toNat = byte.toNat := if_neg narrow
  cases shuffles : stackShuffle byte.toNat with
  | some inputs =>
    have range := shuffle_range shuffles
    obtain rfl := decode_shuffle at_pc narrow shuffles (by omega) decodes
    have shape := acts.symm.trans (operation_of_shuffle (opcodeKind byte.toNat) range shuffles)
    obtain rfl := Option.some.inj shape
    have moves : isStackShuffleOpcode byte.toNat = true := by
      simp only [isStackShuffleOpcode, Bool.and_eq_true, decide_eq_true_eq]
      exact range
    exact iff_of_true (correct_shuffle moves rfl simulates lowers) trivial
  | none =>
    cases kind : opcodeKind byte.toNat with
    | dataflow =>
      obtain ⟨flow, decoded, rfl⟩ := decode_dataflow at_pc logical kind (.inr shuffles) decodes
      rw [decide_eq_false narrow] at decoded
      obtain ⟨o', acts', flows⟩ := flows_of_narrow byte.toNat_lt kind shuffles decoded
      obtain rfl := Option.some.inj (acts.symm.trans acts')
      exact correct_iff_of_flows flows simulates lowers
    | call =>
      obtain rfl := decode_other at_pc logical (by simp [kind]) shuffles decodes
      exact absurd kind noCall
    | other =>
      obtain rfl := decode_other at_pc logical (by simp [kind]) shuffles decodes
      by_cases throws : byte.toNat = 0xbf
      · rw [throws] at acts simulates lowers
        obtain rfl := Option.some.inj acts
        exact iff_of_true (correct_throw simulates lowers) trivial
      · rw [if_neg throws] at simulates
        obtain rfl := statements_of_nil ((simulateDataflow_eq simulates).2 ▸ lowers)
        rcases operation_of_other kind throws acts with rfl | rfl
        · exact iff_of_true correct_unary trivial
        · exact iff_of_true correct_other trivial

/-- An instruction other than a call is lowered to its effect exactly if its operation is kept. -/
theorem correct_iff_kept (acts : operation code pc cf = some o)
    (decodes : decodeFlowInstruction code pc cf params = .ok inst) (noCall : inst.kind ≠ .call)
    (simulates : simulateDataflow context stackLen inst = .ok dfs)
    (lowers : names.instructionStatements inst.opcode dfs = some stmts) :
    Correct names.clean names.temps stmts (names.effect params stackLen o) ↔ o.Kept := by
  obtain ⟨byte, at_pc, acts⟩ := Option.bind_eq_some_iff.mp acts
  split_ifs at acts with wide
  · obtain ⟨subop, next, acts⟩ := Option.bind_eq_some_iff.mp acts
    exact correct_iff_of_wide at_pc wide next acts decodes simulates lowers
  · exact correct_iff_of_narrow at_pc wide acts decodes noCall simulates lowers

end Instruction

end FrontendNames

end Ctadl.Jvm
