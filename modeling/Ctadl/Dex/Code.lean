import Mathlib.Algebra.Group.Nat.Defs
import Mathlib.Data.List.Basic
import Mathlib.Data.Option.Basic

/-! # Dex instruction streams

A code item is a sequence of 16-bit units. It is read from the front: a unit says which instruction or
payload starts there and how many units that takes. So the items come in the order of their offsets.
-/

namespace Ctadl.Dex

/-- A code unit. -/
abbrev CodeUnit := BitVec 16

/-- An instruction. Those with one way to go on behind them keep only their opcode. -/
inductive Instruction
  | goto (off : BitVec 8)
  | goto16 (off : BitVec 16)
  | goto32 (off : BitVec 32)
  /-- `IfEq` to `IfLe`. -/
  | ifTest (opcode : ℕ) (tgt : BitVec 16)
  /-- `IfEqz` to `IfLez`. -/
  | ifTestz (opcode : ℕ) (tgt : BitVec 16)
  | packedSwitch (tgt : BitVec 32)
  | sparseSwitch (tgt : BitVec 32)
  | throw
  /-- `ReturnVoid`, `Return`, `ReturnWide` and `ReturnObject`. -/
  | ret (opcode : ℕ)
  | plain (opcode : ℕ)
deriving DecidableEq, Repr

inductive PayloadInstruction
  | packedSwitch (firstKey : BitVec 32) (targets : List (BitVec 32))
  | sparseSwitch (keys targets : List (BitVec 32))
  | fillArrayData (elementWidth : CodeUnit) (size : BitVec 32)
deriving DecidableEq, Repr

/-- Branch targets, relative to the switch. -/
def PayloadInstruction.targets : PayloadInstruction → List (BitVec 32)
  | packedSwitch _ targets | sparseSwitch _ targets => targets
  | fillArrayData _ _ => []

inductive DecodedCodeItem
  | instruction (offset : ℕ) (inst : Instruction)
  | payload (offset : ℕ) (payload : PayloadInstruction)
deriving DecidableEq, Repr

def DecodedCodeItem.offset : DecodedCodeItem → ℕ
  | instruction offset _ | payload offset _ => offset

structure TryItem where
  startAddr : BitVec 32
  insnCount : BitVec 16
  /-- Where its handler stands in the list of handlers. -/
  handlerOff : BitVec 16
deriving DecidableEq, Repr

structure TypeAddrPair where
  typeIdx : BitVec 32
  addr : BitVec 32
deriving DecidableEq, Repr

structure EncodedCatchHandler where
  pairs : List TypeAddrPair
  catchAllAddr : Option (BitVec 32)
  startOff : BitVec 32
deriving DecidableEq, Repr

/-- The handlers, each read behind the one before. -/
structure CatchHandlerList where
  handlers : List EncodedCatchHandler
  startOffs : (handlers.map (·.startOff)).Nodup

def CatchHandlerList.getByOff (l : CatchHandlerList) (handlerOff : BitVec 16) : Option EncodedCatchHandler :=
  l.handlers.find? (·.startOff = handlerOff.setWidth 32)

/-- The code of a method. A file's size is a 32-bit number of bytes, and a unit has two. -/
structure CodeItem where
  insns : List CodeUnit
  tries : List TryItem := []
  handlers : Option CatchHandlerList := none
  short : insns.length < 2 ^ 31

/-! ## Decoding -/

/-- How many units an instruction takes, by its opcode. -/
def width (opcode : ℕ) : ℕ :=
  if opcode = 0x18 then 5
  else if opcode = 0xfa ∨ opcode = 0xfb then 4
  else if opcode ∈ [0x03, 0x06, 0x09, 0x14, 0x17, 0x1b, 0x24, 0x25, 0x26, 0x2a, 0x2b, 0x2c, 0xfc, 0xfd] ∨
    0x6e ≤ opcode ∧ opcode ≤ 0x72 ∨ 0x74 ≤ opcode ∧ opcode ≤ 0x78 then 3
  else if opcode ∈ [0x02, 0x05, 0x08, 0x13, 0x15, 0x16, 0x19, 0x1a, 0x1c, 0x1f, 0x20, 0x22, 0x23, 0x29, 0xfe, 0xff] ∨
    0x2d ≤ opcode ∧ opcode ≤ 0x3d ∨ 0x44 ≤ opcode ∧ opcode ≤ 0x6d ∨ 0x90 ≤ opcode ∧ opcode ≤ 0xaf ∨
    0xd0 ≤ opcode ∧ opcode ≤ 0xe2 then 2
  else 1

/-- Two units as one number, the low half first. -/
def word (low high : CodeUnit) : BitVec 32 := high ++ low

/-- The numbers a run of units holds. -/
def words : List CodeUnit → List (BitVec 32)
  | low :: high :: units => word low high :: words units
  | _ => []

/-- The instruction `units` start with, once they are known to hold all of it. -/
def Instruction.ofUnits (units : List CodeUnit) : Instruction :=
  let unit := fun i => units.getD i 0
  let opcode := (unit 0).toNat % 256
  if opcode = 0x27 then .throw
  else if opcode = 0x28 then .goto ((unit 0).extractLsb' 8 8)
  else if opcode = 0x29 then .goto16 (unit 1)
  else if opcode = 0x2a then .goto32 (word (unit 1) (unit 2))
  else if opcode = 0x2b then .packedSwitch (word (unit 1) (unit 2))
  else if opcode = 0x2c then .sparseSwitch (word (unit 1) (unit 2))
  else if 0x32 ≤ opcode ∧ opcode ≤ 0x37 then .ifTest opcode (unit 1)
  else if 0x38 ≤ opcode ∧ opcode ≤ 0x3d then .ifTestz opcode (unit 1)
  else if 0x0e ≤ opcode ∧ opcode ≤ 0x11 then .ret opcode
  else .plain opcode

/-- The item at the head of `units`, and its width. Nothing where the units end within it: the reader stops there. -/
def decodeItem (pc : ℕ) (units : List CodeUnit) : Option (DecodedCodeItem × ℕ) :=
  let unit := fun i => units.getD i 0
  let size := (unit 1).toNat
  match unit 0 with
  | 0x0100 =>
    if 4 + size * 2 ≤ units.length then
      some (.payload pc (.packedSwitch (word (unit 2) (unit 3)) (words ((units.drop 4).take (size * 2)))), 4 + size * 2)
    else none
  | 0x0200 =>
    if 2 + size * 4 ≤ units.length then
      let numbers := words ((units.drop 2).take (size * 4))
      some (.payload pc (.sparseSwitch (numbers.take size) (numbers.drop size)), 2 + size * 4)
    else none
  | 0x0300 =>
    if 4 ≤ units.length then
      let count := word (unit 2) (unit 3)
      some (.payload pc (.fillArrayData (unit 1) count), (count.toNat * size + 1) / 2 + 4)
    else none
  | first =>
    let width := width (first.toNat % 256)
    if width ≤ units.length then some (.instruction pc (.ofUnits units), width) else none

/-- The items from `pc` on, where the first `skip` units still belong to the item before. -/
def decodeFrom : ℕ → ℕ → List CodeUnit → Option (List DecodedCodeItem)
  | _, _, [] => some []
  | pc, skip + 1, _ :: units => decodeFrom (pc + 1) skip units
  | pc, 0, unit :: units => do
    let (item, width) ← decodeItem pc (unit :: units)
    let items ← decodeFrom (pc + 1) (width - 1) units
    return item :: items

def decodeCodeItem (code : CodeItem) : Option (List DecodedCodeItem) := decodeFrom 0 0 code.insns

variable {pc skip w : ℕ} {units : List CodeUnit} {item : DecodedCodeItem} {items : List DecodedCodeItem}

theorem offset_of_decodeItem (decodes : decodeItem pc units = some (item, w)) : item.offset = pc := by
  unfold decodeItem at decodes
  dsimp only at decodes
  split at decodes <;> split_ifs at decodes <;> cases decodes <;> rfl

/-- Every item starts at a unit. -/
theorem offset_of_mem_decodeFrom (decodes : decodeFrom pc skip units = some items) (member : item ∈ items) :
    pc + skip ≤ item.offset ∧ item.offset < pc + units.length := by
  induction units generalizing pc skip items with
  | nil =>
    obtain rfl : [] = items := Option.some.inj decodes
    exact absurd member List.not_mem_nil
  | cons unit units ih =>
    cases skip with
    | succ skip =>
      have rest := ih decodes member
      rw [List.length_cons]
      omega
    | zero =>
      simp only [decodeFrom, Option.bind_eq_bind, Option.bind_eq_some_iff, Option.pure_def, Option.some.injEq] at decodes
      obtain ⟨⟨first, w⟩, head, rest, tail, rfl⟩ := decodes
      rw [List.length_cons]
      rcases List.mem_cons.mp member with rfl | later
      · have start := offset_of_decodeItem head
        omega
      · have behind := ih tail later
        omega

/-- The items come in the order of their offsets. -/
theorem decodeFrom_sorted (decodes : decodeFrom pc skip units = some items) :
    items.Pairwise (·.offset < ·.offset) := by
  induction units generalizing pc skip items with
  | nil =>
    obtain rfl : [] = items := Option.some.inj decodes
    exact List.Pairwise.nil
  | cons unit units ih =>
    cases skip with
    | succ skip => exact ih decodes
    | zero =>
      simp only [decodeFrom, Option.bind_eq_bind, Option.bind_eq_some_iff, Option.pure_def, Option.some.injEq] at decodes
      obtain ⟨⟨first, w⟩, head, rest, tail, rfl⟩ := decodes
      apply List.Pairwise.cons
      · intro item later
        have start : first.offset = pc := offset_of_decodeItem head
        have behind := offset_of_mem_decodeFrom tail later
        dsimp only
        omega
      · exact ih tail

end Ctadl.Dex
