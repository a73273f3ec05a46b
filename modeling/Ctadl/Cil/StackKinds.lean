import Ctadl.Cil.Opcodes
import Mathlib.Order.WellFounded

/-! # The kinds of the values on the stack

What is known of a value on the stack is its kind, and where two ways meet that disagree, nothing is. A stack lies below
another if it is no higher and knows no more of each value, so two stacks meet in the lower part that both have.

The kinds an instruction pushes follow from those it pops: the less is known of its operands, the less is known of its
results.
-/

namespace Ctadl.Cil

inductive StackKind
  | int32 | int64 | nativeInt | float | objRef | managedPtr
  | valueType (ty : TypeOp)
  | unknown
deriving DecidableEq, Repr

namespace StackKind

instance : SemilatticeInf StackKind where
  le a b := a = b ∨ a = unknown
  inf a b := if a = b then a else unknown
  le_refl _ := .inl rfl
  le_trans := by
    rintro a b c (rfl | rfl) below
    · exact below
    · exact .inr rfl
  le_antisymm := by
    rintro a b (rfl | rfl) (same | same)
    · rfl
    · rfl
    · exact same.symm
    · exact same.symm
  inf_le_left a b := by
    split_ifs
    · exact .inl rfl
    · exact .inr rfl
  inf_le_right a b := by
    split_ifs with same
    · exact .inl same
    · exact .inr rfl
  le_inf := by
    rintro a b c (rfl | rfl) (rfl | same)
    · exact .inl (if_pos rfl).symm
    · exact .inr same
    · exact .inr rfl
    · exact .inr rfl

variable {a b c d : StackKind}

theorem unknown_le : unknown ≤ a := .inr rfl

/-- How much is known of a value. -/
def rank : StackKind → ℕ
  | unknown => 0
  | _ => 1

theorem rank_lt (below : a < b) : a.rank < b.rank := by
  rcases below.le with rfl | rfl
  · exact absurd below (lt_irrefl a)
  · cases b with
    | unknown => exact absurd below (lt_irrefl _)
    | _ => exact Nat.one_pos

end StackKind

/-- The kinds of the values on the stack, the bottom first. -/
def Stack := List StackKind
deriving DecidableEq

namespace Stack

def of (kinds : List StackKind) : Stack := kinds

def empty : Stack := []

/-- The stack with the caught exception. -/
def caught : Stack := [.objRef]

/-- Whether a stack is no higher than another and knows no more of its values. -/
def le : List StackKind → List StackKind → Prop
  | [], _ => True
  | _ :: _, [] => False
  | a :: s, b :: t => a ≤ b ∧ le s t

/-- The part that two stacks have in common. -/
def meet : List StackKind → List StackKind → List StackKind := List.zipWith (· ⊓ ·)

instance : SemilatticeInf Stack where
  le := le
  inf := meet
  le_refl s := by
    induction s with
    | nil => trivial
    | cons a s ih => exact ⟨le_rfl, ih⟩
  le_trans s t u := by
    induction s generalizing t u with
    | nil => exact fun _ _ => trivial
    | cons a s ih =>
      cases t with
      | nil => exact fun first => first.elim
      | cons b t =>
        cases u with
        | nil => exact fun _ second => second.elim
        | cons c u => exact fun first second => ⟨first.1.trans second.1, ih t u first.2 second.2⟩
  le_antisymm s t := by
    induction s generalizing t with
    | nil =>
      cases t with
      | nil => exact fun _ _ => rfl
      | cons b t => exact fun _ second => second.elim
    | cons a s ih =>
      cases t with
      | nil => exact fun first => first.elim
      | cons b t =>
        intro first second
        rw [first.1.antisymm second.1, ih t first.2 second.2]
  inf_le_left s t := by
    induction s generalizing t with
    | nil => trivial
    | cons a s ih =>
      cases t with
      | nil => trivial
      | cons b t => exact ⟨inf_le_left, ih t⟩
  inf_le_right s t := by
    induction s generalizing t with
    | nil => trivial
    | cons a s ih =>
      cases t with
      | nil => trivial
      | cons b t => exact ⟨inf_le_right, ih t⟩
  le_inf s t u := by
    induction s generalizing t u with
    | nil => exact fun _ _ => trivial
    | cons a s ih =>
      cases t with
      | nil => exact fun first => first.elim
      | cons b t =>
        cases u with
        | nil => exact fun _ second => second.elim
        | cons c u => exact fun first second => ⟨le_inf first.1 second.1, ih t u first.2 second.2⟩

/-- How much is known of a stack. -/
def rank : List StackKind → ℕ
  | [] => 0
  | a :: s => a.rank + 1 + rank s

variable {s t : List StackKind}

theorem rank_le (below : le s t) : rank s ≤ rank t ∧ (rank s = rank t → s = t) := by
  induction s generalizing t with
  | nil =>
    cases t with
    | nil => exact ⟨le_rfl, fun _ => rfl⟩
    | cons b t => exact ⟨Nat.zero_le _, fun same => by simp only [rank] at same; omega⟩
  | cons a s ih =>
    cases t with
    | nil => exact below.elim
    | cons b t =>
      obtain ⟨first, rest⟩ := below
      obtain ⟨fewer, equal⟩ := ih rest
      simp only [rank]
      rcases eq_or_lt_of_le first with rfl | strictly
      · exact ⟨by omega, fun same => by rw [equal (by omega)]⟩
      · have less := StackKind.rank_lt strictly
        exact ⟨by omega, fun same => by omega⟩

instance : WellFoundedLT Stack where
  wf := by
    refine Subrelation.wf (fun {s t} (below : s < t) => ?_) (measure rank).wf
    obtain ⟨fewer, equal⟩ := rank_le below.le
    exact lt_of_le_of_ne fewer fun same => below.ne (equal same)

/-- Stacks of one height compare value by value. -/
theorem le_iff_forall₂ (same : s.length = t.length) : le s t ↔ List.Forall₂ (· ≤ ·) s t := by
  induction s generalizing t with
  | nil =>
    obtain rfl := List.length_eq_zero_iff.mp same.symm
    exact iff_of_true trivial .nil
  | cons a s ih =>
    cases t with
    | nil => exact nomatch same
    | cons b t => rw [List.forall₂_cons, ← ih (Nat.succ.inj same), le]

theorem length_meet : (meet s t).length = min s.length t.length := List.length_zipWith

end Stack

/-- What a type token names. -/
inductive Entity
  | typeDef (isEnum : Bool)
  /-- A reference, with the signature of the primitive it stands for, if it does. -/
  | typeRef (primitive : Option TypeSig)
  | other
deriving DecidableEq, Repr

/-- What the kinds of the results depend on besides the operands. -/
structure KindCx where
  isValueType : TypeOp → Option Bool
  entity : ℕ → Option Entity
  method : ℕ → Option ResolvedMethod
  instructions : List Ins
  argKinds : List StackKind
  localKinds : List StackKind

/-- The kind of a value of a signature type, given the kinds of the value types it names. -/
def kindOfSig (isValueType : TypeOp → Option Bool) (valueKind : TypeOp → StackKind) (t : TypeSig) : StackKind :=
  match t.unwrapModifiers with
  | .boolean | .char | .i1 | .u1 | .i2 | .u2 | .i4 | .u4 => .int32
  | .i8 | .u8 => .int64
  | .r4 | .r8 => .float
  | .intPtr | .uintPtr | .ptr _ | .fnPtr => .nativeInt
  | .string | .object | .szArray _ | .array _ => .objRef
  | .byRef _ => .managedPtr
  | .named token byValue => if (isValueType ⟨token⟩).getD byValue then valueKind ⟨token⟩ else .objRef
  | .genericInst byValue ty => if byValue then .valueType ⟨ty⟩ else .objRef
  | .void | .typedByRef | .var _ | .mvar _ | .cmodReq _ _ | .cmodOpt _ _ | .pinned _ | .sentinel _ => .unknown

/-- The result of a binary numeric operation. -/
def binaryKind : StackKind → StackKind → StackKind
  | .int32, .int32 => .int32
  | .int64, .int64 => .int64
  | .float, .float => .float
  | .int32, .nativeInt | .nativeInt, .int32 | .nativeInt, .nativeInt => .nativeInt
  | .managedPtr, .int32 | .managedPtr, .nativeInt | .int32, .managedPtr | .nativeInt, .managedPtr => .managedPtr
  | .managedPtr, .managedPtr => .nativeInt
  | _, _ => .unknown

def convKind : ConvType → StackKind
  | .i1 | .i2 | .i4 | .u1 | .u2 | .u4 => .int32
  | .i8 | .u8 => .int64
  | .i | .u => .nativeInt
  | .r4 | .r8 | .r => .float

def constKind : Const → StackKind
  | .i4 _ | .sizeOf _ => .int32
  | .i8 _ => .int64
  | .r4 _ | .r8 _ => .float
  | .null | .string _ => .objRef
  | .token _ | .argList => .unknown

def newKind : NewKind → Option TypeOp → StackKind
  | .valueType, some t => .valueType t
  | .valueType, none => .unknown
  | .object, _ | .array, _ => .objRef
  | .stackAlloc, _ => .nativeInt

namespace KindCx

variable (cx : KindCx)

/-- The kind of a value of a value type: an enum is its integer. The signature of a primitive names no type. -/
def valueKind (t : TypeOp) : StackKind :=
  match cx.entity t.token with
  | some (.typeDef true) => .int32
  | some (.typeRef (some primitive)) => kindOfSig cx.isValueType .valueType primitive
  | _ => .valueType t

def sigKind (t : TypeSig) : StackKind := kindOfSig cx.isValueType cx.valueKind t

/-- The instruction a record is of, behind its prefixes. -/
def instruction (flow : InsEffects) : Option Ins :=
  let stop := flow.offset + flow.size
  cx.instructions[partitionPoint (fun i : Ins => i.offset + i.size < stop) cx.instructions]?.filter fun i =>
    i.offset + i.size = stop

/-- The kind of the type operand. -/
def operandTypeKind (flow : InsEffects) : StackKind :=
  match cx.instruction flow with
  | none => .unknown
  | some ins => match cx.isValueType (typeOp ins) with
    | some true => cx.valueKind (typeOp ins)
    | some false => .objRef
    | none => .unknown

def loadKind (flow : InsEffects) : Field Slot → StackKind
  | .named f => cx.sigKind f.ty
  | .length => .nativeInt
  | .element _ | .deref | .block _ => match flow.code with
    | some .ldelemI1 | some .ldelemU1 | some .ldelemI2 | some .ldelemU2 | some .ldelemI4 | some .ldelemU4
    | some .ldindI1 | some .ldindU1 | some .ldindI2 | some .ldindU2 | some .ldindI4 | some .ldindU4 => .int32
    | some .ldelemI8 | some .ldindI8 => .int64
    | some .ldelemI | some .ldindI => .nativeInt
    | some .ldelemR4 | some .ldelemR8 | some .ldindR4 | some .ldindR8 => .float
    | some .ldelemRef | some .ldindRef => .objRef
    | some .ldelemAny | some .ldobj => cx.operandTypeKind flow
    -- A multi-dimensional array's get.
    | some .call | some .callvirt =>
      ((cx.instruction flow).bind fun ins => cx.method (token ins)).elim .unknown fun m => cx.sigKind m.op.sig.returnType
    | _ => .unknown

/-- The kind of what a slot holds, given the kinds of the operands. -/
def slotKind (inputs : List StackKind) : Slot → StackKind
  | .input i => inputs.getD i .unknown
  | .arg n => cx.argKinds.getD n .unknown
  | .loc n => cx.localKinds.getD n .unknown
  | .caught => .objRef
  | .output _ | .temp _ | .thrown => .unknown

def assignKind (flow : InsEffects) (inputs : List StackKind) (srcs : List Slot) (transfer : Transfer) : StackKind :=
  let first := (srcs[0]?).elim .unknown (cx.slotKind inputs)
  match transfer with
  | .copy => first
  | .cast _ | .box _ => .objRef
  | .unbox t =>
    if flow.code = some .unbox then .managedPtr
    else if cx.isValueType t = some true then cx.valueKind t
    else .unknown
  | .derived op => match op with
    | .cmp _ _ => .int32
    | .conv target => convKind target.ty
    | .neg | .not | .shl | .shr _ => first
    | .add _ | .sub _ | .mul _ | .div _ | .rem _ | .and | .or | .xor =>
      binaryKind first ((srcs[1]?).elim .unknown (cx.slotKind inputs))
    | .refAnyVal _ => .managedPtr
    | .mkRefAny _ | .refAnyType => .unknown

/-- Where an effect puts a value, and of which kind. -/
def effectKind (flow : InsEffects) (inputs : List StackKind) : Effect Slot → Option (Slot × StackKind)
  | .assign dst srcs transfer => some (dst, cx.assignKind flow inputs srcs transfer)
  | .const dst value => some (dst, constKind value)
  | .load dst src => some (dst, cx.loadKind flow src.field)
  | .addressOf dst _ => some (dst, .managedPtr)
  | .new dst kind ty _ => some (dst, newKind kind ty)
  | .functionPtr dst _ _ => some (dst, .nativeInt)
  | .call site => site.result.map fun dst => (dst, cx.sigKind site.sig.returnType)
  | .store _ _ | .clear _ | .ret _ | .throw _ | .jump _ | .test _ | .unresolved _ _ _ => none

/-- Notes the kind of a pushed value. -/
def note (kinds : List StackKind) : Option (Slot × StackKind) → List StackKind
  | some (.output j, kind) => kinds.set j kind
  | _ => kinds

/-- The kinds of the values an instruction pushes, given those of the ones it pops. -/
def outKinds (flow : InsEffects) (inputs : List StackKind) : List StackKind :=
  flow.effects.foldl (fun kinds e => note kinds (cx.effectKind flow inputs e)) (List.replicate flow.outputs .unknown)

end KindCx

section Monotone

open List (Forall₂)

variable {a b c d : StackKind} {cx : KindCx} {flow : InsEffects} {inputs inputs' : List StackKind}

theorem binaryKind_mono (first : a ≤ b) (second : c ≤ d) : binaryKind a c ≤ binaryKind b d := by
  rcases first with rfl | rfl
  · rcases second with rfl | rfl
    · exact le_rfl
    · cases a <;> exact StackKind.unknown_le
  · exact StackKind.unknown_le

theorem getD_mono (below : Forall₂ (· ≤ ·) inputs inputs') (i : ℕ) : inputs.getD i .unknown ≤ inputs'.getD i .unknown := by
  induction below generalizing i with
  | nil => exact le_rfl
  | cons first _ ih =>
    cases i with
    | zero => exact first
    | succ i => exact ih i

theorem slotKind_mono (below : Forall₂ (· ≤ ·) inputs inputs') (s : Slot) : cx.slotKind inputs s ≤ cx.slotKind inputs' s := by
  cases s with
  | input i => exact getD_mono below i
  | _ => exact le_rfl

theorem elim_slotKind_mono (below : Forall₂ (· ≤ ·) inputs inputs') (s : Option Slot) :
    s.elim .unknown (cx.slotKind inputs) ≤ s.elim .unknown (cx.slotKind inputs') := by
  cases s with
  | none => exact le_rfl
  | some s => exact slotKind_mono below s

theorem assignKind_mono (below : Forall₂ (· ≤ ·) inputs inputs') (srcs : List Slot) (transfer : Transfer) :
    cx.assignKind flow inputs srcs transfer ≤ cx.assignKind flow inputs' srcs transfer := by
  have first := @elim_slotKind_mono cx _ _ below srcs[0]?
  have both := binaryKind_mono first (@elim_slotKind_mono cx _ _ below srcs[1]?)
  unfold KindCx.assignKind
  cases transfer with
  | copy => exact first
  | derived op =>
    cases op with
    | neg | not | shl | shr _ => exact first
    | add _ | sub _ | mul _ | div _ | rem _ | and | or | xor => exact both
    | _ => exact le_rfl
  | _ => exact le_rfl

theorem effectKind_mono (below : Forall₂ (· ≤ ·) inputs inputs') (e : Effect Slot) :
    Option.Rel (fun x y => x.1 = y.1 ∧ x.2 ≤ y.2) (cx.effectKind flow inputs e) (cx.effectKind flow inputs' e) := by
  cases e with
  | assign dst srcs transfer => exact .some ⟨rfl, assignKind_mono below srcs transfer⟩
  | call site =>
    change Option.Rel _ (site.result.map _) (site.result.map _)
    cases site.result with
    | none => exact .none
    | some dst => exact .some ⟨rfl, le_rfl⟩
  | const _ _ | load _ _ | addressOf _ _ | new _ _ _ _ | functionPtr _ _ _ => exact .some ⟨rfl, le_rfl⟩
  | _ => exact .none

theorem set_mono (below : Forall₂ (· ≤ ·) inputs inputs') (j : ℕ) (kind : a ≤ b) :
    Forall₂ (· ≤ ·) (inputs.set j a) (inputs'.set j b) := by
  induction below generalizing j with
  | nil => exact .nil
  | cons first rest ih =>
    cases j with
    | zero => exact .cons kind rest
    | succ j => exact .cons first (ih j)

theorem note_mono {x y : Option (Slot × StackKind)} (below : Forall₂ (· ≤ ·) inputs inputs')
    (kind : Option.Rel (fun x y => x.1 = y.1 ∧ x.2 ≤ y.2) x y) :
    Forall₂ (· ≤ ·) (KindCx.note inputs x) (KindCx.note inputs' y) := by
  cases kind with
  | none => exact below
  | @some x y kind =>
    obtain ⟨dst, kind'⟩ := x
    obtain ⟨rfl, kind⟩ : dst = y.1 ∧ kind' ≤ y.2 := kind
    obtain ⟨dst, kind''⟩ := y
    cases dst with
    | output j => exact set_mono below j kind
    | _ => exact below

/-- The less is known of the operands, the less is known of the results. -/
theorem outKinds_mono (below : Forall₂ (· ≤ ·) inputs inputs') :
    Forall₂ (· ≤ ·) (cx.outKinds flow inputs) (cx.outKinds flow inputs') := by
  have noted : ∀ (effects : List (Effect Slot)) (kinds kinds' : List StackKind), Forall₂ (· ≤ ·) kinds kinds' →
      Forall₂ (· ≤ ·) (effects.foldl (fun kinds e => KindCx.note kinds (cx.effectKind flow inputs e)) kinds)
        (effects.foldl (fun kinds e => KindCx.note kinds (cx.effectKind flow inputs' e)) kinds') := by
    intro effects
    induction effects with
    | nil => exact fun _ _ kinds => kinds
    | cons e effects ih => exact fun _ _ kinds => ih _ _ (note_mono kinds (effectKind_mono below e))
  exact noted flow.effects _ _ (List.forall₂_refl _)

end Monotone

end Ctadl.Cil
