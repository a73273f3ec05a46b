import Ctadl.Cir.Program
import Mathlib.Algebra.GroupWithZero.Nat

/-! # Method descriptors and parameter slots

Three numberings of a method's parameters meet at a call: operand-stack slots at the caller, local-variable
slots in the callee, and ordinals in the lowered program. A long or double takes two slots and one ordinal, so
`ParameterSlotMap` is the identity exactly when no parameter is wide (`slotOrdinals_eq_iff`).

Bytes above the ASCII range match no token of a descriptor, so the scan reads characters.
-/

namespace Ctadl.Jvm

open Cir

inductive MethodParameterKind where
  | primitive
  | reference
deriving DecidableEq, Repr

/-- One declared parameter; a long or double takes two local slots. -/
structure MethodParameterInfo where
  kind : MethodParameterKind
  slotWidth : ℕ
  one_or_two : slotWidth = 1 ∨ slotWidth = 2
deriving DecidableEq, Repr

namespace MethodParameterInfo

def narrow : MethodParameterInfo := ⟨.primitive, 1, .inl rfl⟩
def wide : MethodParameterInfo := ⟨.primitive, 2, .inr rfl⟩
def object : MethodParameterInfo := ⟨.reference, 1, .inl rfl⟩

end MethodParameterInfo

/-- Where the scan of a descriptor stands: at a token, inside a class name, or behind the `[` of an array. -/
inductive Scan where
  | token
  | className
  | array
deriving DecidableEq, Repr

/-- The parameters up to the closing parenthesis; a malformed token is skipped. -/
def scanParameters : Scan → List Char → List MethodParameterInfo
  | _, [] => []
  | .token, c :: rest =>
    if c = ')' then []
    else if c ∈ ['J', 'D'] then .wide :: scanParameters .token rest
    else if c ∈ ['B', 'C', 'F', 'I', 'S', 'Z'] then .narrow :: scanParameters .token rest
    else if c = 'L' then .object :: scanParameters .className rest
    else if c = '[' then .object :: scanParameters .array rest
    else scanParameters .token rest
  | .className, c :: rest => scanParameters (if c = ';' then .token else .className) rest
  | .array, c :: rest =>
    -- the element type belongs to the array parameter
    scanParameters (if c = '[' then .array else if c = 'L' then .className else .token) rest

/-- One entry per parameter in declaration order. -/
def descriptorParameterInfo (descriptor : String) : List MethodParameterInfo :=
  match descriptor.toList with
  | '(' :: rest => scanParameters .token rest
  | _ => []

/-- What follows the last closing parenthesis. -/
def descriptorReturn (descriptor : String) : Option (List Char) :=
  if ')' ∈ descriptor.toList then some (descriptor.toList.reverse.takeWhile (· ≠ ')')).reverse else none

def descriptorReturnsValue (descriptor : String) : Bool :=
  match descriptorReturn descriptor with
  | some ret => ret ≠ ['V']
  | none => false

/-- The operand stack slots of the return value. -/
def descriptorReturnSlotCount (descriptor : String) : ℕ :=
  match descriptorReturn descriptor with
  | some ['V'] => 0
  | some ('J' :: _) | some ('D' :: _) => 2
  | some _ => 1
  | none => 0

/-- The local slots the parameters occupy. -/
def descriptorParamSlotCount (descriptor : String) : ℕ :=
  ((descriptorParameterInfo descriptor).map (·.slotWidth)).sum

/-- A local-variable slot to the ordinal of the parameter that occupies it. -/
structure ParameterSlotMap where
  slotToOrdinal : List ℕ
deriving DecidableEq, Repr

/-- The ordinals of the slots of some parameters, the first having the given ordinal. -/
def slotOrdinals : ℕ → List MethodParameterInfo → List ℕ
  | _, [] => []
  | ordinal, p :: rest => List.replicate p.slotWidth ordinal ++ slotOrdinals (ordinal + 1) rest

namespace ParameterSlotMap

/-- An instance method receives `this` in slot 0. -/
def forMethod (descriptor : String) (isInstance : Bool) : ParameterSlotMap where
  slotToOrdinal :=
    if isInstance then 0 :: slotOrdinals 1 (descriptorParameterInfo descriptor)
    else slotOrdinals 0 (descriptorParameterInfo descriptor)

def slotCount (params : ParameterSlotMap) : ℕ := params.slotToOrdinal.length

def ordinalForSlot (params : ParameterSlotMap) (slot : ℕ) : Option ℕ := params.slotToOrdinal[slot]?

end ParameterSlotMap

/-- The parameter list the lowered program declares. -/
def jvmDescriptorToParams (descriptor : String) (isInstance : Bool) : List ParameterType :=
  (if isInstance then [.shared] else []) ++ (descriptorParameterInfo descriptor).map fun p =>
    match p.kind with
    | .primitive => .sharedFields
    | .reference => .shared

/-- The declared parameters with the receiver in front. -/
def allParameters (descriptor : String) (isInstance : Bool) : List MethodParameterInfo :=
  if isInstance then .object :: descriptorParameterInfo descriptor else descriptorParameterInfo descriptor

theorem forMethod_eq {descriptor : String} {isInstance : Bool} :
    ParameterSlotMap.forMethod descriptor isInstance = ⟨slotOrdinals 0 (allParameters descriptor isInstance)⟩ := by
  cases isInstance <;> rfl

theorem jvmDescriptorToParams_length {descriptor : String} {isInstance : Bool} :
    (jvmDescriptorToParams descriptor isInstance).length = (allParameters descriptor isInstance).length := by
  cases isInstance
  · simp [jvmDescriptorToParams, allParameters]
  · simp [jvmDescriptorToParams, allParameters, Nat.add_comm]

theorem slotOrdinals_length (ordinal : ℕ) {params : List MethodParameterInfo} :
    (slotOrdinals ordinal params).length = (params.map (·.slotWidth)).sum := by
  induction params generalizing ordinal with
  | nil => rfl
  | cons p rest ih => simp [slotOrdinals, ih]

theorem slotOrdinals_lt {ordinal slot o : ℕ} {params : List MethodParameterInfo}
    (at_slot : (slotOrdinals ordinal params)[slot]? = some o) : ordinal ≤ o ∧ o < ordinal + params.length := by
  induction params generalizing ordinal slot with
  | nil => simp [slotOrdinals] at at_slot
  | cons p rest ih =>
    rw [slotOrdinals, List.getElem?_append] at at_slot
    split_ifs at at_slot with first
    · obtain rfl : o = ordinal := by
        simpa [List.getElem?_replicate, List.length_replicate ▸ first, eq_comm] using at_slot
      simp
    · have later := ih at_slot
      simp only [List.length_cons]
      omega

/-- A parameter of one slot shifts the map by one. -/
private theorem slotOrdinals_narrow {ordinal : ℕ} {p : MethodParameterInfo} {rest : List MethodParameterInfo}
    (width : p.slotWidth = 1) : slotOrdinals ordinal (p :: rest) = ordinal :: slotOrdinals (ordinal + 1) rest := by
  simp [slotOrdinals, width]

/-- The slots are numbered like the ordinals as far as a bound. -/
def AgreeTo (bound ordinal : ℕ) (params : List MethodParameterInfo) : Prop :=
  ∀ slot < bound, (slotOrdinals ordinal params)[slot]? = some (ordinal + slot)

private theorem agreeTo_succ_narrow {bound ordinal : ℕ} {p : MethodParameterInfo} {rest : List MethodParameterInfo}
    (width : p.slotWidth = 1) : AgreeTo (bound + 1) ordinal (p :: rest) ↔ AgreeTo bound (ordinal + 1) rest := by
  constructor
  · intro agree slot below
    have at_next := agree (slot + 1) (by omega)
    rw [slotOrdinals_narrow width, List.getElem?_cons_succ] at at_next
    rw [at_next, Nat.add_right_comm, Nat.add_assoc]
  · intro agree slot below
    rw [slotOrdinals_narrow width]
    cases slot with
    | zero => rfl
    | succ slot =>
      rw [List.getElem?_cons_succ, agree slot (by omega), Nat.add_right_comm, Nat.add_assoc]

private theorem width_of_agreeTo {bound ordinal : ℕ} {p : MethodParameterInfo} {rest : List MethodParameterInfo}
    (two : 2 ≤ bound) (agree : AgreeTo bound ordinal (p :: rest)) : p.slotWidth = 1 := by
  rcases p.one_or_two with width | width
  · exact width
  · have second := agree 1 (by omega)
    simp [slotOrdinals, width, List.replicate] at second

/-- Every slot is numbered like an ordinal exactly when no parameter is wide. -/
theorem agreeTo_slots_iff (ordinal : ℕ) {params : List MethodParameterInfo} :
    AgreeTo (params.map (·.slotWidth)).sum ordinal params ↔ ∀ p ∈ params, p.slotWidth = 1 := by
  induction params generalizing ordinal with
  | nil => simp [AgreeTo]
  | cons p rest ih =>
    rw [List.forall_mem_cons, ← ih (ordinal + 1), List.map_cons, List.sum_cons]
    constructor
    · intro agree
      have width : p.slotWidth = 1 := by
        rcases p.one_or_two with width | width
        · exact width
        · exact width_of_agreeTo (by omega) agree
      rw [width, Nat.add_comm, agreeTo_succ_narrow width] at agree
      exact ⟨width, agree⟩
    · rintro ⟨width, agree⟩
      rw [width, Nat.add_comm, agreeTo_succ_narrow width]
      exact agree

/-- The slots below the parameter count are numbered like ordinals exactly when only the last is wide. -/
theorem agreeTo_ordinals_iff (ordinal : ℕ) {params : List MethodParameterInfo} :
    AgreeTo params.length ordinal params ↔ ∀ p ∈ params.dropLast, p.slotWidth = 1 := by
  induction params generalizing ordinal with
  | nil => simp [AgreeTo]
  | cons p rest ih =>
    cases rest with
    | nil =>
      -- a single parameter starts at slot 0
      rcases p.one_or_two with width | width <;> simp [AgreeTo, slotOrdinals, width, List.replicate]
    | cons q rest =>
      rw [List.dropLast_cons_cons, List.forall_mem_cons, ← ih (ordinal + 1), List.length_cons]
      constructor
      · intro agree
        have width := width_of_agreeTo (by simp) agree
        exact ⟨width, (agreeTo_succ_narrow width).mp agree⟩
      · rintro ⟨width, agree⟩
        exact (agreeTo_succ_narrow width).mpr agree

end Ctadl.Jvm
