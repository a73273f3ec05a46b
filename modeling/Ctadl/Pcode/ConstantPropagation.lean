import Ctadl.Datalog.Settling

/-! # Constant propagation over Pcode

Each varnode `x` maps to `option(y) + c`: it is `y` plus the constant `c`, or `c`. The analysis is a Datalog program with
one lattice column: starting values for constants, stack addresses and what the function does not write, and a rule for each
kind of operation it models. A varnode without a row is one nothing is known of, and the rules fire on rows only.
-/

namespace Ctadl.Pcode

open Datalog

abbrev PcodeVarnode := String

inductive SymbolicProp
  | bottom
  | value (base : Option PcodeVarnode) (offset : Int64)
  | top
deriving DecidableEq, Repr

namespace SymbolicProp

def join : SymbolicProp → SymbolicProp → SymbolicProp
  | bottom, x => x
  | x, bottom => x
  | top, _ => top
  | _, top => top
  | value v1 o1, value v2 o2 => if v1 = v2 ∧ o1 = o2 then value v1 o1 else top

def meet : SymbolicProp → SymbolicProp → SymbolicProp
  | top, x => x
  | x, top => x
  | bottom, _ => bottom
  | _, bottom => bottom
  | value v1 o1, value v2 o2 => if v1 = v2 ∧ o1 = o2 then value v1 o1 else bottom

def add : SymbolicProp → SymbolicProp → SymbolicProp
  | top, _ => top
  | _, top => top
  | bottom, _ => bottom
  | _, bottom => bottom
  | value v1 o1, value v2 o2 =>
    if v1 = none then value v2 (o1 + o2)
    else if v2 = none then value v1 (o1 + o2)
    else top

def sub : SymbolicProp → SymbolicProp → SymbolicProp
  | top, _ => top
  | _, top => top
  | bottom, _ => bottom
  | _, bottom => bottom
  | value v1 o1, value v2 o2 =>
    if v2 = none then value v1 (o1 - o2)
    else if v1 = v2 then value none (o1 - o2)
    else top

def ptradd : SymbolicProp → SymbolicProp → Int64 → SymbolicProp
  | top, _, _ => top
  | _, top, _ => top
  | bottom, _, _ => bottom
  | _, bottom, _ => bottom
  | value v1 o1, value v2 o2, size => if v2 = none then value v1 (o1 + o2 * size) else top

theorem join_comm (p q : SymbolicProp) : p.join q = q.join p := by
  cases p <;> cases q <;> grind [join]

theorem join_assoc (p q r : SymbolicProp) : (p.join q).join r = p.join (q.join r) := by
  cases p <;> cases q <;> cases r <;> grind [join]

theorem meet_comm (p q : SymbolicProp) : p.meet q = q.meet p := by
  cases p <;> cases q <;> grind [meet]

theorem meet_assoc (p q r : SymbolicProp) : (p.meet q).meet r = p.meet (q.meet r) := by
  cases p <;> cases q <;> cases r <;> grind [meet]

theorem join_meet (p q : SymbolicProp) : p.join (p.meet q) = p := by
  cases p <;> cases q <;> grind [join, meet]

theorem meet_join (p q : SymbolicProp) : p.meet (p.join q) = p := by
  cases p <;> cases q <;> grind [join, meet]

instance : Lattice SymbolicProp :=
  letI : Max SymbolicProp := ⟨join⟩
  letI : Min SymbolicProp := ⟨meet⟩
  Lattice.mk' join_comm join_assoc meet_comm meet_assoc join_meet meet_join

theorem le_iff {p q : SymbolicProp} : p ≤ q ↔ p.join q = q := Iff.rfl

instance : DecidableLE SymbolicProp := fun p q => inferInstanceAs (Decidable (p.join q = q))

instance : BoundedOrder SymbolicProp where
  top := top
  le_top p := by cases p <;> rfl
  bot := bottom
  bot_le p := by cases p <;> rfl

/-- Bottom, the values side by side, top. -/
def rank : SymbolicProp → ℕ
  | bottom => 0
  | value _ _ => 1
  | top => 2

theorem le_cases {p q : SymbolicProp} (below : p ≤ q) : p = bottom ∨ p = q ∨ q = top := by
  rw [le_iff] at below
  cases p <;> cases q <;> grind [join]

theorem rank_lt {p q : SymbolicProp} (below : p < q) : p.rank < q.rank := by
  have apart := below.ne
  rcases le_cases below.le with rfl | rfl | rfl
  · cases q with
    | bottom => exact absurd rfl apart
    | value base offset => exact Nat.one_pos
    | top => exact Nat.two_pos
  · exact absurd rfl apart
  · cases p with
    | bottom => exact Nat.two_pos
    | value base offset => exact Nat.one_lt_two
    | top => exact absurd rfl apart

theorem add_mono {p p' q q' : SymbolicProp} (left : p ≤ p') (right : q ≤ q') : p.add q ≤ p'.add q' := by
  rw [le_iff] at *
  cases p <;> cases p' <;> cases q <;> cases q' <;> grind [join, add]

theorem sub_mono {p p' q q' : SymbolicProp} (left : p ≤ p') (right : q ≤ q') : p.sub q ≤ p'.sub q' := by
  rw [le_iff] at *
  cases p <;> cases p' <;> cases q <;> cases q' <;> grind [join, sub]

theorem ptradd_mono {p p' q q' : SymbolicProp} {size : Int64} (left : p ≤ p') (right : q ≤ q') :
    p.ptradd q size ≤ p'.ptradd q' size := by
  rw [le_iff] at *
  cases p <;> cases p' <;> cases q <;> cases q' <;> grind [join, ptradd]

end SymbolicProp

/-! ## The facts of a function -/

structure VnodeData where
  space : Option String := none
  address : Option Int64 := none
  constantOffset : Option Int64 := none
deriving DecidableEq, Repr

structure RegisterData where
  offset : Int64
  isStackPointer : Bool
deriving DecidableEq, Repr

structure PcodeData where
  mnemonic : String
  inputs : List PcodeVarnode
  outputs : List PcodeVarnode
deriving DecidableEq, Repr

structure PcodeFacts where
  registerFacts : List RegisterData
  vnodeFacts : List (PcodeVarnode × VnodeData)
  pcodeFacts : List PcodeData
  /-- The varnodes are a map's keys. -/
  unique : (vnodeFacts.map Prod.fst).Nodup

namespace PcodeFacts

variable (facts : PcodeFacts)

def definedVars : List PcodeVarnode := facts.pcodeFacts.flatMap PcodeData.outputs

def spOffsets : List Int64 := (facts.registerFacts.filter RegisterData.isStackPointer).map RegisterData.offset

end PcodeFacts

def stackTopVn : PcodeVarnode := "__stack_top"

/-- The constant of a varnode in the constant or the stack space. -/
def VnodeData.constant? (data : VnodeData) : Option Int64 :=
  match data.constantOffset with
  | some offset => some offset
  | none => data.address

/-- The value a varnode starts with. -/
def startingValue (facts : PcodeFacts) (vnode : PcodeVarnode) (data : VnodeData) : Option SymbolicProp :=
  if data.space = some "const" then data.constant?.map (.value none ·)
  else if data.space = some "stack" then data.constant?.map (.value (some stackTopVn) ·)
  else if vnode ∈ facts.definedVars then none
  else if data.space = some "register" ∧ ∃ addr ∈ data.address, addr ∈ facts.spOffsets then
    some (.value (some stackTopVn) 0)
  else some (.value (some vnode) 0)

def initialValue (facts : PcodeFacts) : List (PcodeVarnode × SymbolicProp) :=
  (stackTopVn, .value (some stackTopVn) 0) ::
    facts.vnodeFacts.filterMap fun (vnode, data) => (startingValue facts vnode data).map (vnode, ·)

/-- The rows of the relations the rules read operations from. -/
inductive OpRow
  | copyOp (out inp : PcodeVarnode)
  | addOp (out in1 in2 : PcodeVarnode)
  | subOp (out in1 in2 : PcodeVarnode)
  | ptraddOp (out base index : PcodeVarnode) (size : Int64)
  | ptrsubOp (out base offset : PcodeVarnode)
deriving DecidableEq, Repr

def copyMnemonics : List String := ["COPY", "CAST", "TRUNC", "INT_SEXT", "INT_ZEXT"]

def choiceMnemonics : List String := ["MULTIEQUAL", "INDIRECT"]

def opRows (facts : PcodeFacts) (pcode : PcodeData) : List OpRow :=
  match pcode.outputs with
  | [] => []
  | out :: _ =>
    if pcode.mnemonic ∈ copyMnemonics ∨ pcode.mnemonic ∈ choiceMnemonics then pcode.inputs.map (.copyOp out)
    else if pcode.mnemonic = "INT_ADD" then
      match pcode.inputs with
      | in1 :: in2 :: _ => [.addOp out in1 in2]
      | _ => []
    else if pcode.mnemonic = "INT_SUB" then
      match pcode.inputs with
      | in1 :: in2 :: _ => [.subOp out in1 in2]
      | _ => []
    else if pcode.mnemonic = "PTRADD" then
      match pcode.inputs with
      | base :: index :: size :: _ =>
        match (facts.vnodeFacts.lookup size).bind VnodeData.address with
        | some addr => [.ptraddOp out base index addr]
        | none => []
      | _ => []
    else if pcode.mnemonic = "PTRSUB" then
      match pcode.inputs with
      | base :: offset :: _ => [.ptrsubOp out base offset]
      | _ => []
    else []

namespace OpRow

def out : OpRow → PcodeVarnode
  | copyOp out _ | addOp out _ _ | subOp out _ _ | ptraddOp out _ _ _ | ptrsubOp out _ _ => out

/-- What the rule for the row concludes of its output. -/
def derive (rows : Store PcodeVarnode SymbolicProp) : OpRow → WithBot SymbolicProp
  | copyOp _ inp => rows inp
  | addOp _ in1 in2 => WithBot.map₂ SymbolicProp.add (rows in1) (rows in2)
  | subOp _ in1 in2 => WithBot.map₂ SymbolicProp.sub (rows in1) (rows in2)
  | ptraddOp _ base index size => WithBot.map₂ (fun p q => SymbolicProp.ptradd p q size) (rows base) (rows index)
  | ptrsubOp _ base offset => WithBot.map₂ SymbolicProp.add (rows base) (rows offset)

end OpRow

def fire (facts : PcodeFacts) (rows : Store PcodeVarnode SymbolicProp) : List (PcodeVarnode × SymbolicProp) :=
  initialValue facts ++ (facts.pcodeFacts.flatMap (opRows facts)).flatMap fun row =>
    match row.derive rows with
    | ⊥ => []
    | (value : SymbolicProp) => [(row.out, value)]

section Firing

variable {facts : PcodeFacts} {rows : Store PcodeVarnode SymbolicProp} {out : PcodeVarnode} {p : SymbolicProp}

theorem mem_fire : (out, p) ∈ fire facts rows ↔ (out, p) ∈ initialValue facts ∨
    ∃ pcode ∈ facts.pcodeFacts, ∃ row ∈ opRows facts pcode, row.out = out ∧ row.derive rows = p := by
  rw [fire, List.mem_append, List.mem_flatMap]
  apply or_congr Iff.rfl
  constructor
  · rintro ⟨row, member, here⟩
    obtain ⟨pcode, op, member⟩ := List.mem_flatMap.mp member
    split at here
    · exact nomatch here
    · rename_i value derived
      obtain ⟨rfl, rfl⟩ := Prod.mk.inj (List.mem_singleton.mp here)
      exact ⟨pcode, op, row, member, rfl, derived⟩
  · rintro ⟨pcode, op, row, member, rfl, derived⟩
    refine ⟨row, List.mem_flatMap.mpr ⟨pcode, op, member⟩, ?_⟩
    rw [derived]
    exact List.mem_singleton_self _

end Firing

/-- The rules, which settle: a varnode's value rises at most twice. -/
def constantPropagationProgram (facts : PcodeFacts) : SettlingRules PcodeVarnode SymbolicProp where
  fire := fire facts
  rows := (initialValue facts).map Prod.fst ++ (facts.pcodeFacts.flatMap (opRows facts)).map OpRow.out
  bounded := by
    rintro rows ⟨out, p⟩ fires
    rw [List.mem_append]
    rcases mem_fire.mp fires with initial | ⟨pcode, op, row, member, rfl, -⟩
    · exact .inl (List.mem_map_of_mem initial)
    · exact .inr (List.mem_map_of_mem (List.mem_flatMap.mpr ⟨pcode, op, member⟩))
  rank := SymbolicProp.rank
  height := 2
  rank_lt := SymbolicProp.rank_lt
  rank_le p := by cases p <;> simp [SymbolicProp.rank]

def computeConstantPropagation (facts : PcodeFacts) : Store PcodeVarnode SymbolicProp := (constantPropagationProgram facts).model

section Result

variable {facts : PcodeFacts} {rows more : Store PcodeVarnode SymbolicProp}

/-- Rules conclude no less from higher rows. -/
theorem OpRow.derive_mono (row : OpRow) (below : rows ≤ more) : row.derive rows ≤ row.derive more := by
  have map₂_mono {f : SymbolicProp → SymbolicProp → SymbolicProp} (a b : PcodeVarnode)
      (mono : ∀ {p p' q q'}, p ≤ p' → q ≤ q' → f p q ≤ f p' q') :
      WithBot.map₂ f (rows a) (rows b) ≤ WithBot.map₂ f (more a) (more b) := by
    have belowA := below a
    have belowB := below b
    cases first : rows a with
    | bot => simp
    | coe p =>
      cases second : rows b with
      | bot => simp
      | coe q =>
        rw [first] at belowA
        rw [second] at belowB
        obtain ⟨p', raised, le⟩ := WithBot.coe_le_iff.mp belowA
        obtain ⟨q', raised', le'⟩ := WithBot.coe_le_iff.mp belowB
        rw [raised, raised', WithBot.map₂_coe_coe, WithBot.map₂_coe_coe, WithBot.coe_le_coe]
        exact mono le le'
  cases row with
  | copyOp out inp => exact below inp
  | addOp out in1 in2 => exact map₂_mono in1 in2 SymbolicProp.add_mono
  | subOp out in1 in2 => exact map₂_mono in1 in2 SymbolicProp.sub_mono
  | ptraddOp out base index size => exact map₂_mono base index SymbolicProp.ptradd_mono
  | ptrsubOp out base offset => exact map₂_mono base offset SymbolicProp.add_mono

/-- However the rules are fired, they come to rest in the same rows. -/
theorem rests_iff_eq_computeConstantPropagation : Run (constantPropagationProgram facts).rules (fun _ => ⊥) rows ∧
    Saturated (constantPropagationProgram facts).rules rows ↔ rows = computeConstantPropagation facts := by
  constructor
  · rintro ⟨run, rests⟩
    apply (constantPropagationProgram facts).eq_model _ run rests
    intro s t out p below fires
    rcases mem_fire.mp fires with initial | ⟨pcode, op, row, member, rfl, derived⟩
    · exact ⟨p, mem_fire.mpr (.inl initial), le_rfl⟩
    · have raised := row.derive_mono below
      rw [derived] at raised
      obtain ⟨q, derived', le⟩ := WithBot.coe_le_iff.mp raised
      exact ⟨q, mem_fire.mpr (.inr ⟨pcode, op, row, member, rfl, derived'⟩), le⟩
  · rintro rfl
    exact ⟨(constantPropagationProgram facts).model_run, (constantPropagationProgram facts).model_saturated⟩

/-- A starting value is below its varnode's row. -/
theorem starting_le {v : PcodeVarnode} {p : SymbolicProp} (initial : (v, p) ∈ initialValue facts) :
    (p : WithBot SymbolicProp) ≤ computeConstantPropagation facts v :=
  (constantPropagationProgram facts).model_saturated v p (mem_fire.mpr (.inl initial))

/-- What an operation's rule concludes is below its output's row. -/
theorem derived_le {pcode : PcodeData} {row : OpRow} (op : pcode ∈ facts.pcodeFacts) (member : row ∈ opRows facts pcode) :
    row.derive (computeConstantPropagation facts) ≤ computeConstantPropagation facts row.out := by
  cases derived : row.derive (computeConstantPropagation facts) with
  | bot => exact bot_le
  | coe p =>
    exact (constantPropagationProgram facts).model_saturated row.out p (mem_fire.mpr (.inr ⟨pcode, op, row, member, rfl, derived⟩))

end Result

end Ctadl.Pcode
