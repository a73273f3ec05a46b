import Ctadl.Dex.Lowering
import Ctadl.Jvm.Instructions
import Mathlib.Logic.Equiv.List

/-! # Reading before writing

The frontends of Java emit the statements of an instruction one after another, where the instruction reads all its
operands before it writes. An instruction is lowered to its effect exactly if it is kept: a load of two slots or
registers must not start with its own object, a store of two JVM slots stores the top one only, `sastore` has no
arm, `multianewarray` copies its dimensions, and `filled-new-array` is not lowered.
-/

namespace Ctadl.Moves

open Cir

/-- An instruction of a JVM method, other than a call, does `o`, and becomes `stmts` on a stack of some height. -/
inductive JvmLowers (names : Jvm.FrontendNames) (params : Jvm.ParameterSlotMap) (stackLen : ℕ) :
    Jvm.Operation → List Statement → Prop where
  | instruction {code : List UInt8} {pc : ℕ} {cf : Jvm.ResolvedPool} {context : Jvm.InstructionContext}
      {inst : Jvm.InstructionFlowInfo} {dfs : List Jvm.DataflowInfo} {o : Jvm.Operation} {stmts : List Statement}
      (acts : Jvm.operation code pc cf = some o) (decodes : Jvm.decodeFlowInstruction code pc cf params = .ok inst)
      (noCall : inst.kind ≠ .call) (simulates : Jvm.simulateDataflow context stackLen inst = .ok dfs)
      (lowers : names.instructionStatements inst.opcode dfs = some stmts) : JvmLowers names params stackLen o stmts

/-- An instruction of a dex method does `o`, and becomes `stmts` in some context. -/
inductive DexLowers (method : Dex.MethodContext) (ctx : Dex.Context) (pc : ℕ) (inst : Dex.Operands) :
    Dex.Operation → List Statement → Prop where
  | instruction {ctx' : Dex.Context} {o : Dex.Operation} {stmts : List Statement}
      (acts : method.operation pc inst = some o) (lowers : method.dataflowToAssign ctx pc inst = some (stmts, ctx')) :
      DexLowers method ctx pc inst o stmts

/-- The statements of every instruction of both frontends, in order, have its effect exactly if it is kept. -/
theorem lowers_correct_iff (names : Jvm.FrontendNames) (params : Jvm.ParameterSlotMap) (stackLen : ℕ)
    (method : Dex.MethodContext) (ctx : Dex.Context) (pc : ℕ) :
    (∀ o stmts, JvmLowers names params stackLen o stmts →
        (Correct names.clean names.temps stmts (names.effect params stackLen o) ↔ o.Kept)) ∧
      ∀ inst o stmts, DexLowers method ctx pc inst o stmts →
        (Correct ∅ method.temps stmts (method.effect o) ↔ method.Kept ctx pc inst) := by
  constructor
  · rintro o stmts ⟨acts, decodes, noCall, simulates, lowers⟩
    exact Jvm.FrontendNames.correct_iff_kept acts decodes noCall simulates lowers
  · rintro inst o stmts ⟨acts, lowers⟩
    obtain ⟨o', acts', correct⟩ := Dex.MethodContext.settled method ctx pc inst _ _ lowers
    obtain rfl := Option.some.inj (acts.symm.trans acts')
    exact correct

/-- Names in some order. -/
def someNames : NameTable where
  index name := Encodable.encode (name.toList.map Char.toNat)
  index_injective _ _ same :=
    String.toList_injective (List.map_injective_iff.mpr (fun _ _ char => Char.toNat_inj.mp char)
      (Encodable.encode_injective same))

def someFrontendNames : Jvm.FrontendNames := ⟨someNames, someNames⟩

/-- A constant pool without entries. -/
def noPool : Jvm.ResolvedPool where
  constant _ := .error (.invalidClassFile "no entry")
  fieldRef _ := .error (.invalidClassFile "no entry")
  className _ := .error (.invalidClassFile "no entry")

/-- `sastore` on three operands copies the value to the slot of the array. -/
theorem shortStore_lowers :
    JvmLowers someFrontendNames ⟨[]⟩ 3 (.arrayStore 7)
      [assign (someFrontendNames.slot 0) [pathOf (someFrontendNames.slot 2)]] :=
  @JvmLowers.instruction _ _ _ [0x56] 0 noPool ⟨"A", "f", "([SIS)V", 0, 0x56, "sastore"⟩ _ _ _ _ rfl rfl
    (by decide) rfl rfl

/-- A value copied over an array reaches no element. -/
theorem not_correct_shortStore :
    ¬ ∀ (names : Jvm.FrontendNames) (params : Jvm.ParameterSlotMap) (stackLen : ℕ) (o : Jvm.Operation)
      (stmts : List Statement), JvmLowers names params stackLen o stmts →
        Correct names.clean names.temps stmts (names.effect params stackLen o) := by
  intro correct
  have copied := correct someFrontendNames ⟨[]⟩ 3 _ _ shortStore_lowers
  obtain ⟨acts, decodes, noCall, simulates, lowers⟩ := shortStore_lowers
  have kept := (Jvm.FrontendNames.correct_iff_kept acts decodes noCall simulates lowers).mp copied
  exact kept.2 rfl

/-- A dex method with three registers, whose file has no entries. -/
def someMethod : Dex.MethodContext where
  parser := ⟨fun _ => none, fun _ => none, fun _ => none, fun _ => none, fun _ => none⟩
  code := ⟨3, 0⟩
  locals := someNames
  globals := someNames
  retag _ := none

/-- `aget-wide v0, v0, v2` overwrites its array between its loads, and `aget-wide v0, v1, v2` after them. -/
theorem lowers_correct_iff_wideLoads :
    ¬ Correct ∅ someMethod.temps
        [load (someMethod.reg 0) (someMethod.reg 0) (.field "[]"), load (someMethod.reg 1) (someMethod.reg 0) (.field "[]")]
        (someMethod.effect (.load [0, 1] 0 (.field "[]"))) ∧
      Correct ∅ someMethod.temps
        [load (someMethod.reg 0) (someMethod.reg 1) (.field "[]"), load (someMethod.reg 1) (someMethod.reg 1) (.field "[]")]
        (someMethod.effect (.load [0, 1] 1 (.field "[]"))) := by
  have lowered := (lowers_correct_iff someFrontendNames ⟨[]⟩ 0 someMethod ⟨0, none, none⟩ 0).2
  constructor
  · intro correct
    have kept := (lowered { opcode := 0x45, a := 0, b := 0, c := 2 } _ _ (.instruction rfl rfl)).mp correct
    exact kept.wide (by simp) rfl
  · apply (lowered { opcode := 0x45, a := 0, b := 1, c := 2 } _ _ (.instruction rfl rfl)).mpr
    constructor <;> simp [Dex.isMoveResult]

end Ctadl.Moves
