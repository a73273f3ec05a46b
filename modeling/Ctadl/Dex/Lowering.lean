import Ctadl.Dex.Meaning
import Mathlib.Tactic.IntervalCases

/-! # When a dex instruction is lowered to its effect

Every family of instructions is lowered to moves with the effect of the instruction, but for a wide load onto its
own object or array, `filled-new-array`, which is lowered to nothing, a result or an exception taken from a
variable of another method, and constants that cannot be read.
-/

namespace Ctadl.Dex

open Cir Moves

namespace MethodContext

variable (method : MethodContext)

/-- The instructions that are lowered to their effect. -/
@[mk_iff]
structure Kept (ctx : Context) (pc : ℕ) (inst : Operands) : Prop where
  /-- `filled-new-array` is not lowered. -/
  array : inst.opcode ∉ [0x24, 0x25]
  /-- `aget-wide` and `iget-wide` load twice from the register of the object. -/
  wide : inst.opcode ∈ [0x45, 0x53] → inst.a ≠ inst.b
  /-- The pending result is one of this method. -/
  result : isMoveResult inst.opcode = true → ctx.callResult.getD method.ret = method.ret
  exception : inst.opcode = 0x0d → ctx.catchResult.getD method.except = method.except
  /-- Strings and classes can be read. -/
  string : inst.opcode ∈ [0x1a, 0x1b] → (method.parser.string inst.idx).isSome
  cls : inst.opcode ∈ [0x1c, 0x23] → (method.parser.typeDescriptor inst.idx).isSome
  new : inst.opcode = 0x22 → (method.retag pc).isSome ∨ (method.parser.typeDescriptor inst.idx).isSome

/-- The lowering of an instruction has the effect of the instruction exactly if it is kept. -/
def Settled (ctx : Context) (pc : ℕ) (inst : Operands) : Prop :=
  ∀ stmts ctx', method.dataflowToAssign ctx pc inst = some (stmts, ctx') →
    ∃ o, method.operation pc inst = some o ∧
      (Correct ∅ method.temps stmts (method.effect o) ↔ method.Kept ctx pc inst)

variable {method}

/-! ## Statements with the effect of an operation -/

theorem correct_copy (valueOnly : Bool) (dest source : List ℕ) :
    Correct ∅ method.temps
      (dest.map fun d => assign (method.reg d)
        (source.map fun s => (if valueOnly then valueOf else pathOf) (method.reg s)))
      (method.effect (.copy dest source)) :=
  correct_same (fun v => acts_operands v valueOnly source method.reg) (by simp)

/-- A wide load onto its own object. -/
theorem not_correct_wideLoad (a : ℕ) (f : PathSegment) :
    ¬ Correct ∅ method.temps ([a, a + 1].map fun d => load (method.reg d) (method.reg a) f)
      ([a, a + 1].map fun d => ⟨.var (method.reg d), [.field (method.reg a) f]⟩) :=
  not_correct_load (reg_notMem_temps _)

theorem correct_storeThrough (ctx : Context) (value : List ℕ) {w : Variable} {f : PathSegment}
    (visible : w ∉ method.temps) :
    Correct ∅ method.temps (method.storeThrough ctx value w f).1
      [⟨.field w f, value.map fun r => .var (method.reg r)⟩] := by
  have acts : List.Forall₂ Acts (method.storeThrough ctx value w f).1
      [⟨.var (method.temp ctx.counter), value.map fun r => .var (method.reg r)⟩,
        ⟨.field w f, [.var (method.temp ctx.counter)]⟩] := by
    apply List.Forall₂.cons (acts_operands _ false value method.reg)
    exact List.Forall₂.cons (acts_store w f (short_pathOf _)) List.Forall₂.nil
  rw [correct_iff_realizes acts]
  intro L H m s _
  have temporary : method.temp ctx.counter ∈ method.temps := ⟨ctx.counter, rfl⟩
  exact m.run_through s temporary fun same => visible (same ▸ temporary)

/-- The result of the right call, or none. -/
theorem correct_takeResult_iff {dest : List ℕ} {v w : Variable} {d : ℕ} (listed : d ∈ dest) :
    Correct ∅ method.temps (method.takeResult dest v) (dest.map fun d => ⟨.var (method.reg d), [.var w]⟩) ↔ v = w := by
  rw [takeResult, correct_iff_realizes (acts_map fun d => acts_assign_one (method.reg d) (short_pathOf v))]
  constructor
  · intro realizes
    by_contra other
    have wrong : ¬ Realizes ∅ method.temps ((dest.map method.reg).map fun u => (⟨.var u, [.var v]⟩ : IrMove))
        ((dest.map method.reg).map fun u => ⟨.var u, [.var w]⟩) :=
      not_realizes_other other (List.mem_map_of_mem listed) (reg_notMem_temps d) (Set.notMem_empty w)
    rw [List.map_map, List.map_map] at wrong
    exact wrong realizes
  · rintro rfl
    have same : Realizes ∅ method.temps ((dest.map method.reg).map fun u => (⟨.var u, [.var v]⟩ : IrMove))
        ((dest.map method.reg).map fun u => ⟨.var u, [.var v]⟩) := realizes_same (by simp)
    rwa [List.map_map] at same

/-- What is not assigned keeps its labels. -/
theorem not_correct_nil {v : Variable} {objects : List CallObject} {rest : List IrMove} (visible : v ∉ method.temps)
    (stores : ∀ move ∈ rest, ∃ object f sources, move = ⟨.objectField object f, sources⟩) :
    ¬ Correct ∅ method.temps [] (⟨.var v, objects.map .object⟩ :: rest) := by
  rw [correct_iff_realizes List.Forall₂.nil]
  intro realizes
  have labels := realizes.env_labelled (p := fun _ => True) (by simp) visible
  have kept : ∀ (m : IrObjects Unit Unit) (s t : State Variable Unit Unit),
      ((rest.map (m.resolve s)).foldl m.put t).env v = t.env v := by
    clear labels realizes
    intro m s t
    induction rest generalizing t with
    | nil => rfl
    | cons move rest ih =>
      obtain ⟨object, f, sources, rfl⟩ := stores _ List.mem_cons_self
      exact ih (fun later inside => stores later (List.mem_cons_of_mem _ inside)) _
  simp only [Objects.parallel, List.map_cons, List.foldl_cons, kept, Objects.resolve, Objects.put,
    State.set_env_same, Objects.blank_readAll_objects, Objects.run_nil] at labels
  have inside : () ∈ (State.labelled fun _ : Variable => True).env v := trivial
  rw [labels] at inside
  exact inside

/-- The size of an array whose class cannot be read. -/
theorem not_correct_size (a b : ℕ) :
    ¬ Correct ∅ method.temps [assign (method.reg a) [pathOf (method.reg b)]] [⟨.var (method.reg a), []⟩] := by
  rw [correct_iff_realizes (List.Forall₂.cons (acts_assign_one _ (short_pathOf _)) List.Forall₂.nil)]
  intro realizes
  have labels := realizes.env_labelled (p := fun _ => True) (by simp) (reg_notMem_temps a)
  rw [Objects.parallel_singleton, Objects.run_cons, Objects.run_nil, Objects.run_cons, Objects.run_nil,
    Objects.step_var, Objects.step_var, State.set_env_same, State.set_env_same, Objects.readAll_nil] at labels
  have inside : () ∈ (Objects.blank (F := PathSegment) (O := CallObject)).readAll
      (State.labelled fun _ : Variable => True) (sourcesOf (pathOf (method.reg b))) :=
    ⟨_, List.mem_singleton_self _, trivial⟩
  rw [labels] at inside
  exact inside

/-! ## The families -/

section Families

variable {ctx : Context} {pc : ℕ} {inst : Operands}

/-- The instructions without a condition. -/
theorem kept_of_plain
    (plain : inst.opcode ∉ [0x0a, 0x0b, 0x0c, 0x0d, 0x1a, 0x1b, 0x1c, 0x22, 0x23, 0x24, 0x25, 0x45, 0x53]) :
    method.Kept ctx pc inst := by
  simp only [List.mem_cons, List.not_mem_nil, or_false, not_or] at plain
  constructor <;> intro special <;> exfalso <;> first
    | omega
    | simp only [List.mem_cons, List.not_mem_nil, or_false, isMoveResult, Bool.and_eq_true, decide_eq_true_eq] at special
      omega

theorem settled_of_correct {stmts : List Statement} {ctx' : Context} {o : Operation}
    (lowers : method.dataflowToAssign ctx pc inst = some (stmts, ctx')) (means : method.operation pc inst = some o)
    (iff : Correct ∅ method.temps stmts (method.effect o) ↔ method.Kept ctx pc inst) : method.Settled ctx pc inst := by
  intro stmts' ctx'' lowers'
  obtain ⟨rfl, rfl⟩ := Prod.mk.inj (Option.some.inj (lowers'.symm.trans lowers))
  exact ⟨o, means, iff⟩

/-- An instruction on a field the lowering refuses where its name does not resolve. -/
theorem settled_of_resolved {β : Type} {found : Option β} {lower : β → List Statement × Context} {act : β → Operation}
    (lowers : method.dataflowToAssign ctx pc inst = found.bind fun field => some (lower field))
    (means : method.operation pc inst = found.map act)
    (iff : ∀ field, found = some field →
      (Correct ∅ method.temps (lower field).1 (method.effect (act field)) ↔ method.Kept ctx pc inst)) :
    method.Settled ctx pc inst := by
  cases found with
  | none => exact fun stmts ctx' lowers' => absurd (lowers.symm.trans lowers') (Option.some_ne_none _).symm
  | some field => exact settled_of_correct lowers means (iff field rfl)

theorem settled_copy {o : Operation} (copies : copyOperation inst.opcode inst.a inst.b inst.c = some o) :
    method.Settled ctx pc inst := by
  have means : method.operation pc inst = some o := by
    simp only [operation, copies]
  obtain ⟨op, a, b, c, idx, lit, args, byte, notInvoke⟩ := inst
  have lowers : ∃ dest source,
      o = .copy dest source ∧
      method.dataflowToAssign ctx pc ⟨op, a, b, c, idx, lit, args, byte, notInvoke⟩ =
        some (dest.map fun d => assign (method.reg d)
          (source.map fun s => (if isValueOnly op then valueOf else pathOf) (method.reg s)),
          { ctx with callResult := none, catchResult := none }) ∧
      op ∉ [0x0a, 0x0b, 0x0c, 0x0d, 0x1a, 0x1b, 0x1c, 0x22, 0x23, 0x24, 0x25, 0x45, 0x53] := by
    clear means
    dsimp only at copies
    interval_cases op
    all_goals first
      | (cases copies; done)
      | (cases copies; exact ⟨_, _, rfl, rfl, by decide⟩)
  obtain ⟨dest, source, rfl, lowered, plain⟩ := lowers
  apply settled_of_correct lowered means
  exact iff_of_true (correct_copy _ dest source) (kept_of_plain plain)

theorem settled_moveResult (range : 0x0a ≤ inst.opcode ∧ inst.opcode ≤ 0x0c) : method.Settled ctx pc inst := by
  obtain ⟨op, a, b, c, idx, lit, args, byte, notInvoke⟩ := inst
  obtain ⟨low, high⟩ : 0x0a ≤ op ∧ op ≤ 0x0c := range
  have lowered : method.dataflowToAssign ctx pc ⟨op, a, b, c, idx, lit, args, byte, notInvoke⟩ =
      some (method.takeResult (regs a (accessWidth (op - 0x0a))) (ctx.callResult.getD method.ret),
        { ctx with callResult := none, catchResult := none }) := by
    interval_cases op <;> rfl
  have means : method.operation pc ⟨op, a, b, c, idx, lit, args, byte, notInvoke⟩ =
      some (.moveResult (regs a (accessWidth (op - 0x0a)))) := by
    interval_cases op <;> rfl
  have listed : a ∈ regs a (accessWidth (op - 0x0a)) := by
    interval_cases op <;> exact List.mem_cons_self
  apply settled_of_correct lowered means
  refine (correct_takeResult_iff listed).trans ?_
  rw [kept_iff]
  interval_cases op <;> simp [isMoveResult]

theorem settled_moveException (exact : inst.opcode = 0x0d) : method.Settled ctx pc inst := by
  obtain ⟨op, a, b, c, idx, lit, args, byte, notInvoke⟩ := inst
  obtain rfl : op = 0x0d := exact
  have lowered : method.dataflowToAssign ctx pc ⟨0x0d, a, b, c, idx, lit, args, byte, notInvoke⟩ =
      some (method.takeResult [a] (ctx.catchResult.getD method.except),
        { ctx with callResult := none, catchResult := none }) := rfl
  apply settled_of_correct (o := .moveException a) lowered rfl
  refine (@correct_takeResult_iff _ [a] _ _ _ List.mem_cons_self).trans ?_
  rw [kept_iff]
  simp [isMoveResult]

theorem settled_number (range : 0x12 ≤ inst.opcode ∧ inst.opcode ≤ 0x19) : method.Settled ctx pc inst := by
  obtain ⟨op, a, b, c, idx, lit, args, byte, notInvoke⟩ := inst
  obtain ⟨low, high⟩ : 0x12 ≤ op ∧ op ≤ 0x19 := range
  have lowered : ∃ number : Int64, method.dataflowToAssign ctx pc ⟨op, a, b, c, idx, lit, args, byte, notInvoke⟩ =
      some ((regs a (if op < 0x16 then 1 else 2)).map fun d => assign (method.reg d) [.int number], ctx) := by
    interval_cases op <;> exact ⟨_, rfl⟩
  have means : method.operation pc ⟨op, a, b, c, idx, lit, args, byte, notInvoke⟩ =
      some (.constant (regs a (if op < 0x16 then 1 else 2))) := by
    interval_cases op <;> rfl
  obtain ⟨number, lowered⟩ := lowered
  apply settled_of_correct lowered means
  apply iff_of_true
  · exact @correct_pathless _ _ _ _ _ (.int number) rfl
  · apply kept_of_plain
    simp only [List.mem_cons, List.not_mem_nil, or_false]
    omega

/-- A constant that is an object or a text, where its name can be read. -/
theorem settled_const {read : Option Exp} {o : Operation}
    (const : method.constExp pc inst = read) (dest : inst.dataFlow.dest = [inst.a])
    (means : method.operation pc inst = some o)
    (effect : ∀ exp, read = some exp → exp.accessPath = none ∧ method.effect o = [⟨.var (method.reg inst.a), sourcesOf exp⟩])
    (unread : read = none → ∀ stmts ctx', method.dataflowToAssign ctx pc inst = some (stmts, ctx') →
      ¬ Correct ∅ method.temps stmts (method.effect o))
    (kept : method.Kept ctx pc inst ↔ read.isSome = true) : method.Settled ctx pc inst := by
  cases read with
  | none =>
    intro stmts ctx' lowers
    refine ⟨o, means, iff_of_false (unread rfl stmts ctx' lowers) ?_⟩
    rw [kept]
    exact Bool.false_ne_true
  | some exp =>
    obtain ⟨pathless, same⟩ := effect exp rfl
    have lowered : method.dataflowToAssign ctx pc inst =
        some (inst.dataFlow.dest.map fun d => assign (method.reg d) [exp], ctx) := by
      simp only [dataflowToAssign, const]
    apply settled_of_correct lowered means
    rw [same, dest]
    exact iff_of_true (correct_pathless pathless) (kept.mpr rfl)

theorem settled_string (range : inst.opcode = 0x1a ∨ inst.opcode = 0x1b) : method.Settled ctx pc inst := by
  obtain ⟨op, a, b, c, idx, lit, args, byte, notInvoke⟩ := inst
  have const : method.constExp pc ⟨op, a, b, c, idx, lit, args, byte, notInvoke⟩ =
      (method.parser.string idx).map .str := by
    rcases range with rfl | rfl <;> rfl
  apply settled_const (o := .constant [a]) const
  · rcases range with rfl | rfl <;> rfl
  · rcases range with rfl | rfl <;> rfl
  · intro exp known
    obtain ⟨text, -, rfl⟩ := Option.map_eq_some_iff.mp known
    exact ⟨rfl, rfl⟩
  · intro missing stmts ctx' lowers
    have lowered : method.dataflowToAssign ctx pc ⟨op, a, b, c, idx, lit, args, byte, notInvoke⟩ =
        some ([], { ctx with callResult := none, catchResult := none }) := by
      rw [dataflowToAssign, const, missing]
      rcases range with rfl | rfl <;> rfl
    obtain ⟨rfl, -⟩ := Prod.mk.inj (Option.some.inj (lowers.symm.trans lowered))
    exact @not_correct_nil _ _ [] _ (reg_notMem_temps a) (by simp)
  · rw [kept_iff]
    rcases range with rfl | rfl <;> simp [isMoveResult]

theorem settled_constClass (exact : inst.opcode = 0x1c) : method.Settled ctx pc inst := by
  obtain ⟨op, a, b, c, idx, lit, args, byte, notInvoke⟩ := inst
  obtain rfl : op = 0x1c := exact
  have const : method.constExp pc ⟨0x1c, a, b, c, idx, lit, args, byte, notInvoke⟩ =
      (method.parser.typeDescriptor idx).map .str := rfl
  apply settled_const (o := .constant [a]) const rfl rfl
  · intro exp known
    obtain ⟨text, -, rfl⟩ := Option.map_eq_some_iff.mp known
    exact ⟨rfl, rfl⟩
  · intro missing stmts ctx' lowers
    have lowered : method.dataflowToAssign ctx pc ⟨0x1c, a, b, c, idx, lit, args, byte, notInvoke⟩ =
        some ([], { ctx with callResult := none, catchResult := none }) := by
      rw [dataflowToAssign, const, missing]
      rfl
    obtain ⟨rfl, -⟩ := Prod.mk.inj (Option.some.inj (lowers.symm.trans lowered))
    exact @not_correct_nil _ _ [] _ (reg_notMem_temps a) (by simp)
  · rw [kept_iff]
    simp [isMoveResult]

private theorem constExp_newInstance (pc : ℕ) (a b c idx : ℕ) (lit : Int64) (args : List ℕ) (byte notInvoke) :
    method.constExp pc ⟨0x22, a, b, c, idx, lit, args, byte, notInvoke⟩ =
      match method.retag pc with
      | some split => some (javaObject split)
      | none => method.allocationExp idx := rfl

theorem settled_newInstance (exact : inst.opcode = 0x22) : method.Settled ctx pc inst := by
  obtain ⟨op, a, b, c, idx, lit, args, byte, notInvoke⟩ := inst
  obtain rfl : op = 0x22 := exact
  have const := method.constExp_newInstance pc a b c idx lit args byte notInvoke
  have means : method.operation pc ⟨0x22, a, b, c, idx, lit, args, byte, notInvoke⟩ =
      some (.object a ((method.retag pc).orElse (fun _ => method.parser.typeDescriptor idx) |>.map .javaObject)) := rfl
  cases retag : method.retag pc with
  | some split =>
    rw [retag] at const means
    apply settled_const const rfl means
    · rintro exp known
      cases known
      exact ⟨rfl, rfl⟩
    · exact fun missing => absurd missing (Option.some_ne_none _)
    · rw [kept_iff]
      simp [isMoveResult, retag]
  | none =>
    rw [retag] at const means
    apply settled_const const rfl means
    · intro exp known
      obtain ⟨cls, named, rfl⟩ := Option.map_eq_some_iff.mp known
      refine ⟨rfl, ?_⟩
      rw [named]
      rfl
    · intro missing stmts ctx' lowers
      have lowered : method.dataflowToAssign ctx pc ⟨0x22, a, b, c, idx, lit, args, byte, notInvoke⟩ =
          some ([], { ctx with callResult := none, catchResult := none }) := by
        rw [dataflowToAssign, const, missing]
        rfl
      obtain ⟨rfl, -⟩ := Prod.mk.inj (Option.some.inj (lowers.symm.trans lowered))
      rw [Option.map_eq_none_iff.mp missing]
      exact @not_correct_nil _ _ [] _ (reg_notMem_temps a) (by simp)
    · rw [kept_iff]
      simp [isMoveResult, retag, allocationExp]

theorem settled_newArray (exact : inst.opcode = 0x23) : method.Settled ctx pc inst := by
  obtain ⟨op, a, b, c, idx, lit, args, byte, notInvoke⟩ := inst
  obtain rfl : op = 0x23 := exact
  have const : method.constExp pc ⟨0x23, a, b, c, idx, lit, args, byte, notInvoke⟩ =
      (method.parser.typeDescriptor idx).map javaObject := rfl
  apply settled_const (o := .object a ((method.parser.typeDescriptor idx).map .javaObject)) const rfl rfl
  · intro exp known
    obtain ⟨cls, named, rfl⟩ := Option.map_eq_some_iff.mp known
    refine ⟨rfl, ?_⟩
    rw [named]
    rfl
  · intro missing stmts ctx' lowers
    have lowered : method.dataflowToAssign ctx pc ⟨0x23, a, b, c, idx, lit, args, byte, notInvoke⟩ =
        some ([assign (method.reg a) [pathOf (method.reg b)]], { ctx with callResult := none, catchResult := none }) := by
      rw [dataflowToAssign, const, missing]
      rfl
    obtain ⟨rfl, -⟩ := Prod.mk.inj (Option.some.inj (lowers.symm.trans lowered))
    rw [Option.map_eq_none_iff.mp missing]
    exact not_correct_size a b
  · rw [kept_iff]
    simp [isMoveResult]

/-- Method handles and method types. -/
theorem settled_handle (range : inst.opcode = 0xfe ∨ inst.opcode = 0xff) : method.Settled ctx pc inst := by
  obtain ⟨op, a, b, c, idx, lit, args, byte, notInvoke⟩ := inst
  have const : ∃ object, method.constExp pc ⟨op, a, b, c, idx, lit, args, byte, notInvoke⟩ =
      some (.objectRef object) ∧
      method.operation pc ⟨op, a, b, c, idx, lit, args, byte, notInvoke⟩ = some (.object a (some object)) := by
    rcases range with rfl | rfl
    · have handle : ∃ object, (method.methodHandleExp idx).getD (javaObject "Ljava/lang/invoke/MethodHandle;") =
          .objectRef object := by
        cases known : method.methodHandleExp idx with
        | none => exact ⟨_, rfl⟩
        | some exp =>
          simp only [methodHandleExp, Option.bind_eq_bind, Option.bind_eq_some_iff] at known
          obtain ⟨handle, -, known⟩ := known
          split_ifs at known
          simp only [Option.bind_eq_some_iff, Option.pure_def, Option.some.injEq] at known
          obtain ⟨name, -, rfl⟩ := known
          exact ⟨_, rfl⟩
      obtain ⟨object, handle⟩ := handle
      refine ⟨object, congrArg some handle, ?_⟩
      have means : method.operation pc ⟨0xfe, a, b, c, idx, lit, args, byte, notInvoke⟩ =
          some (.object a (objectOf ((method.methodHandleExp idx).getD
            (javaObject "Ljava/lang/invoke/MethodHandle;")))) := rfl
      rw [means, handle]
      rfl
    · exact ⟨_, rfl, rfl⟩
  obtain ⟨object, const, means⟩ := const
  apply settled_const const _ means
  · rintro exp known
    cases known
    exact ⟨rfl, rfl⟩
  · exact fun missing => absurd missing (Option.some_ne_none _)
  · rw [kept_iff]
    rcases range with rfl | rfl <;> simp [isMoveResult]
  · rcases range with rfl | rfl <;> rfl

theorem settled_filledNewArray (range : inst.opcode = 0x24 ∨ inst.opcode = 0x25) : method.Settled ctx pc inst := by
  obtain ⟨op, a, b, c, idx, lit, args, byte, notInvoke⟩ := inst
  have lowered : method.dataflowToAssign ctx pc ⟨op, a, b, c, idx, lit, args, byte, notInvoke⟩ =
      some ([], { ctx with callResult := none, catchResult := none }) := by
    have default : method.dataflowToAssign ctx pc ⟨op, a, b, c, idx, lit, args, byte, notInvoke⟩ =
        some ((if args ≠ [] then [] else []) ++ [] ++ [], { ctx with callResult := none, catchResult := none }) := by
      rcases range with rfl | rfl <;> rfl
    rw [default, ite_self]
    rfl
  have means : method.operation pc ⟨op, a, b, c, idx, lit, args, byte, notInvoke⟩ =
      some (.newArray args ((method.parser.typeDescriptor idx).map .javaObject)) := by
    rcases range with rfl | rfl <;> rfl
  apply settled_of_correct lowered means
  apply iff_of_false
  · apply not_correct_nil ret_notMem_temps
    intro move member
    obtain ⟨object, -, rfl⟩ := List.mem_map.mp member
    exact ⟨_, _, _, rfl⟩
  · intro kept
    apply kept.array
    rcases range with rfl | rfl <;> simp

theorem settled_arrayLength (exact : inst.opcode = 0x21) : method.Settled ctx pc inst := by
  obtain ⟨op, a, b, c, idx, lit, args, byte, notInvoke⟩ := inst
  obtain rfl : op = 0x21 := exact
  apply @settled_of_correct _ _ _ _ ([a].map fun d => load (method.reg d) (method.reg b) (.field "length")) _
    (.load [a] b (.field "length")) rfl rfl
  exact iff_of_true (correct_load (by simp)) (kept_of_plain (by simp))

theorem settled_throw (exact : inst.opcode = 0x27) : method.Settled ctx pc inst := by
  obtain ⟨op, a, b, c, idx, lit, args, byte, notInvoke⟩ := inst
  obtain rfl : op = 0x27 := exact
  apply @settled_of_correct _ _ _ _ [assign method.except [pathOf (method.reg a)]] _ (.throw a) rfl rfl
  apply iff_of_true _ (kept_of_plain (by simp))
  rw [correct_iff_realizes (List.Forall₂.cons (acts_assign_one _ (short_pathOf _)) List.Forall₂.nil)]
  exact realizes_singleton _

/-- A load of one register, or of a pair. -/
theorem correct_load_iff {a b width : ℕ} {f : PathSegment} (narrow : width = 1 ∨ width = 2) :
    Correct ∅ method.temps ((regs a width).map fun d => load (method.reg d) (method.reg b) f)
        (method.effect (.load (regs a width) b f)) ↔ (width = 2 → a ≠ b) := by
  rcases narrow with rfl | rfl
  · exact iff_of_true (@correct_load _ _ _ [a] _ _ _ (by simp)) (by simp)
  · by_cases same : a = b
    · subst same
      exact iff_of_false (not_correct_wideLoad a f) (by simp)
    · apply iff_of_true _ fun _ => same
      apply @correct_load _ _ _ [a, a + 1]
      intro d early
      obtain rfl := List.mem_singleton.mp early
      exact fun clash => same (reg_injective clash)

theorem width_of_access (k : ℕ) : accessWidth k = 1 ∨ accessWidth k = 2 := by
  rw [accessWidth]
  split_ifs <;> simp

theorem settled_arrayGet (range : 0x44 ≤ inst.opcode ∧ inst.opcode ≤ 0x4a) : method.Settled ctx pc inst := by
  obtain ⟨op, a, b, c, idx, lit, args, byte, notInvoke⟩ := inst
  obtain ⟨low, high⟩ : 0x44 ≤ op ∧ op ≤ 0x4a := range
  have lowered : method.dataflowToAssign ctx pc ⟨op, a, b, c, idx, lit, args, byte, notInvoke⟩ =
      some ((regs a (accessWidth (op - 0x44))).map fun d => load (method.reg d) (method.reg b) (.field "[]"),
        ctx) := by
    interval_cases op <;> rfl
  have means : method.operation pc ⟨op, a, b, c, idx, lit, args, byte, notInvoke⟩ =
      some (.load (regs a (accessWidth (op - 0x44))) b (.field "[]")) := by
    interval_cases op <;> rfl
  apply settled_of_correct lowered means
  refine (correct_load_iff (width_of_access _)).trans ?_
  rw [kept_iff]
  interval_cases op <;> simp [isMoveResult, accessWidth]

theorem settled_instanceGet (range : 0x52 ≤ inst.opcode ∧ inst.opcode ≤ 0x58) : method.Settled ctx pc inst := by
  obtain ⟨op, a, b, c, idx, lit, args, byte, notInvoke⟩ := inst
  obtain ⟨low, high⟩ : 0x52 ≤ op ∧ op ≤ 0x58 := range
  have lowered : method.dataflowToAssign ctx pc ⟨op, a, b, c, idx, lit, args, byte, notInvoke⟩ =
      (method.parser.fieldName idx).bind fun name =>
        some ((regs a (accessWidth (op - 0x52))).map fun d =>
          load (method.reg d) (method.reg b) (.field ("<" ++ name ++ ">")), ctx) := by
    interval_cases op <;> rfl
  have means : method.operation pc ⟨op, a, b, c, idx, lit, args, byte, notInvoke⟩ =
      (method.parser.fieldName idx).map fun name =>
        .load (regs a (accessWidth (op - 0x52))) b (.field ("<" ++ name ++ ">")) := by
    interval_cases op <;> rfl
  apply settled_of_resolved lowered means
  intro name _
  refine (correct_load_iff (width_of_access _)).trans ?_
  rw [kept_iff]
  interval_cases op <;> simp [isMoveResult, accessWidth]

theorem settled_arrayPut (range : 0x4b ≤ inst.opcode ∧ inst.opcode ≤ 0x51) : method.Settled ctx pc inst := by
  obtain ⟨op, a, b, c, idx, lit, args, byte, notInvoke⟩ := inst
  obtain ⟨low, high⟩ : 0x4b ≤ op ∧ op ≤ 0x51 := range
  have lowered : method.dataflowToAssign ctx pc ⟨op, a, b, c, idx, lit, args, byte, notInvoke⟩ =
      some (method.storeThrough ctx (regs a (accessWidth (op - 0x4b))) (method.reg b) (.field "[]")) := by
    interval_cases op <;> rfl
  have means : method.operation pc ⟨op, a, b, c, idx, lit, args, byte, notInvoke⟩ =
      some (.store (regs a (accessWidth (op - 0x4b))) b (.field "[]")) := by
    interval_cases op <;> rfl
  apply settled_of_correct lowered means
  apply iff_of_true (correct_storeThrough ctx _ (reg_notMem_temps b))
  apply kept_of_plain
  simp only [List.mem_cons, List.not_mem_nil, or_false]
  omega

theorem settled_instancePut (range : 0x59 ≤ inst.opcode ∧ inst.opcode ≤ 0x5f) : method.Settled ctx pc inst := by
  obtain ⟨op, a, b, c, idx, lit, args, byte, notInvoke⟩ := inst
  obtain ⟨low, high⟩ : 0x59 ≤ op ∧ op ≤ 0x5f := range
  have lowered : method.dataflowToAssign ctx pc ⟨op, a, b, c, idx, lit, args, byte, notInvoke⟩ =
      (method.parser.fieldName idx).bind fun name => some <|
        method.storeThrough ctx (regs a (accessWidth (op - 0x59))) (method.reg b) (.field ("<" ++ name ++ ">")) := by
    interval_cases op <;> rfl
  have means : method.operation pc ⟨op, a, b, c, idx, lit, args, byte, notInvoke⟩ =
      (method.parser.fieldName idx).map fun name =>
        .store (regs a (accessWidth (op - 0x59))) b (.field ("<" ++ name ++ ">")) := by
    interval_cases op <;> rfl
  apply settled_of_resolved lowered means
  intro name _
  apply iff_of_true (correct_storeThrough ctx _ (reg_notMem_temps b))
  apply kept_of_plain
  simp only [List.mem_cons, List.not_mem_nil, or_false]
  omega

/-- A static field is a field of a global. -/
theorem staticField_eq_global {globals : NameTable} {pretty : String} {global : Variable} {field : PathSegment}
    (known : staticField globals pretty = some (global, field)) : ∃ name, global = globals.globalVar name := by
  simp only [staticField, Option.bind_eq_bind, Option.bind_eq_some_iff, Option.pure_def, Option.some.injEq] at known
  obtain ⟨⟨cls, rest⟩, -, same⟩ := known
  exact ⟨_, (Prod.mk.inj same).1.symm⟩

theorem reg_ne_global (r : ℕ) (name : String) : method.reg r ≠ method.globals.globalVar name := by
  intro same
  rcases @reg_eq_param_or_local method r with ⟨-, shape⟩ | ⟨-, shape⟩ <;> rw [shape] at same <;> cases same

theorem settled_staticGet (range : 0x60 ≤ inst.opcode ∧ inst.opcode ≤ 0x66) : method.Settled ctx pc inst := by
  obtain ⟨op, a, b, c, idx, lit, args, byte, notInvoke⟩ := inst
  obtain ⟨low, high⟩ : 0x60 ≤ op ∧ op ≤ 0x66 := range
  have lowered : method.dataflowToAssign ctx pc ⟨op, a, b, c, idx, lit, args, byte, notInvoke⟩ =
      ((method.parser.fieldName idx).bind fun pretty => (staticField method.globals pretty).bind fun place =>
        some ((regs a (accessWidth (op - 0x60))).map fun d => load (method.reg d) place.1 place.2, ctx)) := by
    interval_cases op <;> rfl
  have means : method.operation pc ⟨op, a, b, c, idx, lit, args, byte, notInvoke⟩ =
      ((method.parser.fieldName idx).bind (staticField method.globals)).map fun place =>
        .loadStatic (regs a (accessWidth (op - 0x60))) place.1 place.2 := by
    interval_cases op <;> rfl
  rw [← Option.bind_assoc] at lowered
  apply settled_of_resolved lowered means
  rintro ⟨global, field⟩ place
  obtain ⟨pretty, -, known⟩ := Option.bind_eq_some_iff.mp place
  obtain ⟨name, rfl⟩ := staticField_eq_global known
  apply iff_of_true (correct_load fun d _ => reg_ne_global d name)
  apply kept_of_plain
  simp only [List.mem_cons, List.not_mem_nil, or_false]
  omega

theorem settled_staticPut (range : 0x67 ≤ inst.opcode ∧ inst.opcode ≤ 0x6d) : method.Settled ctx pc inst := by
  obtain ⟨op, a, b, c, idx, lit, args, byte, notInvoke⟩ := inst
  obtain ⟨low, high⟩ : 0x67 ≤ op ∧ op ≤ 0x6d := range
  have lowered : method.dataflowToAssign ctx pc ⟨op, a, b, c, idx, lit, args, byte, notInvoke⟩ =
      ((method.parser.fieldName idx).bind fun pretty => (staticField method.globals pretty).bind fun place =>
        some (method.storeThrough ctx (regs a (accessWidth (op - 0x67))) place.1 place.2)) := by
    interval_cases op <;> rfl
  have means : method.operation pc ⟨op, a, b, c, idx, lit, args, byte, notInvoke⟩ =
      ((method.parser.fieldName idx).bind (staticField method.globals)).map fun place =>
        .storeStatic (regs a (accessWidth (op - 0x67))) place.1 place.2 := by
    interval_cases op <;> rfl
  rw [← Option.bind_assoc] at lowered
  apply settled_of_resolved lowered means
  rintro ⟨global, field⟩ place
  obtain ⟨pretty, -, known⟩ := Option.bind_eq_some_iff.mp place
  obtain ⟨name, rfl⟩ := staticField_eq_global known
  apply iff_of_true (correct_storeThrough ctx _ (global_notMem_temps name))
  apply kept_of_plain
  simp only [List.mem_cons, List.not_mem_nil, or_false]
  omega

/-- Branches, returns, monitors, `nop`, array data, and the unused opcodes. -/
def rests : List ℕ :=
  [0x00, 0x0e, 0x0f, 0x10, 0x11, 0x1d, 0x1e, 0x26, 0x28, 0x29, 0x2a, 0x2b, 0x2c] ++ (List.range 18).map (0x32 + ·) ++
    [0x73, 0x79, 0x7a] ++ (List.range 23).map (0xe3 + ·)

theorem settled_rests (member : inst.opcode ∈ rests) : method.Settled ctx pc inst := by
  obtain ⟨op, a, b, c, idx, lit, args, byte, notInvoke⟩ := inst
  replace member : op ∈ rests := member
  have plain : op ∉ [0x0a, 0x0b, 0x0c, 0x0d, 0x1a, 0x1b, 0x1c, 0x22, 0x23, 0x24, 0x25, 0x45, 0x53] := by
    intro special
    have apart : ∀ n ∈ rests,
        n ∉ [0x0a, 0x0b, 0x0c, 0x0d, 0x1a, 0x1b, 0x1c, 0x22, 0x23, 0x24, 0x25, 0x45, 0x53] := by
      decide
    exact apart op member special
  have lowered : method.dataflowToAssign ctx pc ⟨op, a, b, c, idx, lit, args, byte, notInvoke⟩ =
      some ([], { ctx with callResult := none, catchResult := none }) ∧
      method.operation pc ⟨op, a, b, c, idx, lit, args, byte, notInvoke⟩ = some .other := by
    interval_cases op
    all_goals first
      | exact absurd member (by decide)
      | exact ⟨rfl, rfl⟩
  apply settled_of_correct lowered.1 lowered.2
  apply iff_of_true _ (kept_of_plain plain)
  rw [correct_iff_realizes List.Forall₂.nil]
  exact realizes_nil

/-- Every instruction is lowered to its effect exactly if it is kept. -/
theorem settled (method : MethodContext) (ctx : Context) (pc : ℕ) (inst : Operands) : method.Settled ctx pc inst := by
  cases copies : copyOperation inst.opcode inst.a inst.b inst.c with
  | some o => exact settled_copy copies
  | none =>
    by_cases rest : inst.opcode ∈ rests
    · exact settled_rests rest
    · have families : 0x0a ≤ inst.opcode ∧ inst.opcode ≤ 0x0c ∨ inst.opcode = 0x0d ∨
          0x12 ≤ inst.opcode ∧ inst.opcode ≤ 0x19 ∨ (inst.opcode = 0x1a ∨ inst.opcode = 0x1b) ∨
          inst.opcode = 0x1c ∨ inst.opcode = 0x21 ∨ inst.opcode = 0x22 ∨ inst.opcode = 0x23 ∨
          (inst.opcode = 0x24 ∨ inst.opcode = 0x25) ∨ inst.opcode = 0x27 ∨
          0x44 ≤ inst.opcode ∧ inst.opcode ≤ 0x4a ∨ 0x4b ≤ inst.opcode ∧ inst.opcode ≤ 0x51 ∨
          0x52 ≤ inst.opcode ∧ inst.opcode ≤ 0x58 ∨ 0x59 ≤ inst.opcode ∧ inst.opcode ≤ 0x5f ∨
          0x60 ≤ inst.opcode ∧ inst.opcode ≤ 0x66 ∨ 0x67 ≤ inst.opcode ∧ inst.opcode ≤ 0x6d ∨
          (inst.opcode = 0xfe ∨ inst.opcode = 0xff) := by
        obtain ⟨op, a, b, c, idx, lit, args, byte, notInvoke⟩ := inst
        dsimp only at copies rest ⊢
        interval_cases op
        all_goals first
          | omega
          | exact absurd (by decide) rest
          | cases copies
      rcases families with h | h | h | h | h | h | h | h | h | h | h | h | h | h | h | h | h
      · exact settled_moveResult h
      · exact settled_moveException h
      · exact settled_number h
      · exact settled_string h
      · exact settled_constClass h
      · exact settled_arrayLength h
      · exact settled_newInstance h
      · exact settled_newArray h
      · exact settled_filledNewArray h
      · exact settled_throw h
      · exact settled_arrayGet h
      · exact settled_arrayPut h
      · exact settled_instanceGet h
      · exact settled_instancePut h
      · exact settled_staticGet h
      · exact settled_staticPut h
      · exact settled_handle h

end Families

end MethodContext

end Ctadl.Dex
