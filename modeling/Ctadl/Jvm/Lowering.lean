import Ctadl.Jvm.Slots

/-! # When a JVM instruction is lowered to its effect

Every family of instructions is lowered to moves with the effect of the instruction, but for a load of two slots
onto its own object or array, `sastore`, a store of two slots, which keeps the top one, and `multianewarray`, which
copies its dimensions into the array.
-/

namespace Ctadl.Jvm

open Cir Moves

/-- The operations that are lowered to their effect. -/
def Operation.Kept : Operation → Prop
  -- the second load reads from the slot of the array, which the first has overwritten
  | arrayLoad type => typeWidth type = 1
  -- two slots are stored from the top one only, and `sastore` is no store to an element
  | arrayStore type => typeWidth type = 1 ∧ type ≠ 7
  | getField f | putField f | putStatic f => fieldSlotWidth f.descriptor = 1
  | newMultiArray dimensions _ => dimensions = 0
  | constant _ | literal _ _ | load _ _ | store _ _ | shuffle _ _ | compute _ _ | increment _ | getStatic _
  | newObject _ | newArray _ | throw | other => True

namespace FrontendNames

variable {names : FrontendNames}

/-! ## Names -/

theorem localVar_inj {a b : LocalName} (same : names.localVar a = names.localVar b) : a = b :=
  LocalName.text_injective (names.locals.index_injective (Variable.localVar.inj same))

theorem slot_injective : Function.Injective names.slot := fun _ _ same => LocalName.stack.inj (localVar_inj same)

theorem slot_notMem_temps (n : ℕ) : names.slot n ∉ names.temps := by
  rintro ⟨m, same⟩
  cases localVar_inj same

theorem slot_ne_unknown (n : ℕ) : names.slot n ≠ names.localVar .unknownLocationType :=
  fun same => LocalName.noConfusion (localVar_inj same)

theorem slot_notMem_clean (n : ℕ) : names.slot n ∉ names.clean := slot_ne_unknown n

/-! ## Statements of an instruction -/

theorem mapM_some {α β : Type} {f : α → Option β} {g : α → β} (acts : ∀ a, f a = some (g a)) (l : List α) :
    l.mapM f = some (l.map g) := by
  induction l with
  | nil => rfl
  | cons a l ih => rw [List.mapM_cons, acts a, ih]; rfl

section Arms

variable {opcode : ℕ} {dfs : List DataflowInfo} {stmts : List Statement}

/-- An instruction whose entries have the same sources. -/
theorem statements_of_arm (arm : DataflowInfo → Statement) {width base : ℕ} {sources : List FlowLocation}
    (plain : isStackShuffleOpcode opcode = false)
    (acts : ∀ i, names.dataflowToStatements opcode ⟨sources, .stackSlot i⟩ = some (arm ⟨sources, .stackSlot i⟩))
    (shape : dfs = (List.range width).map fun i => ⟨sources, .stackSlot (base + i)⟩)
    (lowers : names.instructionStatements opcode dfs = some stmts) :
    stmts = (List.range width).map fun i => arm ⟨sources, .stackSlot (base + i)⟩ := by
  subst shape
  rw [instructionStatements, if_neg (by simp [plain]), List.mapM_map] at lowers
  exact Option.some.inj (lowers.symm.trans (mapM_some (fun i => acts (base + i)) _))

/-- An instruction with one entry. -/
theorem statements_of_single {data : DataflowInfo} (plain : isStackShuffleOpcode opcode = false)
    (lowers : names.instructionStatements opcode [data] = some stmts) :
    ∃ stmt, names.dataflowToStatements opcode data = some stmt ∧ stmts = [stmt] := by
  rw [instructionStatements, if_neg (by simp [plain]), List.mapM_cons, List.mapM_nil] at lowers
  cases one : names.dataflowToStatements opcode data with
  | none =>
    rw [one] at lowers
    cases lowers
  | some stmt =>
    rw [one] at lowers
    exact ⟨stmt, rfl, (Option.some.inj lowers).symm⟩

/-- The opcodes without an arm of their own. -/
structure Default (opcode : ℕ) : Prop where
  plain : isStackShuffleOpcode opcode = false
  acts : ∀ (names : FrontendNames) (data : DataflowInfo),
    names.dataflowToStatements opcode data = some (names.defaultStatement (isValueOnlyOpcode opcode) data)

theorem default_of_apart (apart : ¬ (0x2e ≤ opcode ∧ opcode ≤ 0x35) ∧ ¬ (0x4f ≤ opcode ∧ opcode ≤ 0x55) ∧
    ¬ (0x59 ≤ opcode ∧ opcode ≤ 0x5f) ∧ ¬ (0xb2 ≤ opcode ∧ opcode ≤ 0xb5) ∧ ¬ (0xbb ≤ opcode ∧ opcode ≤ 0xbd) ∧
    opcode ≠ 0xbf) : Default opcode := by
  constructor
  · simp only [isStackShuffleOpcode, Bool.and_eq_false_iff, decide_eq_false_iff_not]
    omega
  · intro names data
    rw [dataflowToStatements, if_neg (by omega), if_neg (by omega), if_neg (by omega), if_neg (by omega),
      if_neg (by omega), if_neg (by omega), if_neg (by omega), if_neg (by omega)]

end Arms

/-! ## The families -/

section Families

variable {params : ParameterSlotMap} {context : InstructionContext} {stackLen opcode : ℕ} {kind : InstructionKind}
  {dfs : List DataflowInfo} {stmts : List Statement}

/-- A copy of one location. -/
theorem defaultStatement_one (loc dest : FlowLocation) :
    names.defaultStatement false ⟨[loc], dest⟩ =
      assign (names.convertLocationToVarRef dest) [names.convertLocationToExp loc] := by
  rw [defaultStatement, List.map_singleton]
  cases names.convertLocationToExp loc <;> rfl

/-- A constant is a literal or an object, or stands for a value without a location. -/
theorem convertLocationToExp_constant (value : ConstantValue) :
    ((names.convertLocationToExp (.constant value)).accessPath = none ∧
      sourcesOf (names.convertLocationToExp (.constant value)) = (literalObject value).toList.map .object) ∨
    names.convertLocationToExp (.constant value) = pathOf (names.localVar .unknownLocationType) ∧
      literalObject value = none := by
  cases value with
  | integer n => exact .inl ⟨rfl, rfl⟩
  | long n => exact .inl ⟨rfl, rfl⟩
  | string s => exact .inl ⟨rfl, rfl⟩
  | methodType descriptor => exact .inl ⟨rfl, rfl⟩
  | methodHandle referenceKind className name descriptor =>
    refine .inl ?_
    simp only [convertLocationToExp, methodHandleExp, literalObject]
    split_ifs with known
    · exact ⟨rfl, rfl⟩
    · exact ⟨rfl, rfl⟩
  | dynamic name descriptor =>
    simp only [convertLocationToExp, literalObject]
    split_ifs with reference
    · rw [allocationExp, if_pos reference]
      exact .inl ⟨rfl, rfl⟩
    · exact .inr ⟨rfl, rfl⟩
  | float bits => exact .inr ⟨rfl, rfl⟩
  | double bits => exact .inr ⟨rfl, rfl⟩
  | classRef name => exact .inr ⟨rfl, rfl⟩
  | null => exact .inr ⟨rfl, rfl⟩

/-- A constant on the stack. -/
theorem correct_literal {width : ℕ} (value : ConstantValue) (two : width = 1 ∨ width = 2) (default : Default opcode)
    (copies : isValueOnlyOpcode opcode = false)
    (simulates : simulateDataflow context stackLen
      ⟨kind, opcode, splitDataflowInfos ([.constant value], stackOutputs width)⟩ = .ok dfs)
    (lowers : names.instructionStatements opcode dfs = some stmts) :
    Correct names.clean names.temps stmts (names.effect params stackLen (.literal width value)) := by
  have shape := statements_of_arm _ default.plain (fun i => default.acts names _) (simulate_outputs two simulates) lowers
  simp only [copies, List.map_singleton, FlowLocation.slotted, defaultStatement_one] at shape
  subst shape
  rcases names.convertLocationToExp_constant value with ⟨pathless, object⟩ | ⟨unknown, none⟩
  · have correct := @correct_pathless _ names.clean names.temps (List.range width)
      (fun i => names.slot (stackLen - 0 + i)) _ pathless
    rwa [object] at correct
  · rw [unknown, effect, none]
    exact correct_clean rfl fun i => slot_ne_unknown _

/-- Where a local variable lives. -/
theorem localSlot_slotted (slot : ℕ) : (localSlotToLocation slot params).slotted stackLen = localSlotToLocation slot params := by
  rw [localSlotToLocation]
  cases params.ordinalForSlot slot <;> rfl

theorem localSlot_exp (slot : ℕ) :
    names.convertLocationToExp (localSlotToLocation slot params) = pathOf (names.localAt params slot) := by
  rw [localAt, localSlotToLocation]
  cases params.ordinalForSlot slot <;> rfl

theorem localSlot_depth (slot : ℕ) : (localSlotToLocation slot params).depth = 0 := by
  rw [localSlotToLocation]
  cases params.ordinalForSlot slot <;> rfl

/-- A local variable on the stack. -/
theorem correct_localLoad {width slot : ℕ} (two : width = 1 ∨ width = 2) (default : Default opcode)
    (copies : isValueOnlyOpcode opcode = false)
    (simulates : simulateDataflow context stackLen
      ⟨kind, opcode, splitDataflowInfos ([localSlotToLocation slot params], stackOutputs width)⟩ = .ok dfs)
    (lowers : names.instructionStatements opcode dfs = some stmts) :
    Correct names.clean names.temps stmts (names.effect params stackLen (.load width slot)) := by
  have depth : sourcesDepth [localSlotToLocation slot params] = 0 := by
    rw [sourcesDepth, List.map_singleton, localSlot_depth]
    rfl
  have shape := statements_of_arm _ default.plain (fun i => default.acts names _) (simulate_outputs two simulates) lowers
  simp only [copies, List.map_singleton, localSlot_slotted, defaultStatement_one, localSlot_exp, depth] at shape
  subst shape
  exact @correct_same _ _ _ _ (fun i => names.slot (stackLen - 0 + i)) _ _
    (fun v => acts_assign_one v (short_pathOf (names.localAt params slot))) (by simp [sourcesOf, pathOf, AccessPath.ofRef])

/-- The operands on top of the stack, as the default arm reads them. -/
theorem stackInputs_exps (valueOnly : Bool) (count : ℕ) (dest : FlowLocation) :
    names.defaultStatement valueOnly ⟨(stackInputs count).map (·.slotted stackLen), dest⟩ =
      assign (names.convertLocationToVarRef dest)
        ((List.range count).map fun d => (if valueOnly then valueOf else pathOf) (names.slot (stackLen - 1 - d))) := by
  rw [defaultStatement, stackInputs, List.map_map, List.map_map]
  congr 1
  apply List.map_congr_left
  intro d _
  cases valueOnly <;> rfl

/-- The top of the stack in a local variable. -/
theorem correct_localStore {width slot : ℕ} (default : Default opcode)
    (simulates : simulateDataflow context stackLen
      ⟨kind, opcode, splitDataflowInfos (stackInputs width, [localSlotToLocation slot params])⟩ = .ok dfs)
    (lowers : names.instructionStatements opcode dfs = some stmts) :
    Correct names.clean names.temps stmts (names.effect params stackLen (.store width slot)) := by
  have placed : (localSlotToLocation slot params).slotted stackLen ≠ .stackOutput := by
    rw [localSlot_slotted, localSlotToLocation]
    cases params.ordinalForSlot slot <;> exact fun same => by cases same
  obtain ⟨-, rfl⟩ := simulate_single placed simulates
  obtain ⟨stmt, one, rfl⟩ := statements_of_single default.plain lowers
  rw [default.acts, stackInputs_exps, localSlot_slotted] at one
  obtain rfl := Option.some.inj one
  rw [correct_iff_realizes (.cons (acts_operands _ _ _ fun d => names.slot (stackLen - 1 - d)) .nil)]
  exact realizes_singleton _

/-- Results that are computed from the operands they replace. -/
theorem correct_compute {pops width : ℕ} (two : width = 1 ∨ width = 2) (default : Default opcode)
    (simulates : simulateDataflow context stackLen
      ⟨kind, opcode, splitDataflowInfos (stackInputs pops, stackOutputs width)⟩ = .ok dfs)
    (lowers : names.instructionStatements opcode dfs = some stmts) :
    Correct names.clean names.temps stmts (names.effect params stackLen (.compute pops width)) := by
  have shape := statements_of_arm _ default.plain (fun i => default.acts names _) (simulate_outputs two simulates) lowers
  simp only [stackInputs_exps, sourcesDepth_stackInputs] at shape
  subst shape
  exact @correct_same _ _ _ _ (fun i => names.slot (stackLen - pops + i)) _ _
    (fun v => acts_operands v _ (List.range pops) fun d => names.slot (stackLen - 1 - d)) (by simp)

/-- A local variable from itself. -/
theorem correct_increment {slot : ℕ} (default : Default opcode)
    (simulates : simulateDataflow context stackLen
      ⟨kind, opcode, splitDataflowInfos ([localSlotToLocation slot params], [localSlotToLocation slot params])⟩ = .ok dfs)
    (lowers : names.instructionStatements opcode dfs = some stmts) :
    Correct names.clean names.temps stmts (names.effect params stackLen (.increment slot)) := by
  have placed : (localSlotToLocation slot params).slotted stackLen ≠ .stackOutput := by
    rw [localSlot_slotted, localSlotToLocation]
    cases params.ordinalForSlot slot <;> exact fun same => by cases same
  obtain ⟨-, rfl⟩ := simulate_single placed simulates
  obtain ⟨stmt, one, rfl⟩ := statements_of_single default.plain lowers
  rw [default.acts, List.map_singleton, localSlot_slotted] at one
  have read : names.defaultStatement (isValueOnlyOpcode opcode)
      ⟨[localSlotToLocation slot params], localSlotToLocation slot params⟩ =
      assign (names.localAt params slot)
        ([slot].map fun d => (if isValueOnlyOpcode opcode then valueOf else pathOf) (names.localAt params d)) := by
    rw [defaultStatement, List.map_singleton, localSlot_exp]
    cases isValueOnlyOpcode opcode <;> rfl
  rw [read] at one
  obtain rfl := Option.some.inj one
  rw [correct_iff_realizes (.cons (acts_operands _ _ _ (names.localAt params)) .nil)]
  exact realizes_singleton _

/-- One or two slots get a field of an object; two are right if the first is not the object. -/
theorem correct_pushes_load_iff {pops width : ℕ} {f : PathSegment} (two : width = 1 ∨ width = 2) :
    Correct names.clean names.temps
        ((List.range width).map fun i => load (names.slot (stackLen - pops + i)) (names.slot (stackLen - pops)) f)
        (names.pushes stackLen pops width [.field (names.slot (stackLen - pops)) f]) ↔ width = 1 := by
  rcases two with rfl | rfl
  · exact iff_of_true (@correct_load _ _ _ (List.range 1) _ _ _ (by simp)) rfl
  · exact iff_of_false (not_correct_load (slot_notMem_temps _)) (by omega)

theorem width_of_type (type : ℕ) : typeWidth type = 1 ∨ typeWidth type = 2 := by
  rw [typeWidth]
  split_ifs <;> simp

theorem width_of_field (descriptor : String) : fieldSlotWidth descriptor = 1 ∨ fieldSlotWidth descriptor = 2 := by
  rw [fieldSlotWidth]
  split <;> simp

/-- An element of an array on the stack. -/
theorem correct_arrayLoad_iff {type : ℕ} (range : 0x2e ≤ opcode ∧ opcode ≤ 0x35)
    (simulates : simulateDataflow context stackLen
      ⟨kind, opcode, splitDataflowInfos ([.arrayElement (.stackInput 1) (.stackInput 0)],
        stackOutputs (typeWidth type))⟩ = .ok dfs)
    (lowers : names.instructionStatements opcode dfs = some stmts) :
    Correct names.clean names.temps stmts (names.effect params stackLen (.arrayLoad type)) ↔
      (Operation.arrayLoad type).Kept := by
  have plain : isStackShuffleOpcode opcode = false := by
    simp only [isStackShuffleOpcode, Bool.and_eq_false_iff, decide_eq_false_iff_not]
    omega
  have arm : ∀ base offset dest, names.dataflowToStatements opcode ⟨[.arrayElement base offset], dest⟩ =
      some (load (names.convertLocationToVarRef dest) (names.convertLocationToVarRef base) (.field "[]")) := by
    intro base offset dest
    rw [dataflowToStatements, if_neg (by omega), if_neg (by omega), if_neg (by omega), if_neg (by omega),
      if_neg (by omega), if_neg (by omega), if_pos ⟨range.1, range.2, rfl⟩]
    rfl
  have shape := statements_of_arm (fun data => load (names.convertLocationToVarRef data.destination)
    (names.slot (stackLen - 1 - 1)) (.field "[]")) plain (fun i => arm _ _ _)
    (simulate_outputs (width_of_type type) simulates) lowers
  rw [Nat.sub_sub] at shape
  subst shape
  exact correct_pushes_load_iff (width_of_type type)

/-- A field on the stack. -/
theorem correct_getField_iff {field : FieldRef}
    (simulates : simulateDataflow context stackLen
      ⟨kind, 0xb4, splitDataflowInfos ([.stackInput 0, .fieldRef field],
        stackOutputs (fieldSlotWidth field.descriptor))⟩ = .ok dfs)
    (lowers : names.instructionStatements 0xb4 dfs = some stmts) :
    Correct names.clean names.temps stmts (names.effect params stackLen (.getField field)) ↔
      (Operation.getField field).Kept := by
  have shape := statements_of_arm (fun data => load (names.convertLocationToVarRef data.destination)
    (names.slot (stackLen - 1 - 0)) (jvmFieldSymbol field)) rfl (fun i => rfl)
    (simulate_outputs (width_of_field field.descriptor) simulates) lowers
  subst shape
  exact correct_pushes_load_iff (width_of_field field.descriptor)

theorem slot_ne_global (n : ℕ) (name : String) : names.slot n ≠ names.globals.globalVar name :=
  fun same => by cases same

/-- A static field on the stack. -/
theorem correct_getStatic {field : FieldRef}
    (simulates : simulateDataflow context stackLen
      ⟨kind, 0xb2, splitDataflowInfos ([.fieldRef field], stackOutputs (fieldSlotWidth field.descriptor))⟩ = .ok dfs)
    (lowers : names.instructionStatements 0xb2 dfs = some stmts) :
    Correct names.clean names.temps stmts (names.effect params stackLen (.getStatic field)) := by
  have shape := statements_of_arm (fun data => load (names.convertLocationToVarRef data.destination)
    (names.staticField field).1 (names.staticField field).2) rfl (fun i => rfl)
    (simulate_outputs (width_of_field field.descriptor) simulates) lowers
  subst shape
  exact correct_load fun i _ => slot_ne_global _ _

/-- A new object or array, in the arm of its own. -/
theorem correct_new {cls : String} {sources : List FlowLocation} {pops : ℕ}
    (range : 0xbb ≤ opcode ∧ opcode ≤ 0xbd) (depth : sourcesDepth sources = pops)
    (named : allocationIn (sources.map (·.slotted stackLen)) = some cls)
    (simulates : simulateDataflow context stackLen
      ⟨kind, opcode, splitDataflowInfos (sources, stackOutputs 1)⟩ = .ok dfs)
    (lowers : names.instructionStatements opcode dfs = some stmts) :
    Correct names.clean names.temps stmts
      (names.pushes stackLen pops 1 [.object (.javaObject (classDescriptor cls))]) := by
  have plain : isStackShuffleOpcode opcode = false := by
    simp only [isStackShuffleOpcode, Bool.and_eq_false_iff, decide_eq_false_iff_not]
    omega
  have shape := statements_of_arm (fun data => assign (names.convertLocationToVarRef data.destination)
    [allocationExp cls]) plain (fun i => by rw [dataflowToStatements, if_pos range, named]; rfl)
    (simulate_outputs (.inl rfl) simulates) lowers
  subst shape
  subst depth
  exact @correct_pathless _ _ _ _ _ (allocationExp cls) rfl

/-- An array of several dimensions, which are copied into it. -/
theorem correct_newMultiArray_iff {dimensions : ℕ} {descriptor : String}
    (simulates : simulateDataflow context stackLen
      ⟨kind, 0xc5, splitDataflowInfos (stackInputs dimensions ++ [FlowLocation.allocation descriptor], stackOutputs 1)⟩ = .ok dfs)
    (lowers : names.instructionStatements 0xc5 dfs = some stmts) :
    Correct names.clean names.temps stmts (names.effect params stackLen (.newMultiArray dimensions descriptor)) ↔
      (Operation.newMultiArray dimensions descriptor).Kept := by
  have default : Default 0xc5 := default_of_apart (by omega)
  have depth : sourcesDepth (stackInputs dimensions ++ [FlowLocation.allocation descriptor]) = dimensions := by
    rw [sourcesDepth, List.map_append, List.foldl_append, ← sourcesDepth, sourcesDepth_stackInputs]
    exact Nat.max_zero _
  have shape := statements_of_arm _ default.plain (fun i => default.acts names _) (simulate_outputs (.inl rfl) simulates) lowers
  rw [depth] at shape
  have exps : names.defaultStatement (isValueOnlyOpcode 0xc5)
      ⟨(stackInputs dimensions ++ [FlowLocation.allocation descriptor]).map fun loc => loc.slotted stackLen,
        .stackSlot (stackLen - dimensions + 0)⟩ =
      assign (names.slot (stackLen - dimensions + 0))
        (((List.range dimensions).map fun d => pathOf (names.slot (stackLen - 1 - d))) ++ [allocationExp descriptor]) := by
    rw [defaultStatement, stackInputs, List.map_append, List.map_append, List.map_map, List.map_map]
    rfl
  have short : ∀ exp ∈ ((List.range dimensions).map fun d => pathOf (names.slot (stackLen - 1 - d))) ++
      [allocationExp descriptor], Short exp := by
    intro exp member
    rcases List.mem_append.mp member with operand | object
    · obtain ⟨d, -, rfl⟩ := List.mem_map.mp operand
      exact short_pathOf _
    · obtain rfl := List.mem_singleton.mp object
      exact short_of_pathless rfl
  have sources : (((List.range dimensions).map fun d => pathOf (names.slot (stackLen - 1 - d))) ++
      [allocationExp descriptor]).flatMap sourcesOf =
      names.operands stackLen dimensions ++ [.object (.javaObject (classDescriptor descriptor))] := by
    rw [List.flatMap_append, List.flatMap_map, operands, List.map_eq_flatMap]
    rfl
  have acts := acts_assign (names.slot (stackLen - dimensions + 0)) short
  rw [← exps, sources] at acts
  subst shape
  rw [List.range_one, List.map_singleton, correct_iff_realizes (.cons acts .nil)]
  by_cases none : dimensions = 0
  · subst none
    exact iff_of_true (realizes_singleton _) rfl
  · refine iff_of_false ?_ none
    intro realizes
    have labels := realizes.env_labelled (p := fun v => v ≠ names.localVar .unknownLocationType)
      (fun v inside other => other inside) (slot_notMem_temps (stackLen - dimensions + 0))
    simp only [effect, pushes, List.range_one, List.map_singleton, Objects.parallel_singleton, Objects.run_cons,
      Objects.run_nil, Objects.step_var, State.set_env_same, Objects.readAll_singleton] at labels
    have inside : () ∈ (Objects.blank (F := PathSegment)).readAll
        (State.labelled fun v : Variable => v ≠ names.localVar .unknownLocationType)
        (names.operands stackLen dimensions ++ [.object (.javaObject (classDescriptor descriptor))]) :=
      ⟨names.operandAt stackLen 0,
        List.mem_append_left _ (List.mem_map_of_mem (List.mem_range.mpr (Nat.pos_of_ne_zero none))), slot_ne_unknown _⟩
    rw [labels] at inside
    exact inside

/-- A store of the top of the stack where one or two slots are stored. -/
theorem correct_storeTop_iff {width : ℕ} {w : Variable} {f : PathSegment} (two : width = 1 ∨ width = 2)
    (enough : width ≤ stackLen) :
    Correct names.clean names.temps [store w f (pathOf (names.slot (stackLen - 1 - 0)))]
        [⟨.field w f, names.operands stackLen width⟩] ↔ width = 1 := by
  rw [correct_iff_realizes (.cons (acts_store w f (short_pathOf _)) .nil)]
  rcases two with rfl | rfl
  · exact iff_of_true (realizes_singleton _) rfl
  · refine iff_of_false ?_ (by omega)
    apply not_realizes_store (u := names.slot (stackLen - 1 - 1)) (v := names.slot (stackLen - 1 - 0))
    · intro same
      have slots := slot_injective same
      omega
    · exact List.mem_map_of_mem (List.mem_range.mpr (by omega))
    · exact slot_notMem_clean _

theorem correct_putStatic_iff {field : FieldRef}
    (simulates : simulateDataflow context stackLen
      ⟨kind, 0xb3, splitDataflowInfos (stackInputs (fieldSlotWidth field.descriptor), [.fieldRef field])⟩ = .ok dfs)
    (lowers : names.instructionStatements 0xb3 dfs = some stmts) :
    Correct names.clean names.temps stmts (names.effect params stackLen (.putStatic field)) ↔
      (Operation.putStatic field).Kept := by
  obtain ⟨enough, rfl⟩ := simulate_single (by simp [FlowLocation.slotted]) simulates
  obtain ⟨stmt, one, rfl⟩ := statements_of_single rfl lowers
  rw [sourcesDepth_stackInputs] at enough
  have shape : stmt = store (names.staticField field).1 (names.staticField field).2
      (pathOf (names.slot (stackLen - 1 - 0))) := by
    rcases width_of_field field.descriptor with width | width <;> rw [width] at one <;>
      exact (Option.some.inj one).symm
  subst shape
  exact correct_storeTop_iff (width_of_field field.descriptor) ((le_max_left _ _).trans enough)

theorem correct_putField_iff {field : FieldRef}
    (simulates : simulateDataflow context stackLen
      ⟨kind, 0xb5, splitDataflowInfos (stackInputs (fieldSlotWidth field.descriptor + 1), [.fieldRef field])⟩ = .ok dfs)
    (lowers : names.instructionStatements 0xb5 dfs = some stmts) :
    Correct names.clean names.temps stmts (names.effect params stackLen (.putField field)) ↔
      (Operation.putField field).Kept := by
  obtain ⟨enough, rfl⟩ := simulate_single (by simp [FlowLocation.slotted]) simulates
  obtain ⟨stmt, one, rfl⟩ := statements_of_single rfl lowers
  rw [sourcesDepth_stackInputs] at enough
  have shape : stmt = store (names.slot (stackLen - fieldSlotWidth field.descriptor - 1)) (jvmFieldSymbol field)
      (pathOf (names.slot (stackLen - 1 - 0))) := by
    rcases width_of_field field.descriptor with width | width <;> rw [width, Nat.sub_right_comm] <;>
      rw [width] at one <;> exact (Option.some.inj one).symm
  subst shape
  have deep := (le_max_left _ _).trans enough
  exact correct_storeTop_iff (width_of_field field.descriptor) (by omega)

/-- The element stores with an arm of their own, all but `sastore`. -/
theorem correct_arrayStore_iff {type : ℕ} (range : 0x4f ≤ opcode ∧ opcode ≤ 0x55) (exact_type : type ≠ 7)
    (simulates : simulateDataflow context stackLen
      ⟨kind, opcode, splitDataflowInfos (stackInputs (typeWidth type),
        [.arrayElement (.stackInput (typeWidth type + 1)) (.stackInput (typeWidth type))])⟩ = .ok dfs)
    (lowers : names.instructionStatements opcode dfs = some stmts) :
    Correct names.clean names.temps stmts (names.effect params stackLen (.arrayStore type)) ↔
      (Operation.arrayStore type).Kept := by
  have plain : isStackShuffleOpcode opcode = false := by
    simp only [isStackShuffleOpcode, Bool.and_eq_false_iff, decide_eq_false_iff_not]
    omega
  have arm : ∀ sources base offset, names.dataflowToStatements opcode ⟨sources, .arrayElement base offset⟩ =
      (stackSources sources).head?.map fun value =>
        store (names.convertLocationToVarRef base) (.field "[]") (pathOf (names.convertLocationToVarRef value)) := by
    intro sources base offset
    rw [dataflowToStatements, if_neg (by omega), if_neg (by omega), if_neg (by omega), if_neg (by omega),
      if_neg (by omega), if_neg (by omega), if_neg (by omega), if_pos ⟨range.1, range.2, rfl⟩]
    cases (stackSources sources).head? <;> rfl
  obtain ⟨enough, rfl⟩ := simulate_single (by simp [FlowLocation.slotted]) simulates
  obtain ⟨stmt, one, rfl⟩ := statements_of_single plain lowers
  rw [sourcesDepth_stackInputs] at enough
  have shape : stmt = store (names.slot (stackLen - typeWidth type - 2)) (.field "[]")
      (pathOf (names.slot (stackLen - 1 - 0))) := by
    rw [FlowLocation.slotted, arm] at one
    rcases width_of_type type with width | width <;> rw [width, Nat.sub_sub, Nat.add_comm] <;> rw [width] at one <;>
      rw [← Option.some.inj one] <;> simp only [FlowLocation.slotted, convertLocationToVarRef, Nat.sub_sub] <;> rfl
  subst shape
  have deep := (le_max_left _ _).trans enough
  refine (correct_storeTop_iff (width_of_type type) deep).trans ?_
  exact ⟨fun width => ⟨width, exact_type⟩, And.left⟩

/-- `sastore` has no arm: it copies the value over the array. -/
theorem not_correct_sastore
    (simulates : simulateDataflow context stackLen
      ⟨kind, 0x56, splitDataflowInfos (stackInputs 1, [.arrayElement (.stackInput 2) (.stackInput 1)])⟩ = .ok dfs)
    (lowers : names.instructionStatements 0x56 dfs = some stmts) :
    ¬ Correct names.clean names.temps stmts (names.effect params stackLen (.arrayStore 7)) := by
  have default : Default 0x56 := default_of_apart (by omega)
  obtain ⟨enough, rfl⟩ := simulate_single (by simp [FlowLocation.slotted]) simulates
  obtain ⟨stmt, one, rfl⟩ := statements_of_single default.plain lowers
  have deep : 3 ≤ stackLen := enough
  have shape : stmt = assign (names.slot (stackLen - 1 - 2)) [pathOf (names.slot (stackLen - 1 - 0))] :=
    (Option.some.inj one).symm
  subst shape
  rw [correct_iff_realizes (.cons (acts_assign_one _ (short_pathOf _)) .nil)]
  intro realizes
  have labels := realizes.env_labelled (p := fun v => v = names.slot (stackLen - 1 - 0))
    (fun v inside same => slot_notMem_clean _ (same ▸ inside)) (slot_notMem_temps (stackLen - 1 - 2))
  have kept : ((Objects.blank (F := PathSegment) (O := CallObject)).parallel
      (.labelled fun v : Variable => v = names.slot (stackLen - 1 - 0))
      (names.effect params stackLen (.arrayStore 7))).env (names.slot (stackLen - 1 - 2)) =
      (State.labelled fun v : Variable => v = names.slot (stackLen - 1 - 0)).env (names.slot (stackLen - 1 - 2)) := rfl
  rw [kept, Objects.run_cons, Objects.run_nil, Objects.step_var, State.set_env_same] at labels
  have inside : () ∈ (Objects.blank (F := PathSegment) (O := CallObject)).readAll
      (.labelled fun v : Variable => v = names.slot (stackLen - 1 - 0))
      (sourcesOf (pathOf (names.slot (stackLen - 1 - 0)))) := ⟨_, List.mem_singleton_self _, rfl⟩
  rw [labels] at inside
  have slots := slot_injective inside
  omega

theorem correct_throw
    (simulates : simulateDataflow context stackLen ⟨kind, 0xbf, [⟨[.stackInput 0], .stackInput 0⟩]⟩ = .ok dfs)
    (lowers : names.instructionStatements 0xbf dfs = some stmts) :
    Correct names.clean names.temps stmts (names.effect params stackLen .throw) := by
  obtain ⟨-, rfl⟩ := simulate_single (by simp [FlowLocation.slotted]) simulates
  obtain ⟨stmt, one, rfl⟩ := statements_of_single rfl lowers
  have shape : stmt = assign names.except [pathOf (names.slot (stackLen - 1 - 0))] := (Option.some.inj one).symm
  subst shape
  rw [correct_iff_realizes (.cons (acts_assign_one _ (short_pathOf _)) .nil)]
  exact realizes_singleton _

theorem statements_of_nil (lowers : names.instructionStatements opcode [] = some stmts) : stmts = [] := by
  rw [instructionStatements] at lowers
  split_ifs at lowers <;> exact (Option.some.inj lowers).symm

/-- Nothing is emitted, and the top of the stack keeps its labels. -/
theorem correct_unary : Correct names.clean names.temps [] (names.effect params stackLen (.compute 1 1)) := by
  rw [correct_iff_realizes .nil]
  intro L H m s _
  have same : m.parallel s (names.effect params stackLen (.compute 1 1)) = s.set (names.slot (stackLen - 1)) (s.env (names.slot (stackLen - 1))) := by
    rw [effect, pushes, List.range_one, List.map_singleton, Objects.parallel_singleton, Objects.run_cons,
      Objects.run_nil, Objects.step_var, operands, List.range_one, List.map_singleton, Objects.readAll_singleton]
    rfl
  rw [same, State.set, Function.update_eq_self]
  exact .refl s

theorem correct_other : Correct names.clean names.temps [] (names.effect params stackLen .other) := by
  rw [correct_iff_realizes .nil]
  exact realizes_nil

/-! ### Shuffles -/

/-- The entry that copies one slot to another. -/
def slotEntry (pair : ℕ × ℕ) : DataflowInfo := ⟨[.stackSlot pair.2], .stackSlot pair.1⟩

theorem shuffleMoves_slotEntry (pairs : List (ℕ × ℕ)) :
    shuffleMoves (pairs.map slotEntry) = (pairs.filter fun pair => pair.2 ≠ pair.1).map slotEntry := by
  rw [shuffleMoves, List.filter_map]
  congr 1
  apply List.filter_congr
  intro pair _
  simp [slotEntry]

theorem mem_savedSlots {pairs : List (ℕ × ℕ)} {n : ℕ} :
    n ∈ savedSlots (pairs.map slotEntry) ↔ (∃ pair ∈ pairs, pair.2 = n) ∧ ∃ pair ∈ pairs, pair.1 = n := by
  have dests : (pairs.map slotEntry).filterMap (fun df => stackSlotIndex df.destination) = pairs.map Prod.fst := by
    rw [List.filterMap_map, ← List.filterMap_eq_map]
    rfl
  have sources : (pairs.map slotEntry).flatMap (fun df => df.sources.filterMap stackSlotIndex) = pairs.map Prod.snd := by
    rw [List.flatMap_map, List.map_eq_flatMap]
    rfl
  simp only [savedSlots, Graph.mem_foldl_pushNew, dests, sources, List.mem_filter, List.not_mem_nil, false_or,
    decide_eq_true_eq, List.mem_map]

theorem correct_moves {pairs : List (ℕ × ℕ)} (apart : (pairs.map Prod.fst).Nodup) :
    Correct names.clean names.temps (names.stackShuffleStatements (pairs.map slotEntry))
      (Objects.copies names.slot pairs) := by
  have temps : ∀ n, names.localVar (.shuffle n) ∈ names.temps := fun n => ⟨n, rfl⟩
  have injective : Function.Injective fun n => names.localVar (.shuffle n) :=
    fun _ _ same => LocalName.shuffle.inj (localVar_inj same)
  let moving := pairs.filter fun pair => pair.2 ≠ pair.1
  let saved := savedSlots (moving.map slotEntry)
  have statements : names.stackShuffleStatements (pairs.map slotEntry) =
      (saved.map fun n => assign (names.localVar (.shuffle n)) [pathOf (names.slot n)]) ++
        moving.map fun pair =>
          assign (names.slot pair.1) [pathOf (if pair.2 ∈ saved then names.localVar (.shuffle pair.2) else names.slot pair.2)] := by
    rw [stackShuffleStatements, shuffleMoves_slotEntry, List.map_map]
    congr 1
    apply List.map_congr_left
    intro pair _
    simp only [Function.comp_apply, slotEntry, List.map_singleton, shuffleOperand, stackSlotIndex]
    split_ifs <;> rfl
  have acts : List.Forall₂ Acts (names.stackShuffleStatements (pairs.map slotEntry))
      (Objects.saves names.slot (fun n => names.localVar (.shuffle n)) saved ++
        Objects.copiesFrom names.slot (fun n => names.localVar (.shuffle n)) saved moving) := by
    rw [statements]
    apply List.rel_append
    · exact acts_map fun n => acts_assign_one _ (short_pathOf _)
    · exact acts_map fun pair => acts_assign_one _ (short_pathOf _)
  rw [correct_iff_realizes acts]
  intro L H m s _
  rw [← m.parallel_copies_filter s slot_injective apart]
  apply m.run_saved s temps slot_notMem_temps injective slot_injective
  intro pair member other inside same
  exact mem_savedSlots.mpr ⟨⟨pair, member, rfl⟩, other, inside, same.symm⟩

/-- `dup*` and `swap`. -/
theorem correct_shuffle {depths : List ℕ} {pops : ℕ} (shuffles : isStackShuffleOpcode opcode = true)
    (consumes : InstructionFlowInfo.consume ⟨kind, opcode, stackShuffleDataflow depths⟩ = pops)
    (simulates : simulateDataflow context stackLen ⟨kind, opcode, stackShuffleDataflow depths⟩ = .ok dfs)
    (lowers : names.instructionStatements opcode dfs = some stmts) :
    Correct names.clean names.temps stmts (names.effect params stackLen (.shuffle pops depths)) := by
  have shape := simulate_shuffle simulates
  rw [consumes] at shape
  let pairs := depths.zipIdx.map fun d => (stackLen - pops + d.2, stackLen - 1 - d.1)
  have entries : dfs = pairs.map slotEntry := by
    rw [shape, List.map_map]
    rfl
  have apart : (pairs.map Prod.fst).Nodup := by
    have firsts : pairs.map Prod.fst = (depths.zipIdx.map Prod.snd).map (stackLen - pops + ·) := by
      rw [List.map_map, List.map_map]
      rfl
    rw [firsts]
    apply List.Nodup.map
    · intro a b same
      exact Nat.add_left_cancel same
    · rw [List.zipIdx_map_snd]
      exact List.nodup_range'
  rw [instructionStatements, if_pos shuffles, entries] at lowers
  obtain rfl := Option.some.inj lowers
  have means : names.effect params stackLen (.shuffle pops depths) = Objects.copies names.slot pairs := by
    rw [Objects.copies, List.map_map]
    rfl
  rw [means]
  exact correct_moves apart

end Families

end FrontendNames

end Ctadl.Jvm
