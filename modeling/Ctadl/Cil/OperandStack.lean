import Ctadl.Cil.Binding

/-! # What an instruction does to the operand stack

Every record of the table, bound at a height of at least its pops, does to the stack what the instruction does: that is
decided on the slots its effects use. A call passes its parameters by the positions of its operands, which are counted in
eight bits.
-/

namespace Ctadl.Cil

open InsEffects (checkPlaces effect outs pops pushes readable resultsOf writable)

namespace Effect

variable {S : Type}

/-- The slots of the parameters of a method call, or of an access to a multi-dimensional array. -/
def passed : Effect S → List S
  | call site => site.args
  | load _ ⟨_, .element indices⟩ => indices
  | store ⟨_, .element indices⟩ src => indices ++ [src]
  | addressOf _ (.element _ indices) => indices
  | new _ _ _ sizes => sizes
  | _ => []

/-- The slot of the function pointer of an indirect call. -/
def callees : Effect S → List S
  | call site => site.kind.reads
  | _ => []

variable {T : Type} (f : S → T) (e : Effect S)

theorem passed_map : (e.map f).passed = e.passed.map f := by
  cases e with
  | load dst src => obtain ⟨root, field⟩ := src; cases field <;> rfl
  | store dst src => obtain ⟨root, field⟩ := dst; cases field <;> simp [Effect.map, Path.map, Field.map, passed]
  | addressOf dst place => cases place <;> rfl
  | _ => rfl

theorem callees_map : (e.map f).callees = e.callees.map f := by
  cases e with
  | call site => exact CallKind.reads_map f site.kind
  | _ => rfl

end Effect

/-- A method call: the signature of the callee, how many operands lie below the parameters and whether the function
pointer lies above them. -/
structure Called where
  sig : MethodSig
  first : ℕ
  indirect : Bool

def called (cx : FlowCx) (ins : Ins) : Option Called :=
  match ins.code with
  | some .call | some .callvirt => (cx.method (token ins)).map fun m => ⟨m.op.sig, m.op.sig.hasThis.toNat, false⟩
  | some .newobj => (cx.method (token ins)).map fun m => ⟨m.op.sig, 0, false⟩
  | some .calli => (cx.callSite (token ins)).map fun sig => ⟨sig, sig.hasThis.toNat, true⟩
  | _ => none

/-- The parameters and the function pointer of a call are where its operands lie from `base` on, and none is left out. -/
structure Passes (flow : InsEffects) (c : Called) (base : ℕ) (caught : Option ℕ) : Prop where
  pops : flow.inputs.length = c.first + c.sig.params.length + c.indirect.toNat
  args : (flow.bindEffects base caught).1.flatMap Effect.passed =
    (List.range c.sig.params.length).map fun k => .stack (base + (c.first + k))
  callee : (flow.bindEffects base caught).1.flatMap Effect.callees =
    if c.indirect then [.stack (base + (flow.inputs.length - 1))] else []

/-- At every height of at least its pops, the instruction does to the stack what it should. -/
def BindsOperands (prefixes : Prefixes) (cx : FlowCx) (ins : Ins) : Prop :=
  let flow := instructionFlow ins prefixes cx
  ∀ h, flow.inputs.length ≤ h → ∀ caught,
    flow.OnStack (h - flow.inputs.length) caught ∧
      ∀ c, called cx ins = some c → Passes flow c (h - flow.inputs.length) caught

section Places

variable (ins : Ins) (prefixes : Prefixes) (cx : FlowCx)

/-- The slots of the record are used as positions. -/
def Checks (flow : InsEffects) : Prop := InsEffects.checkPlaces flow.inputs.length flow.outputs [] flow.effects = true

/-- The record before its opcode is looked at. -/
def emptyFlow : InsEffects := { offset := ins.offset, size := ins.size, code := ins.code, prefixes }

variable {b : InsEffects} {ins prefixes cx}

theorem checkPlaces_cons {inputs outputs : ℕ} {written : List ℕ} {e : Effect Slot} {rest : List (Effect Slot)}
    (reads : ∀ s ∈ e.reads, readable inputs written s) (writes : ∀ s ∈ e.writes, writable outputs written s)
    (later : checkPlaces inputs outputs (written ++ resultsOf e) rest) :
    checkPlaces inputs outputs written (e :: rest) := by
  rw [checkPlaces, List.all_eq_true.mpr reads, List.all_eq_true.mpr writes, later]
  rfl

theorem length_receiverRoles (sig : MethodSig) :
    (receiverRoles sig).length = sig.hasThis.toNat + sig.params.length % 0x10000 := by
  cases this : sig.hasThis <;> simp [receiverRoles, argRoles, this]
  omega

theorem length_argRoles (n : ℕ) : (argRoles n).length = n % 0x10000 := by simp [argRoles]

/-- The slots a call reads. -/
theorem reads_site {kind : CallKind Slot} {method : Option MethodOp} {sig : MethodSig} {receiver result : Option Slot}
    {first inputs : ℕ} {written : List ℕ} (enough : first + sig.params.length % 0x10000 ≤ inputs)
    (this : ∀ s ∈ receiver, readable inputs written s)
    (callee : ∀ s ∈ kind.reads, readable inputs written s) :
    ∀ s ∈ Effect.reads (.call (site prefixes kind method sig receiver first result)), readable inputs written s := by
  intro s inside
  rw [Effect.reads, List.mem_append, List.mem_append] at inside
  rcases inside with (inside | inside) | inside
  · exact this s (Option.mem_toList.mp inside)
  · obtain ⟨k, bound, rfl⟩ := List.mem_map.mp inside
    rw [List.mem_range] at bound
    simp only [readable, decide_eq_true_eq]
    omega
  · exact callee s inside

/-- A call that is alone in its record. -/
theorem checks_site {roles : List Role} {kind : CallKind Slot} {method : Option MethodOp} {sig : MethodSig}
    (enough : sig.hasThis.toNat + sig.params.length % 0x10000 ≤ roles.length)
    (callee : ∀ s ∈ kind.reads, readable roles.length [] s) :
    Checks ((((emptyFlow ins prefixes).pops roles).pushes (if returnsValue sig then 1 else 0)).effect
      (.call (site prefixes kind method sig (thisSlot sig) sig.hasThis.toNat (resultSlot sig)))) := by
  have this : ∀ s ∈ thisSlot sig, readable roles.length [] s := by
    intro s inside
    unfold thisSlot at inside
    split_ifs at inside with hasThis
    · obtain rfl := Option.some.inj inside
      rw [hasThis] at enough
      simp only [Bool.toNat_true] at enough
      simp only [readable, decide_eq_true_eq]
      omega
    · cases inside
  change checkPlaces roles.length (if returnsValue sig then 1 else 0) []
    [.call (site prefixes kind method sig (thisSlot sig) sig.hasThis.toNat (resultSlot sig))] = true
  apply checkPlaces_cons (reads_site enough this callee)
  · cases value : returnsValue sig <;> simp [Effect.writes, site, resultSlot, value, writable]
  · cases value : returnsValue sig <;> simp [Effect.writes, site, resultSlot, value, resultsOf, checkPlaces]

theorem checks_callOrCallvirt (code : Code) (op : MethodOp) : Checks (callOrCallvirt (emptyFlow ins prefixes) prefixes code op) := by
  apply checks_site
  · exact (length_receiverRoles op.sig).ge
  · split_ifs <;> exact nofun

theorem checks_calli (sig : MethodSig) : Checks (calli (emptyFlow ins prefixes) prefixes sig) := by
  apply checks_site
  · rw [List.length_append, length_receiverRoles]
    omega
  · intro s inside
    obtain rfl := List.mem_singleton.mp inside
    simp only [readable, decide_eq_true_eq, List.length_append, List.length_singleton]
    omega

theorem checks_newobj (resolved : ResolvedMethod) : Checks (newobj (emptyFlow ins prefixes) prefixes resolved) := by
  have enough : 0 + resolved.op.sig.params.length % 0x10000 ≤ (argRoles resolved.op.sig.params.length).length := by
    rw [length_argRoles, Nat.zero_add]
  apply checkPlaces_cons (fun s inside => absurd inside List.not_mem_nil)
  · intro s inside
    obtain rfl := List.mem_singleton.mp inside
    rfl
  · apply checkPlaces_cons
    · apply reads_site enough
      · intro s inside
        obtain rfl := Option.some.inj inside
        rfl
      · exact nofun
    · intro s inside
      obtain rfl := List.mem_singleton.mp inside
      rfl
    · rfl

theorem writable_result : ∀ s ∈ [Slot.output 0], writable 1 [] s := by decide

/-- The slots an access to an array reads. -/
theorem readable_indices {inputs count : ℕ} {written : List ℕ} (enough : count < inputs) :
    ∀ s ∈ Slot.input 0 :: indices count, readable inputs written s := by
  intro s inside
  rcases List.mem_cons.mp inside with rfl | inside
  · simp only [readable, decide_eq_true_eq]
    omega
  · obtain ⟨k, bound, rfl⟩ := List.mem_map.mp inside
    rw [List.mem_range] at bound
    simp only [readable, decide_eq_true_eq]
    omega

theorem checks_arrayAccess {code : Code} {array : ArrayMethod} {resolved : ResolvedMethod} {flow : InsEffects}
    (accessed : arrayAccess (emptyFlow ins prefixes) code array resolved = some flow) : Checks flow := by
  unfold arrayAccess at accessed
  have length : ∀ count, count < (indexRoles count).length := fun count => by simp [indexRoles]
  cases array with
  | get =>
    dsimp only at accessed
    split_ifs at accessed
    obtain rfl := Option.some.inj accessed
    exact checkPlaces_cons (readable_indices (length _)) writable_result rfl
  | set =>
    dsimp only at accessed
    split_ifs at accessed with shape
    obtain rfl := Option.some.inj accessed
    simp only [Bool.and_eq_true, decide_eq_true_eq] at shape
    have enough : resolved.op.sig.params.length < (indexRoles (resolved.op.sig.params.length - 1) ++ [Role.value]).length := by
      simp [indexRoles]
      omega
    refine checkPlaces_cons (fun s inside => ?_) (fun s inside => absurd inside List.not_mem_nil) rfl
    rcases List.mem_append.mp inside with inside | inside
    · exact readable_indices (Nat.lt_of_le_of_lt (Nat.sub_le _ 1) enough) s inside
    · obtain rfl := List.mem_singleton.mp inside
      change decide (resolved.op.sig.params.length % 0x100 <
        (indexRoles (resolved.op.sig.params.length - 1) ++ [Role.value]).length) = true
      rw [decide_eq_true_eq]
      omega
  | address =>
    dsimp only at accessed
    split_ifs at accessed
    obtain rfl := Option.some.inj accessed
    exact checkPlaces_cons (readable_indices (length _)) writable_result rfl
  | ctor =>
    dsimp only at accessed
    split_ifs at accessed
    obtain rfl := Option.some.inj accessed
    refine checkPlaces_cons (fun s inside => ?_) writable_result rfl
    obtain ⟨k, bound, rfl⟩ := List.mem_map.mp inside
    rw [List.mem_range] at bound
    change decide (k < (List.replicate resolved.op.sig.params.length Role.size).length) = true
    rw [decide_eq_true_eq, List.length_replicate]
    omega

theorem checks_call (code : Code) : Checks (call (emptyFlow ins prefixes) prefixes code cx ins) := by
  unfold call
  cases cx.method (token ins) with
  | none => rfl
  | some resolved =>
    dsimp only
    split
    · rename_i flow accessed
      obtain ⟨array, -, accessed⟩ := Option.bind_eq_some_iff.mp accessed
      exact checks_arrayAccess accessed
    · split_ifs
      · exact checks_newobj resolved
      · exact checks_callOrCallvirt code resolved.op

theorem checks_fieldAccess (isStatic : Bool) (roles : List Role) (pushed : ℕ) (effect : FieldOp → Effect Slot)
    (known : ∀ f, checkPlaces roles.length pushed [] [effect f] = true)
    (unknown : checkPlaces roles.length pushed []
      [.unresolved ((List.range (roles.length % 0x100)).map .input) ((List.range pushed).map .output) (.unresolvedToken 0)] = true) :
    Checks (fieldAccess (emptyFlow ins prefixes) ins cx isStatic roles pushed effect) := by
  unfold fieldAccess
  dsimp only
  cases cx.field (token ins) isStatic with
  | none => exact unknown
  | some f => exact known f

theorem checks_table (code : Code) : Checks (table (emptyFlow ins prefixes) ins prefixes cx code) := by
  cases code
  all_goals try rfl
  case ret =>
    unfold table
    split_ifs <;> rfl
  case jmp =>
    unfold table
    cases cx.method (token ins) <;> rfl
  case ldftn =>
    unfold table
    cases cx.method (token ins) <;> rfl
  case ldvirtftn =>
    unfold table
    cases cx.method (token ins) <;> rfl
  case ldfld => exact checks_fieldAccess _ _ _ _ (fun _ => rfl) rfl
  case ldflda => exact checks_fieldAccess _ _ _ _ (fun _ => rfl) rfl
  case stfld => exact checks_fieldAccess _ _ _ _ (fun _ => rfl) rfl
  case ldsfld => exact checks_fieldAccess _ _ _ _ (fun _ => rfl) rfl
  case ldsflda => exact checks_fieldAccess _ _ _ _ (fun _ => rfl) rfl
  case stsfld => exact checks_fieldAccess _ _ _ _ (fun _ => rfl) rfl
  case call => exact checks_call .call
  case callvirt => exact checks_call .callvirt
  case newobj => exact checks_call .newobj
  case calli =>
    unfold table callIndirect
    cases cx.callSite (token ins) with
    | none => rfl
    | some sig => exact checks_calli sig

theorem checks_instructionFlow : Checks (instructionFlow ins prefixes cx) := by
  unfold instructionFlow
  dsimp only
  split
  · rfl
  · exact checks_table _

end Places

section Passing

variable {flow : InsEffects} {c : Called} {base n : ℕ} {caught : Option ℕ}

theorem flatMap_bindEffects {slots : ∀ {S : Type}, Effect S → List S}
    (natural : ∀ {S T : Type} (f : S → T) (e : Effect S), slots (e.map f) = (slots e).map f)
    (assign : ∀ {S : Type} (dst src : S), slots (.assign dst [src] .copy) = []) :
    (flow.bindEffects base caught).1.flatMap slots = (flow.effects.flatMap slots).map (flow.bindSlot base caught) := by
  have copies : (flow.outs base).copies.flatMap slots = [] := by
    rw [outs, InsEffects.foldl_addOut, List.flatMap_map]
    exact List.flatMap_eq_nil_iff.mpr fun j _ => assign _ _
  rw [InsEffects.bindEffects, List.flatMap_append, copies, List.append_nil, List.flatMap_map, List.map_flatMap]
  exact List.flatMap_congr fun e _ => natural _ e

/-- The parameters of a call are where its operands lie if they are the operands it takes for them. -/
theorem passes_iff {ks ms : List ℕ} (args : flow.effects.flatMap Effect.passed = ks.map .input)
    (callee : flow.effects.flatMap Effect.callees = ms.map .input) : Passes flow c base caught ↔
      flow.inputs.length = c.first + c.sig.params.length + c.indirect.toNat ∧
        ks = (List.range c.sig.params.length).map (c.first + ·) ∧ ms = if c.indirect then [flow.inputs.length - 1] else [] := by
  have depth : Function.Injective fun i => Var.stack (base + i) := fun i j same => Nat.add_left_cancel (Var.stack.inj same)
  have bound : ∀ ks : List ℕ, (ks.map Slot.input).map (flow.bindSlot base caught) = ks.map fun i => .stack (base + i) := by
    intro ks
    rw [List.map_map]
    rfl
  have argVars : (flow.bindEffects base caught).1.flatMap Effect.passed = ks.map fun i => .stack (base + i) := by
    rw [flatMap_bindEffects Effect.passed_map fun _ _ => rfl, args, bound]
  have calleeVars : (flow.bindEffects base caught).1.flatMap Effect.callees = ms.map fun i => .stack (base + i) := by
    rw [flatMap_bindEffects Effect.callees_map fun _ _ => rfl, callee, bound]
  have params : (List.range c.sig.params.length).map (fun k => Var.stack (base + (c.first + k))) =
      ((List.range c.sig.params.length).map (c.first + ·)).map fun i => .stack (base + i) := by
    rw [List.map_map]
    rfl
  have pointer : (if c.indirect then [Var.stack (base + (flow.inputs.length - 1))] else []) =
      (if c.indirect then [flow.inputs.length - 1] else []).map fun i => .stack (base + i) := by
    split_ifs <;> rfl
  constructor
  · rintro ⟨pops, args, callee⟩
    rw [argVars, params] at args
    rw [calleeVars, pointer] at callee
    exact ⟨pops, List.map_injective_iff.mpr depth args, List.map_injective_iff.mpr depth callee⟩
  · rintro ⟨pops, args, callee⟩
    exact ⟨pops, by rw [argVars, params, args], by rw [calleeVars, pointer, callee]⟩

/-- Counting in eight bits leaves no parameter out of at most 255. -/
theorem range_mod_iff {f : ℕ → ℕ} : (List.range (n % 0x100)).map f = (List.range n).map f ↔ n ≤ 255 := by
  constructor
  · intro same
    have lengths := congrArg List.length same
    simp only [List.length_map, List.length_range] at lengths
    omega
  · intro few
    rw [Nat.mod_eq_of_lt (by omega)]

variable {ins : Ins} {prefixes : Prefixes} {cx : FlowCx}

theorem passed_callOrCallvirt (code : Code) (op : MethodOp) :
    (callOrCallvirt (emptyFlow ins prefixes) prefixes code op).effects.flatMap Effect.passed =
      ((List.range (op.sig.params.length % 0x100)).map (op.sig.hasThis.toNat + ·)).map .input := by
  simp [callOrCallvirt, emptyFlow, effect, pushes, pops, Effect.passed, site]

theorem passes_callOrCallvirt (code : Code) (op : MethodOp) :
    Passes (callOrCallvirt (emptyFlow ins prefixes) prefixes code op) ⟨op.sig, op.sig.hasThis.toNat, false⟩ base caught ↔
      op.sig.params.length ≤ 255 := by
  have callee : (callOrCallvirt (emptyFlow ins prefixes) prefixes code op).effects.flatMap Effect.callees = [].map .input := by
    simp only [callOrCallvirt, emptyFlow, effect, pushes, pops, List.nil_append,
      List.flatMap_cons, List.flatMap_nil, Effect.callees, site, List.append_nil]
    split_ifs <;> rfl
  have length : (callOrCallvirt (emptyFlow ins prefixes) prefixes code op).inputs.length =
      op.sig.hasThis.toNat + op.sig.params.length % 0x10000 := length_receiverRoles op.sig
  rw [passes_iff (passed_callOrCallvirt code op) callee, length, range_mod_iff]
  simp only [Bool.toNat_false, Bool.false_eq_true, if_false, and_true]
  omega

theorem passes_newobj (resolved : ResolvedMethod) :
    Passes (newobj (emptyFlow ins prefixes) prefixes resolved) ⟨resolved.op.sig, 0, false⟩ base caught ↔
      resolved.op.sig.params.length ≤ 255 := by
  have args : (newobj (emptyFlow ins prefixes) prefixes resolved).effects.flatMap Effect.passed =
      ((List.range (resolved.op.sig.params.length % 0x100)).map (0 + ·)).map .input := by
    simp [newobj, emptyFlow, effect, pushes, pops, Effect.passed, site]
  have callee : (newobj (emptyFlow ins prefixes) prefixes resolved).effects.flatMap Effect.callees = [].map .input := rfl
  have length : (newobj (emptyFlow ins prefixes) prefixes resolved).inputs.length = resolved.op.sig.params.length % 0x10000 :=
    length_argRoles _
  rw [passes_iff args callee, length, range_mod_iff]
  simp only [Bool.toNat_false, Bool.false_eq_true, if_false, and_true]
  omega

theorem passes_calli (sig : MethodSig) :
    Passes (calli (emptyFlow ins prefixes) prefixes sig) ⟨sig, sig.hasThis.toNat, true⟩ base caught ↔
      sig.hasThis.toNat + sig.params.length ≤ 255 := by
  have length : (calli (emptyFlow ins prefixes) prefixes sig).inputs.length =
      sig.hasThis.toNat + sig.params.length % 0x10000 + 1 := by
    change (receiverRoles sig ++ [Role.callee]).length = _
    rw [List.length_append, length_receiverRoles]
    rfl
  have args : (calli (emptyFlow ins prefixes) prefixes sig).effects.flatMap Effect.passed =
      ((List.range (sig.params.length % 0x100)).map (sig.hasThis.toNat + ·)).map .input := by
    simp [calli, emptyFlow, effect, pushes, pops, Effect.passed, site]
  have callee : (calli (emptyFlow ins prefixes) prefixes sig).effects.flatMap Effect.callees =
      [((calli (emptyFlow ins prefixes) prefixes sig).inputs.length - 1) % 0x100].map .input := rfl
  rw [passes_iff args callee, length, range_mod_iff]
  simp only [Bool.toNat_true, if_true, List.cons.injEq, and_true]
  omega

theorem indices_eq (count : ℕ) : indices count = ((List.range (count % 0x100)).map (1 + ·)).map .input := by
  rw [indices, List.map_map]
  exact List.map_congr_left fun k _ => congrArg Slot.input (Nat.add_comm k 1)

/-- The value that is stored comes behind the indices. -/
theorem range_set_iff (some' : 1 ≤ n) : (List.range ((n - 1) % 0x100)).map (1 + ·) ++ [n % 0x100] = (List.range n).map (1 + ·) ↔
    n ≤ 255 := by
  obtain ⟨m, rfl⟩ := Nat.exists_eq_add_of_le' some'
  rw [List.range_succ, List.map_append, List.map_singleton, Nat.add_sub_cancel]
  constructor
  · intro same
    have last := (List.append_inj' same rfl).2
    have lengths := congrArg List.length (List.append_inj' same rfl).1
    simp only [List.length_map, List.length_range] at lengths
    simp only [List.cons.injEq, and_true] at last
    omega
  · intro few
    rw [Nat.mod_eq_of_lt (by omega), Nat.mod_eq_of_lt (by omega), Nat.add_comm m 1]

/-- An access to an array is alone in its record. -/
theorem passes_single {roles : List Role} {pushed first : ℕ} {sig : MethodSig} {e : Effect Slot} {ks : List ℕ}
    (args : e.passed = ks.map .input) (callee : e.callees = []) :
    Passes ((((emptyFlow ins prefixes).pops roles).pushes pushed).effect e) ⟨sig, first, false⟩ base caught ↔
      roles.length = first + sig.params.length ∧ ks = (List.range sig.params.length).map (first + ·) := by
  have allArgs : ((((emptyFlow ins prefixes).pops roles).pushes pushed).effect e).effects.flatMap Effect.passed = ks.map .input :=
    (List.append_nil _).trans args
  have noCallee : ((((emptyFlow ins prefixes).pops roles).pushes pushed).effect e).effects.flatMap Effect.callees = [].map .input :=
    (List.append_nil _).trans callee
  rw [passes_iff allArgs noCallee]
  simp only [Bool.toNat_false, Bool.false_eq_true, if_false, and_true, Nat.add_zero]
  rfl

theorem passes_arrayAccess {code : Code} {array : ArrayMethod} {resolved : ResolvedMethod} {flow : InsEffects}
    (accessed : arrayAccess (emptyFlow ins prefixes) code array resolved = some flow) :
    Passes flow ⟨resolved.op.sig, if code = .newobj then 0 else resolved.op.sig.hasThis.toNat, false⟩ base caught ↔
      resolved.op.sig.params.length ≤ 255 := by
  have first : ((code = .call || code = .callvirt) && resolved.op.sig.hasThis) = true →
      (if code = .newobj then 0 else resolved.op.sig.hasThis.toNat) = 1 := by
    intro isCall
    simp only [Bool.and_eq_true, Bool.or_eq_true, decide_eq_true_eq] at isCall
    rcases isCall with ⟨rfl | rfl, hasThis⟩ <;> simp [hasThis]
  have length : (indexRoles resolved.op.sig.params.length).length = 1 + resolved.op.sig.params.length := by
    simp [indexRoles, Nat.add_comm]
  unfold arrayAccess at accessed
  cases array with
  | get =>
    dsimp only at accessed
    split_ifs at accessed with shape
    obtain rfl := Option.some.inj accessed
    rw [Bool.and_eq_true] at shape
    have args : Effect.passed (.load (.output 0) (path (.input 0) (.element (indices resolved.op.sig.params.length)))) =
        ((List.range (resolved.op.sig.params.length % 0x100)).map (1 + ·)).map .input := indices_eq _
    rw [first shape.1, passes_single args rfl, range_mod_iff]
    exact and_iff_right length
  | set =>
    dsimp only at accessed
    split_ifs at accessed with shape
    obtain rfl := Option.some.inj accessed
    rw [Bool.and_eq_true, Bool.and_eq_true, decide_eq_true_eq] at shape
    have args : Effect.passed (.store (path (.input 0) (.element (indices (resolved.op.sig.params.length - 1))))
        (.input (resolved.op.sig.params.length % 0x100))) =
        ((List.range ((resolved.op.sig.params.length - 1) % 0x100)).map (1 + ·) ++
          [resolved.op.sig.params.length % 0x100]).map .input := by
      rw [List.map_append, ← indices_eq]
      rfl
    have single := @passes_single base caught ins prefixes (indexRoles (resolved.op.sig.params.length - 1) ++ [.value]) 0 1
      resolved.op.sig _ _ args rfl
    rw [first shape.1.1]
    refine single.trans ?_
    rw [range_set_iff shape.1.2]
    apply and_iff_right
    rw [List.length_append, indexRoles, List.length_cons, List.length_replicate, List.length_singleton]
    omega
  | address =>
    dsimp only at accessed
    split_ifs at accessed with shape
    obtain rfl := Option.some.inj accessed
    rw [Bool.and_eq_true] at shape
    have args : Effect.passed (.addressOf (.output 0) (.element (.input 0) (indices resolved.op.sig.params.length))) =
        ((List.range (resolved.op.sig.params.length % 0x100)).map (1 + ·)).map .input := indices_eq _
    rw [first shape.1, passes_single args rfl, range_mod_iff]
    exact and_iff_right length
  | ctor =>
    dsimp only at accessed
    split_ifs at accessed with shape
    obtain rfl := Option.some.inj accessed
    have args : Effect.passed (.new (.output 0) .array resolved.declaring
        ((List.range (resolved.op.sig.params.length % 0x100)).map Slot.input)) =
        ((List.range (resolved.op.sig.params.length % 0x100)).map (0 + ·)).map .input := by
      simp [Effect.passed]
    rw [if_pos shape, passes_single args rfl, range_mod_iff]
    apply and_iff_right
    rw [List.length_replicate, Nat.zero_add]

/-- What a call needs for its operands to be counted in eight bits. -/
def Called.few (c : Called) : Prop := c.sig.params.length + (if c.indirect then c.first else 0) ≤ 255

theorem passes_call {code : Code} {resolved : ResolvedMethod} (known : cx.method (token ins) = some resolved) : Passes (call (emptyFlow ins prefixes) prefixes code cx ins)
      ⟨resolved.op.sig, if code = .newobj then 0 else resolved.op.sig.hasThis.toNat, false⟩ base caught ↔
      resolved.op.sig.params.length ≤ 255 := by
  unfold call
  rw [known]
  dsimp only
  split
  · rename_i flow accessed
    obtain ⟨array, -, accessed⟩ := Option.bind_eq_some_iff.mp accessed
    exact passes_arrayAccess accessed
  · split_ifs with ctor
    · exact passes_newobj resolved
    · exact passes_callOrCallvirt code resolved.op

theorem instructionFlow_of_code {code : Code} (known : ins.code = some code) :
    instructionFlow ins prefixes cx = table (emptyFlow ins prefixes) ins prefixes cx code := by
  unfold instructionFlow
  dsimp only
  split
  · rename_i undefined
    exact nomatch undefined.symm.trans known
  · rename_i code' known'
    obtain rfl : code' = code := Option.some.inj (known'.symm.trans known)
    rfl

/-- A call passes its operands by their positions exactly if they can be counted. -/
theorem passes_called (calls : called cx ins = some c) : Passes (instructionFlow ins prefixes cx) c base caught ↔ c.few := by
  unfold called at calls
  split at calls
  · rename_i known
    obtain ⟨resolved, resolves, rfl⟩ := Option.map_eq_some_iff.mp calls
    rw [instructionFlow_of_code known]
    exact passes_call resolves
  · rename_i known
    obtain ⟨resolved, resolves, rfl⟩ := Option.map_eq_some_iff.mp calls
    rw [instructionFlow_of_code known]
    exact passes_call resolves
  · rename_i known
    obtain ⟨resolved, resolves, rfl⟩ := Option.map_eq_some_iff.mp calls
    rw [instructionFlow_of_code known]
    exact passes_call resolves
  · rename_i known
    obtain ⟨sig, resolves, rfl⟩ := Option.map_eq_some_iff.mp calls
    have flow : instructionFlow ins prefixes cx = calli (emptyFlow ins prefixes) prefixes sig := by
      rw [instructionFlow_of_code known, table, callIndirect, resolves]
    rw [flow, passes_calli, Called.few, if_pos rfl, Nat.add_comm]
  · exact nomatch calls

/-- Every instruction does to the stack what it should, unless it is a call with more operands than can be counted. -/
theorem bindsOperands_iff (prefixes : Prefixes) (cx : FlowCx) (ins : Ins) :
    BindsOperands prefixes cx ins ↔ ∀ c, called cx ins = some c → c.few := by
  constructor
  · intro binds c calls
    exact (passes_called calls).mp ((binds _ le_rfl none).2 c calls)
  · intro few h _ caught
    exact ⟨(InsEffects.wellPlaced_of_check checks_instructionFlow).onStack _ caught,
      fun c calls => (passes_called calls).mpr (few c calls)⟩

/-- A module in which every method has one signature, and a call in it. -/
def oneMethod (sig : MethodSig) : FlowCx where
  field := fun _ _ => none
  method := fun _ => some { op := ⟨0x0A000001, sig⟩ }
  callSite := fun _ => none
  isValueType := fun _ => none
  methodSig := ⟨false, .void, []⟩

def callIt : Ins := ⟨0, 5, some .call, .token 0x0A000001⟩

theorem instructionFlow_callIt (sig : MethodSig) : instructionFlow callIt {} (oneMethod sig) =
    callOrCallvirt (emptyFlow callIt {}) {} .call ⟨0x0A000001, sig⟩ := rfl

/-- A call of a static method of 256 integers pops 256 operands and passes none. -/
theorem manyParams_not_bound :
    let cx := oneMethod ⟨false, .void, List.replicate 256 .i4⟩
    (instructionFlow callIt {} cx).inputs.length = 256 ∧
      (instructionFlow callIt {} cx).effects.flatMap Effect.passed = [] ∧ ¬ BindsOperands {} cx callIt := by
  have many : (List.replicate 256 TypeSig.i4).length = 256 := List.length_replicate
  generalize List.replicate 256 TypeSig.i4 = params at many
  intro cx
  have pops : (instructionFlow callIt {} cx).inputs.length = 0 + params.length % 0x10000 :=
    length_receiverRoles ⟨false, .void, params⟩
  refine ⟨by rw [pops, many], ?_, fun binds => ?_⟩
  · rw [instructionFlow_callIt, passed_callOrCallvirt, many]
    rfl
  · have few : params.length + 0 ≤ 255 := (passes_called rfl).mp ((binds _ le_rfl none).2 ⟨⟨false, .void, params⟩, 0, false⟩ rfl)
    omega

end Passing

end Ctadl.Cil
