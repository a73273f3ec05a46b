import Ctadl.Codegen.Arguments
import Ctadl.Jvm.Call
import Mathlib.Control.Traversable.Instances
import Mathlib.Data.List.Range

/-! # Arguments against formals

The lowered call passes one argument per operand-stack slot, and the callee reads its local slots through
`ParameterSlotMap`. The two agree exactly on descriptors without a long or double and a slot count the reader
decodes right; what a wide parameter in the last place passes too much has no formal to reach.
-/

namespace Ctadl.Jvm

open Cir Codegen Facts
open Collections (bind_eq_ok)

/-! ## Locals -/

theorem internLocal_spec (locals : List String) (name : String) :
    locals <+: (internLocal locals name).1 ∧ (internLocal locals name).1[(internLocal locals name).2]? = some name := by
  by_cases known : name ∈ locals
  · have below := List.idxOf_lt_length_iff.mpr known
    simp [internLocal, known, List.getElem?_eq_getElem below]
  · simp [internLocal, known]

private theorem getElem?_of_initial {l m : List String} {idx : ℕ} {name : String} (before : l <+: m)
    (at_idx : l[idx]? = some name) : m[idx]? = some name := by
  obtain ⟨rest, rfl⟩ := before
  have below := (List.getElem?_eq_some_iff.mp at_idx).1
  rw [List.getElem?_append_left below, at_idx]

/-- Every reference stands for the local named after its location. -/
def Named (locals : List String) (refs : List VariableRef) (locs : List Location) : Prop :=
  List.Forall₂ (fun ref loc => ∃ idx, ref = .new (.localVar idx) ∧ locals[idx]? = some (localName loc)) refs locs

theorem Named.mono {locals more : List String} {refs : List VariableRef} {locs : List Location}
    (named : Named locals refs locs) (before : locals <+: more) : Named more refs locs := by
  refine named.imp ?_
  rintro ref loc ⟨idx, rfl, at_idx⟩
  exact ⟨idx, rfl, getElem?_of_initial before at_idx⟩

theorem convertLocations_spec (locs : List Location) (locals : List String) :
    locals <+: (convertLocations locs locals).1 ∧
      Named (convertLocations locs locals).1 (convertLocations locs locals).2 locs := by
  induction locs generalizing locals with
  | nil => exact ⟨List.prefix_rfl, .nil⟩
  | cons loc rest ih =>
    obtain ⟨before, at_idx⟩ := internLocal_spec locals (localName loc)
    obtain ⟨after, named⟩ := ih (internLocal locals (localName loc)).1
    exact ⟨before.trans after, .cons ⟨_, rfl, getElem?_of_initial after at_idx⟩ named⟩

/-! ## Operands of the lowered call -/

/-- The statement passes exactly these locations, in order, and returns into the two temporaries. -/
structure LoweredCall.Lowers (lowered : LoweredCall) (locs : List Location) : Prop where
  shape : ∃ info style rets args refs, lowered.statement = .callAssign info style rets args ∧
    passedArguments style args = refs.map (fun ref => .path (.ofRef ref)) ∧ Named lowered.locals refs locs ∧
    ∀ ret ∈ rets, ∃ idx, ret = .new (.localVar idx) ∧
      (lowered.locals[idx]? = some "retval" ∨ lowered.locals[idx]? = some "throwval")

/-- The lowered call passes a stack slot under an index. -/
def LoweredCall.Passes (lowered : LoweredCall) (i : FormalIndex) (slot : ℕ) : Prop :=
  ∃ idx, (i, .ofRef (.new (.localVar idx))) ∈ actualParam lowered.statement ∧
    lowered.locals[idx]? = some (localName (.stackSlot slot))

private theorem repr_injective {m n : ℕ} (same : m.repr = n.repr) : m = n := by
  have digits := congrArg String.toList same
  rw [Nat.toList_repr, Nat.toList_repr] at digits
  have read := congrArg (Nat.ofDigitChars 10 · 0) digits
  simpa using read

theorem localName_stackSlot_inj {m n : ℕ} (same : localName (.stackSlot m) = localName (.stackSlot n)) : m = n :=
  repr_injective ((String.append_right_inj _).mp same)

private theorem localName_ne_temporary {n : ℕ} {name : String} (temporary : name = "retval" ∨ name = "throwval") :
    name ≠ localName (.stackSlot n) := by
  intro same
  have letters := congrArg (fun s : String => s.toList.head?) same
  rcases temporary with rfl | rfl <;> simp [localName] at letters

/-- The index a slot is passed under is its position among the operands. -/
theorem LoweredCall.Lowers.passes_iff {lowered : LoweredCall} {slots : List ℕ} {i : FormalIndex} {slot : ℕ}
    (lowers : lowered.Lowers (slots.map .stackSlot)) (few : slots.length ≤ MAX_FORMAL_INDEX + 1) :
    lowered.Passes i slot ↔ ∃ j : ℕ, i = j ∧ slots[j]? = some slot := by
  obtain ⟨info, style, rets, args, refs, statement, passed, named, temporaries⟩ := lowers.shape
  have same_length : refs.length = slots.length := by simpa using named.length_eq
  have few' : (passedArguments style args).length ≤ MAX_FORMAL_INDEX + 1 := by rw [passed]; simpa [same_length] using few
  rw [Passes]
  simp only [statement, mem_actualParam_iff few', passed]
  constructor
  · rintro ⟨idx, ⟨j, rfl, arg, at_j, vertex⟩ | ⟨j, -, ret, at_j, same⟩, named_idx⟩
    · -- the local of an operand carries its slot's name
      obtain ⟨ref, ref_at, rfl⟩ : ∃ ref, refs[j]? = some ref ∧ Exp.path (.ofRef ref) = arg := by
        simpa [List.getElem?_map, Option.map_eq_some_iff] using at_j
      obtain ⟨below, rfl⟩ := List.getElem?_eq_some_iff.mp ref_at
      have below' : j < slots.length := same_length ▸ below
      obtain ⟨idx', local_ref, at_idx⟩ := List.forall₂_iff_get.mp named |>.2 j below (by simpa using below')
      have base : refs[j] = .new (.localVar idx) := congrArg AccessPath.base (Option.some.inj vertex)
      have same_idx : idx' = idx := by simpa [VariableRef.new] using local_ref.symm.trans base
      simp only [List.get_eq_getElem, List.getElem_map] at at_idx
      rw [same_idx, named_idx] at at_idx
      have same_slot := localName_stackSlot_inj (Option.some.inj at_idx)
      exact ⟨j, rfl, same_slot ▸ List.getElem?_eq_getElem below'⟩
    · -- a result is returned into a temporary of another name
      obtain ⟨idx', rfl, temporary⟩ := temporaries ret (List.mem_of_getElem? at_j)
      have same_idx : idx = idx' := by simpa [AccessPath.ofRef, VariableRef.new] using congrArg AccessPath.base same
      rw [← same_idx, named_idx] at temporary
      exact absurd rfl (localName_ne_temporary (temporary.imp Option.some.inj Option.some.inj))
  · rintro ⟨j, rfl, at_j⟩
    obtain ⟨below, rfl⟩ := List.getElem?_eq_some_iff.mp at_j
    have below' : j < refs.length := same_length ▸ below
    obtain ⟨idx, local_ref, at_idx⟩ := List.forall₂_iff_get.mp named |>.2 j below' (by simpa using below)
    refine ⟨idx, .inl ⟨j, rfl, .path (.ofRef refs[j]), ?_, ?_⟩, by simpa using at_idx⟩
    · simp [List.getElem?_map, List.getElem?_eq_getElem below']
    · simpa [Exp.accessPath] using congrArg AccessPath.ofRef local_ref

/-- A lowered call passes the references codegen inserts, then the arguments. -/
theorem callStatement_lowers {span : ℕ} {style : CallStyle} {ext : Option Extern} {call : CallInfo}
    {locals : List String} {inserted : List VariableRef} {locs : List Location}
    (passed : ∀ args, passedArguments style args = inserted.map (fun ref => .path (.ofRef ref)) ++ args)
    (named : Named locals inserted locs) :
    (callStatement span style ext call locals).Lowers (locs ++ call.arguments) := by
  obtain ⟨before, args_named⟩ := convertLocations_spec call.arguments locals
  obtain ⟨ret_before, at_ret⟩ := internLocal_spec (convertLocations call.arguments locals).1 "retval"
  obtain ⟨throw_before, at_throw⟩ := internLocal_spec
    (internLocal (convertLocations call.arguments locals).1 "retval").1 "throwval"
  have after := ret_before.trans throw_before
  refine ⟨span, style, _, _, inserted ++ (convertLocations call.arguments locals).2, rfl, ?_, ?_, ?_⟩
  · rw [passed, List.map_append]
  · exact List.rel_append (named.mono (before.trans after)) (args_named.mono after)
  · intro ret mem
    rcases List.mem_pair.mp mem with rfl | rfl
    · exact ⟨_, rfl, .inl (getElem?_of_initial throw_before at_ret)⟩
    · exact ⟨_, rfl, .inr at_throw⟩

private theorem named_receiver (recv : Location) (locals : List String) :
    Named (convertLocationToVarRef recv locals).1 [(convertLocationToVarRef recv locals).2] [recv] :=
  .cons ⟨_, rfl, (internLocal_spec locals (localName recv)).2⟩ .nil

/-- Whether the invoked method has a receiver. -/
def CallKind.isInstance : CallKind → Bool
  | .virtual | .special | .interface => true
  | .static | .dynamic => false

/-- A call that declares the method it names passes the receiver, if any, and the arguments. -/
theorem lowerCall_lowers {enclosing : Option EnclosingClass} {span : ℕ} {call : CallInfo} {locals : List String}
    {lowered : LoweredCall} {ext : Extern} (lowers : lowerCall enclosing span call locals = some lowered)
    (names : lowered.ext = some ext) (receiver : call.receiver.isSome = call.callKind.isInstance) :
    lowered.Lowers (call.receiver.toList ++ call.arguments) ∧ call.descriptor = some ext.descriptor ∧
      ext.params = jvmDescriptorToParams ext.descriptor call.callKind.isInstance := by
  obtain ⟨target, _, dynamicName, dynamicType, kind, _, recv, args, _⟩ := call
  cases recv with
  | none =>
    cases kind with
    | virtual | special | interface => simp [CallKind.isInstance] at receiver
    | dynamic =>
      simp only [lowerCall, Option.bind_eq_bind, Option.bind_eq_some_iff, Option.pure_def, Option.some.injEq] at lowers
      obtain ⟨name, -, descr, rfl, rfl⟩ := lowers
      obtain rfl := Option.some.inj names
      exact ⟨callStatement_lowers (fun _ => (List.nil_append _).symm) .nil, rfl, rfl⟩
    | static =>
      simp only [lowerCall, Option.bind_eq_bind, Option.bind_eq_some_iff, Option.pure_def, Option.some.injEq] at lowers
      obtain ⟨target, rfl, rfl⟩ := lowers
      obtain rfl := Option.some.inj names
      exact ⟨callStatement_lowers (fun _ => (List.nil_append _).symm) .nil, rfl, rfl⟩
  | some recv =>
    have inserted := named_receiver recv locals
    cases kind with
    | static | dynamic => simp [CallKind.isInstance] at receiver
    | special | interface =>
      simp only [lowerCall, Option.bind_eq_bind, Option.bind_eq_some_iff, Option.pure_def, reduceCtorEq, false_and,
        if_false, Option.some.injEq] at lowers
      obtain ⟨target, rfl, rfl⟩ := lowers
      obtain rfl := Option.some.inj names
      exact ⟨callStatement_lowers (fun _ => rfl) inserted, rfl, rfl⟩
    | virtual =>
      simp only [lowerCall, Option.bind_eq_bind, Option.bind_eq_some_iff, Option.pure_def, true_and] at lowers
      obtain ⟨target, rfl, lowers⟩ := lowers
      by_cases handle : isMethodHandleInvoke ("L" ++ target.className ++ ";") target.methodName = true
      · -- a method handle names no method
        simp only [handle, if_true, Option.some.injEq] at lowers
        simp [← lowers, callStatement] at names
      · simp only [handle, if_false, Option.some.injEq, Bool.false_eq_true] at lowers
        obtain rfl := lowers
        obtain rfl := Option.some.inj names
        exact ⟨callStatement_lowers (fun _ => rfl) inserted, rfl, rfl⟩

/-! ## Decoded operands -/

/-- The location of an operand at a height of the stack. -/
def Location.atHeight (stackLen : ℕ) : Location → Location
  | .stackInput depth => .stackSlot (stackLen - 1 - depth)
  | loc => loc

theorem rewriteOperand_ok {what : String} {context : InstructionContext} {stackLen consumed : ℕ} {loc out : Location}
    (ok : rewriteOperand what context stackLen consumed loc = .ok out) :
    out = loc.atHeight stackLen ∧ ∀ depth, loc = .stackInput depth → depth < stackLen := by
  cases loc with
  | stackInput depth =>
    simp only [rewriteOperand] at ok
    split_ifs at ok with outside
    obtain rfl := Except.ok.inj ok
    exact ⟨rfl, fun _ same => by cases same; omega⟩
  | stackSlot | stackOutput =>
    obtain rfl := Except.ok.inj ok
    exact ⟨rfl, nofun⟩

theorem mapM_rewriteOperand_ok {what : String} {context : InstructionContext} {stackLen consumed : ℕ}
    {locs outs : List Location} (ok : locs.mapM (rewriteOperand what context stackLen consumed) = .ok outs) :
    outs = locs.map (·.atHeight stackLen) ∧ ∀ depth, .stackInput depth ∈ locs → depth < stackLen := by
  induction locs generalizing outs with
  | nil =>
    obtain rfl := Except.ok.inj ok
    exact ⟨rfl, nofun⟩
  | cons loc rest ih =>
    rw [List.mapM_cons] at ok
    cases head : rewriteOperand what context stackLen consumed loc with
    | error e => simp [head, bind, Except.bind] at ok
    | ok out =>
      cases tail : rest.mapM (rewriteOperand what context stackLen consumed) with
      | error e => simp [head, tail, bind, Except.bind] at ok
      | ok outs' =>
        obtain ⟨rfl, bound⟩ := rewriteOperand_ok head
        obtain ⟨rfl, bounds⟩ := ih tail
        obtain rfl : _ = outs := by simpa [head, tail, bind, Except.bind, pure, Except.pure] using ok
        refine ⟨rfl, fun depth mem => ?_⟩
        rcases List.mem_cons.mp mem with same | mem
        · exact bound depth same.symm
        · exact bounds depth mem

/-- Simulation replaces depths that are inside the stack and changes nothing else but the result. -/
theorem simulateCall_ok {context : InstructionContext} {stackLen height : ℕ} {call out : CallInfo}
    (ok : simulateCall context stackLen call = .ok (out, height)) :
    out.receiver.toList ++ out.arguments = (call.receiver.toList ++ call.arguments).map (·.atHeight stackLen) ∧
      (∀ depth, .stackInput depth ∈ call.receiver.toList ++ call.arguments → depth < stackLen) ∧
      out.receiver.isSome = call.receiver.isSome ∧ out.callKind = call.callKind ∧ out.descriptor = call.descriptor := by
  cases recv : call.receiver.mapM (rewriteOperand "receiver" context stackLen call.stackSlotsConsumed) with
  | error e => simp [simulateCall, recv, bind, Except.bind] at ok
  | ok receiver =>
    cases args : call.arguments.mapM (rewriteOperand "call argument" context stackLen call.stackSlotsConsumed) with
    | error e => simp [simulateCall, recv, args, bind, Except.bind] at ok
    | ok arguments =>
      simp only [simulateCall, recv, args, bind, Except.bind, pure, Except.pure] at ok
      split_ifs at ok
      obtain ⟨rfl, -⟩ := Prod.mk.inj (Except.ok.inj ok)
      obtain ⟨rfl, bounds⟩ := mapM_rewriteOperand_ok args
      have receiver_ok : receiver = call.receiver.map (·.atHeight stackLen) ∧
          ∀ depth, call.receiver = some (.stackInput depth) → depth < stackLen := by
        cases present : call.receiver with
        | none =>
          rw [present] at recv
          obtain rfl := Except.ok.inj recv
          exact ⟨rfl, nofun⟩
        | some loc =>
          rw [present] at recv
          cases rewritten : rewriteOperand "receiver" context stackLen call.stackSlotsConsumed loc with
          | error e => simp [rewritten, Option.mapM] at recv
          | ok out =>
            obtain ⟨rfl, bound⟩ := rewriteOperand_ok rewritten
            obtain rfl : _ = receiver := by simpa [rewritten, Option.mapM] using recv
            exact ⟨rfl, fun depth same => bound depth (Option.some.inj same)⟩
      obtain ⟨rfl, bound⟩ := receiver_ok
      refine ⟨?_, ?_, by simp, rfl, rfl⟩
      · cases call.receiver <;> simp
      · intro depth mem
        rcases List.mem_append.mp mem with mem | mem
        · exact bound depth (Option.mem_toList.mp mem)
        · exact bounds depth mem

private theorem ok_of_toOption {α : Type} {result : ClassFileResult α} {out : α} (some_out : result.toOption = some out) :
    result = .ok out := by
  cases result with
  | error e => cases some_out
  | ok a => exact congrArg _ (Option.some.inj some_out)

/-- Whether an invoke opcode has a receiver. -/
def invokeIsInstance (opcode : ℕ) : Bool := opcode = 0xb6 || opcode = 0xb7 || opcode = 0xb9

/-- What an invoke decodes to: its operands are the slots of the receiver and of the parameters as counted. -/
structure CallInfo.Decoded (code : List UInt8) (pc opcode : ℕ) (call : CallInfo) (operands : ℕ) : Prop where
  operands_eq : call.receiver.toList ++ call.arguments = buildArgs operands
  receiver : call.receiver.isSome = call.callKind.isInstance
  counted : ∀ descriptor, call.descriptor = some descriptor → call.callKind.isInstance = invokeIsInstance opcode ∧
    if opcode = 0xb9 then ∃ count, readU8 code (pc + 3) = .ok count ∧ operands = count - 1 + 1
    else operands = decodedParamSlots descriptor + (invokeIsInstance opcode).toNat

theorem buildArgs_succ {n : ℕ} : buildArgs (n + 1) = .stackInput n :: buildArgs n := by
  rw [buildArgs, List.range_succ_eq_map, List.map_cons, List.map_map]
  refine congrArg₂ List.cons (by simp) (List.map_congr_left fun j _ => ?_)
  simp only [Function.comp_apply, Location.stackInput.injEq]
  omega

theorem decodeReceiverCall_decoded {code : List UInt8} {pc : ℕ} {target : MethodTarget} :
    (decodeReceiverCall .virtual target).Decoded code pc 0xb6 (decodedParamSlots target.descriptor + 1) ∧
      (decodeReceiverCall .special target).Decoded code pc 0xb7 (decodedParamSlots target.descriptor + 1) :=
  ⟨⟨buildArgs_succ.symm, rfl, fun _ named => by obtain rfl := Option.some.inj named; exact ⟨rfl, rfl⟩⟩,
    buildArgs_succ.symm, rfl, fun _ named => by obtain rfl := Option.some.inj named; exact ⟨rfl, rfl⟩⟩

theorem decodeStaticCall_decoded {code : List UInt8} {pc : ℕ} {target : MethodTarget} :
    (decodeStaticCall target).Decoded code pc 0xb8 (decodedParamSlots target.descriptor) :=
  ⟨rfl, rfl, fun _ named => by obtain rfl := Option.some.inj named; exact ⟨rfl, rfl⟩⟩

theorem decodeInterfaceCall_decoded {code : List UInt8} {pc count : ℕ} {target : Option MethodTarget}
    (read : readU8 code (pc + 3) = .ok count) :
    (decodeInterfaceCall count target).Decoded code pc 0xb9 (count - 1 + 1) :=
  ⟨buildArgs_succ.symm, rfl, fun _ _ => ⟨rfl, count, read, rfl⟩⟩

theorem decodeDynamicCall_decoded {code : List UInt8} {pc bootstrap : ℕ} {name descriptor : String} :
    (decodeDynamicCall bootstrap name descriptor).Decoded code pc 0xba (decodedParamSlots descriptor) :=
  ⟨rfl, rfl, fun _ named => by obtain rfl := Option.some.inj named; exact ⟨rfl, rfl⟩⟩

theorem decodeCall_decoded {code : List UInt8} {pc opcode : ℕ} {cf : ClassFile} {call : CallInfo}
    (ok : decodeCall code pc cf opcode = .ok call) : ∃ operands, call.Decoded code pc opcode operands := by
  unfold decodeCall at ok
  split at ok
  · obtain ⟨idx, -, ok⟩ := bind_eq_ok.mp ok
    obtain ⟨target, -, ok⟩ := bind_eq_ok.mp ok
    obtain rfl := Except.ok.inj ok
    exact ⟨_, decodeReceiverCall_decoded.1⟩
  · obtain ⟨idx, -, ok⟩ := bind_eq_ok.mp ok
    obtain ⟨target, -, ok⟩ := bind_eq_ok.mp ok
    obtain rfl := Except.ok.inj ok
    exact ⟨_, decodeReceiverCall_decoded.2⟩
  · obtain ⟨idx, -, ok⟩ := bind_eq_ok.mp ok
    obtain ⟨target, -, ok⟩ := bind_eq_ok.mp ok
    obtain rfl := Except.ok.inj ok
    exact ⟨_, decodeStaticCall_decoded⟩
  · obtain ⟨idx, -, ok⟩ := bind_eq_ok.mp ok
    obtain ⟨count, read, ok⟩ := bind_eq_ok.mp ok
    obtain rfl := Except.ok.inj ok
    exact ⟨_, decodeInterfaceCall_decoded read⟩
  · obtain ⟨idx, -, ok⟩ := bind_eq_ok.mp ok
    obtain ⟨⟨bootstrap, name, descriptor⟩, -, ok⟩ := bind_eq_ok.mp ok
    obtain rfl := Except.ok.inj ok
    exact ⟨_, decodeDynamicCall_decoded⟩
  · -- no invoke: no operands and no method
    obtain rfl := Except.ok.inj ok
    exact ⟨0, rfl, rfl, fun _ named => by cases named⟩

/-- The stack slots of a number of operands, the bottom-most first. -/
def operandSlots (stackLen operands : ℕ) : List ℕ := (List.range operands).map fun j => stackLen - operands + j

theorem buildArgs_atHeight {stackLen operands : ℕ}
    (bounds : ∀ depth, .stackInput depth ∈ buildArgs operands → depth < stackLen) :
    operands ≤ stackLen ∧
      (buildArgs operands).map (·.atHeight stackLen) = (operandSlots stackLen operands).map .stackSlot := by
  have enough : operands ≤ stackLen := by
    cases operands with
    | zero => omega
    | succ n => exact bounds n (by simp [buildArgs_succ])
  refine ⟨enough, ?_⟩
  simp only [buildArgs, operandSlots, List.map_map]
  refine List.map_congr_left fun j mem => ?_
  have below := List.mem_range.mp mem
  simp only [Function.comp_apply, Location.atHeight, Location.stackSlot.injEq]
  omega

/-! ## Formals -/

/-- The reader counts the parameter slots right: a byte holds them, or the count operand is theirs and the
receiver's. -/
def SlotsCounted (code : List UInt8) (pc opcode : ℕ) (descriptor : String) : Prop :=
  if opcode = 0xb9 then ∀ count, readU8 code (pc + 3) = .ok count → count - 1 = descriptorParamSlotCount descriptor
  else descriptorParamSlotCount descriptor < 256

/-- The stack slot at the call that becomes a local slot of the callee. -/
def BecomesLocal (params : ParameterSlotMap) (stackLen slot localSlot : ℕ) : Prop :=
  slot + params.slotCount = stackLen + localSlot

/-- Every stack slot of a parameter is passed under the parameter's ordinal and under no other index. -/
def LoweredCall.PassesToOrdinals (lowered : LoweredCall) (params : ParameterSlotMap) (stackLen : ℕ) : Prop :=
  ∀ localSlot ordinal, params.ordinalForSlot localSlot = some ordinal →
    ∃ slot, BecomesLocal params stackLen slot localSlot ∧ ∀ i, lowered.Passes i slot ↔ i = ordinal

/-- A value passed for a parameter reaches the formal of the parameter and no other formal. -/
def LoweredCall.ReachesFormals (lowered : LoweredCall) (params : ParameterSlotMap) (formals stackLen : ℕ) : Prop :=
  ∀ ordinal < formals,
    (∃ localSlot slot, params.ordinalForSlot localSlot = some ordinal ∧ BecomesLocal params stackLen slot localSlot ∧
      lowered.Passes ordinal slot) ∧
    ∀ localSlot slot (i : ℕ), params.ordinalForSlot localSlot = some ordinal →
      BecomesLocal params stackLen slot localSlot → i < formals → lowered.Passes i slot → i = ordinal

section Formals

variable {lowered : LoweredCall} {params : List MethodParameterInfo} {stackLen operands : ℕ}

private theorem passes_operand_iff (lowers : lowered.Lowers ((operandSlots stackLen operands).map .stackSlot))
    (few : operands ≤ 256) {i : FormalIndex} {slot : ℕ} :
    lowered.Passes i slot ↔ ∃ j < operands, i = j ∧ slot = stackLen - operands + j := by
  rw [lowers.passes_iff (by simp only [operandSlots, List.length_map, List.length_range, MAX_FORMAL_INDEX]; omega)]
  constructor
  · rintro ⟨j, rfl, at_j⟩
    obtain ⟨j', at_j', rfl⟩ := by simpa only [operandSlots, List.getElem?_map, Option.map_eq_some_iff] using at_j
    obtain ⟨below, rfl⟩ := List.getElem?_eq_some_iff.mp at_j'
    exact ⟨j, by simpa using below, rfl, by simp⟩
  · rintro ⟨j, below, rfl, rfl⟩
    exact ⟨j, rfl, by simp [operandSlots, below]⟩

/-- With the slots counted right, a stack slot is passed under the number of the local slot it becomes. -/
private theorem passes_local_iff (lowers : lowered.Lowers ((operandSlots stackLen operands).map .stackSlot))
    (few : operands ≤ 256) (enough : operands ≤ stackLen) {slot localSlot : ℕ} {i : FormalIndex}
    (counted : (slotOrdinals 0 params).length = operands) (below : localSlot < operands)
    (becomes : BecomesLocal ⟨slotOrdinals 0 params⟩ stackLen slot localSlot) :
    lowered.Passes i slot ↔ i = localSlot := by
  rw [passes_operand_iff lowers few]
  simp only [BecomesLocal, ParameterSlotMap.slotCount, counted] at becomes
  constructor
  · rintro ⟨j, -, rfl, at_slot⟩
    have same : j = localSlot := by omega
    rw [same]
  · rintro rfl
    exact ⟨localSlot, below, rfl, by omega⟩

theorem passesToOrdinals_iff (lowers : lowered.Lowers ((operandSlots stackLen operands).map .stackSlot))
    (few : operands ≤ 256) (enough : operands ≤ stackLen)
    (empty : (slotOrdinals 0 params).length = 0 → operands = 0) :
    lowered.PassesToOrdinals ⟨slotOrdinals 0 params⟩ stackLen ↔
      (∀ p ∈ params, p.slotWidth = 1) ∧ (slotOrdinals 0 params).length = operands := by
  rw [← agreeTo_slots_iff 0, ← slotOrdinals_length 0]
  constructor
  · intro passes
    have counted : (slotOrdinals 0 params).length = operands := by
      rcases Nat.eq_zero_or_pos (slotOrdinals 0 params).length with none | some_slot
      · rw [none, empty none]
      · -- the first slot is passed first only where the count is right
        have first : (slotOrdinals 0 params)[0]? = some 0 := by
          cases params with
          | nil => simp [slotOrdinals] at some_slot
          | cons p rest => rcases p.one_or_two with width | width <;> simp [slotOrdinals, width, List.replicate]
        obtain ⟨slot, becomes, passed⟩ := passes 0 0 first
        obtain ⟨j, below, zero, at_slot⟩ := (passes_operand_iff lowers few).mp ((passed 0).mpr rfl)
        obtain rfl : j = 0 := by exact_mod_cast zero.symm
        simp only [BecomesLocal, ParameterSlotMap.slotCount] at becomes
        omega
    refine ⟨fun localSlot below => ?_, counted⟩
    have present := List.getElem?_eq_getElem below
    obtain ⟨slot, becomes, passed⟩ := passes localSlot _ present
    have at_local := (passes_local_iff lowers few enough counted (counted ▸ below) becomes).mpr rfl
    have same : localSlot = (slotOrdinals 0 params)[localSlot] := by exact_mod_cast (passed localSlot).mp at_local
    rw [present, ← same, Nat.zero_add]
  · rintro ⟨agree, counted⟩ localSlot ordinal at_local
    have below := (List.getElem?_eq_some_iff.mp at_local).1
    obtain rfl : ordinal = localSlot := by
      have same := (agree localSlot below).symm.trans at_local
      simpa [eq_comm] using same
    refine ⟨stackLen - operands + ordinal, ?_, ?_⟩
    · simp only [BecomesLocal, ParameterSlotMap.slotCount, counted]
      omega
    · intro i
      refine passes_local_iff lowers few enough counted (counted ▸ below) ?_
      simp only [BecomesLocal, ParameterSlotMap.slotCount, counted]
      omega

theorem reachesFormals_iff (lowers : lowered.Lowers ((operandSlots stackLen operands).map .stackSlot))
    (few : operands ≤ 256) (enough : operands ≤ stackLen)
    (empty : (slotOrdinals 0 params).length = 0 → operands = 0)
    (single : (slotOrdinals 0 params).length = operands + 1 → ∀ p ∈ params.head?, p.slotWidth = 1) :
    lowered.ReachesFormals ⟨slotOrdinals 0 params⟩ params.length stackLen ↔
      (∀ p ∈ params.dropLast, p.slotWidth = 1) ∧ (slotOrdinals 0 params).length = operands := by
  rw [← agreeTo_ordinals_iff 0]
  constructor
  · intro reaches
    have counted : (slotOrdinals 0 params).length = operands := by
      cases params with
      | nil => exact (empty rfl).symm
      | cons p rest =>
        -- the first formal is reached from a slot of the first parameter, which has two slots at most
        obtain ⟨⟨localSlot, slot, at_local, becomes, passed⟩, -⟩ := reaches 0 (by simp)
        obtain ⟨j, below, zero, at_slot⟩ := (passes_operand_iff lowers few).mp passed
        obtain rfl : j = 0 := by exact_mod_cast zero.symm
        simp only [BecomesLocal, ParameterSlotMap.slotCount] at becomes
        have first : localSlot < p.slotWidth := by
          simp only [ParameterSlotMap.ordinalForSlot, slotOrdinals, List.getElem?_append] at at_local
          split_ifs at at_local with here
          · simpa using here
          · have later := (slotOrdinals_lt at_local).1
            omega
        have narrow := fun two => single two p (by simp)
        have widths := p.one_or_two
        omega
    refine ⟨fun ordinal below => ?_, counted⟩
    obtain ⟨⟨localSlot, slot, at_local, becomes, passed⟩, -⟩ := reaches ordinal below
    have in_slots := counted ▸ (List.getElem?_eq_some_iff.mp at_local).1
    have same : ordinal = localSlot := by
      exact_mod_cast (passes_local_iff lowers few enough counted in_slots becomes).mp passed
    rw [Nat.zero_add]
    exact same ▸ at_local
  · rintro ⟨agree, counted⟩ ordinal below
    have at_local : (slotOrdinals 0 params)[ordinal]? = some ordinal := by simpa using agree ordinal below
    have in_slots := counted ▸ (List.getElem?_eq_some_iff.mp at_local).1
    refine ⟨⟨ordinal, stackLen - operands + ordinal, at_local, ?_, ?_⟩, ?_⟩
    · simp only [BecomesLocal, ParameterSlotMap.slotCount, counted]
      omega
    · refine (passes_local_iff lowers few enough counted in_slots ?_).mpr rfl
      simp only [BecomesLocal, ParameterSlotMap.slotCount, counted]
      omega
    · intro localSlot slot i at_slot becomes formal passed
      have in_slots := counted ▸ (List.getElem?_eq_some_iff.mp at_slot).1
      have same : i = localSlot := by
        exact_mod_cast (passes_local_iff lowers few enough counted in_slots becomes).mp passed
      have here := agree i formal
      rw [Nat.zero_add] at here
      exact Option.some.inj (here.symm.trans (same ▸ at_slot))

end Formals

/-! ## Calls -/

private theorem readU8_lt {data : List UInt8} {offset byte : ℕ} (read : readU8 data offset = .ok byte) : byte < 256 := by
  unfold readU8 at read
  split at read
  · obtain rfl := Except.ok.inj read
    exact UInt8.toNat_lt _
  · cases read

theorem forMethod_slotCount (descriptor : String) (isInstance : Bool) :
    (ParameterSlotMap.forMethod descriptor isInstance).slotCount =
      descriptorParamSlotCount descriptor + isInstance.toNat := by
  simp only [ParameterSlotMap.slotCount, forMethod_eq, slotOrdinals_length]
  cases isInstance
  · rfl
  · simp [allParameters, descriptorParamSlotCount, MethodParameterInfo.object, Nat.add_comm]

/-- A lowered invoke passes as many operands as it counted, and counts them right on a condition of the input. -/
theorem lowerInvoke_lowers {code : List UInt8} {cf : ClassFile} {context : InstructionContext}
    {enclosing : Option EnclosingClass} {span stackLen : ℕ} {locals : List String} {lowered : LoweredCall} {ext : Extern}
    (lowers : lowerInvoke code cf context enclosing span stackLen locals = some lowered)
    (names : lowered.ext = some ext) :
    ∃ operands, lowered.Lowers ((operandSlots stackLen operands).map .stackSlot) ∧ operands ≤ 256 ∧ operands ≤ stackLen ∧
      ext.params = jvmDescriptorToParams ext.descriptor (invokeIsInstance context.opcode) ∧
      (SlotsCounted code context.pc context.opcode ext.descriptor ↔
        descriptorParamSlotCount ext.descriptor + (invokeIsInstance context.opcode).toNat = operands) ∧
      (invokeIsInstance context.opcode = false → operands = descriptorParamSlotCount ext.descriptor % 256) := by
  simp only [lowerInvoke, Option.bind_eq_bind, Option.bind_eq_some_iff] at lowers
  obtain ⟨call, decoded, ⟨out, height⟩, simulated, lowers⟩ := lowers
  obtain ⟨operands, decoded⟩ := decodeCall_decoded (ok_of_toOption decoded)
  obtain ⟨same_operands, bounds, same_receiver, same_kind, same_descriptor⟩ :=
    simulateCall_ok (ok_of_toOption simulated)
  obtain ⟨passed, descriptor, params⟩ := lowerCall_lowers lowers names
    (by rw [same_receiver, same_kind, decoded.receiver])
  obtain ⟨kind, counted⟩ := decoded.counted ext.descriptor (same_descriptor ▸ descriptor)
  rw [same_operands, decoded.operands_eq] at passed
  obtain ⟨enough, slots⟩ := buildArgs_atHeight (decoded.operands_eq ▸ bounds)
  rw [slots] at passed
  rw [same_kind, kind] at params
  refine ⟨operands, passed, ?_, enough, params, ?_, ?_⟩
  · split_ifs at counted
    · obtain ⟨count, read, rfl⟩ := counted
      have byte := readU8_lt read
      omega
    · have bit := Bool.toNat_le (invokeIsInstance context.opcode)
      simp only [decodedParamSlots] at counted
      omega
  · rw [SlotsCounted]
    split_ifs at counted ⊢ with interface
    · obtain ⟨count, read, rfl⟩ := counted
      have instance_bit : (invokeIsInstance context.opcode).toNat = 1 := by simp [invokeIsInstance, interface]
      constructor
      · intro exact_count
        have same := exact_count count read
        omega
      · intro same count' read'
        obtain rfl : count = count' := by simpa [read] using read'
        omega
    · simp only [decodedParamSlots] at counted
      omega
  · intro static
    have other : context.opcode ≠ 0xb9 := by
      rintro interface
      simp [invokeIsInstance, interface] at static
    rw [if_neg other, static] at counted
    exact counted

private theorem allParameters_narrow_iff {descriptor : String} {isInstance : Bool} :
    (∀ p ∈ allParameters descriptor isInstance, p.slotWidth = 1) ↔
      ∀ p ∈ descriptorParameterInfo descriptor, p.slotWidth = 1 := by
  cases isInstance <;> simp [allParameters, MethodParameterInfo.object]

private theorem allParameters_dropLast_narrow_iff {descriptor : String} {isInstance : Bool} :
    (∀ p ∈ (allParameters descriptor isInstance).dropLast, p.slotWidth = 1) ↔
      ∀ p ∈ (descriptorParameterInfo descriptor).dropLast, p.slotWidth = 1 := by
  cases isInstance with
  | false => rfl
  | true =>
    rw [allParameters, if_pos rfl]
    cases descriptorParameterInfo descriptor with
    | nil => simp
    | cons p rest => simp [List.dropLast_cons_cons, MethodParameterInfo.object]

section Invoke

variable {code : List UInt8} {cf : ClassFile} {context : InstructionContext} {enclosing : Option EnclosingClass}
  {span stackLen : ℕ} {locals : List String} {lowered : LoweredCall} {ext : Extern}

/-- The slots of a method's parameters, with what the two equivalences ask of the operand count. -/
private theorem operands_of_invoke (lowers : lowerInvoke code cf context enclosing span stackLen locals = some lowered)
    (names : lowered.ext = some ext) :
    ∃ operands, lowered.Lowers ((operandSlots stackLen operands).map .stackSlot) ∧ operands ≤ 256 ∧ operands ≤ stackLen ∧
      let slots := slotOrdinals 0 (allParameters ext.descriptor (invokeIsInstance context.opcode))
      (SlotsCounted code context.pc context.opcode ext.descriptor ↔ slots.length = operands) ∧
      (slots.length = 0 → operands = 0) ∧
      (slots.length = operands + 1 →
        ∀ p ∈ (allParameters ext.descriptor (invokeIsInstance context.opcode)).head?, p.slotWidth = 1) := by
  obtain ⟨operands, passed, few, enough, -, counted, static⟩ := lowerInvoke_lowers lowers names
  have count := forMethod_slotCount ext.descriptor (invokeIsInstance context.opcode)
  simp only [ParameterSlotMap.slotCount, forMethod_eq] at count
  refine ⟨operands, passed, few, enough, by rw [count]; exact counted, ?_, ?_⟩
  · intro none
    cases receiver : invokeIsInstance context.opcode with
    | false =>
      have wrapped := static receiver
      rw [count, receiver, Bool.toNat_false] at none
      omega
    | true =>
      rw [count, receiver, Bool.toNat_true] at none
      omega
  · intro one_more
    cases receiver : invokeIsInstance context.opcode with
    | false =>
      -- a byte that wraps misses a multiple of 256
      have wrapped := static receiver
      rw [count, receiver, Bool.toNat_false] at one_more
      omega
    | true => simp [allParameters, MethodParameterInfo.object]

theorem passesToOrdinals_invoke_iff
    (lowers : lowerInvoke code cf context enclosing span stackLen locals = some lowered)
    (names : lowered.ext = some ext) :
    lowered.PassesToOrdinals (.forMethod ext.descriptor (invokeIsInstance context.opcode)) stackLen ↔
      (∀ p ∈ descriptorParameterInfo ext.descriptor, p.slotWidth = 1) ∧
        SlotsCounted code context.pc context.opcode ext.descriptor := by
  obtain ⟨operands, passed, few, enough, counted, empty, -⟩ := operands_of_invoke lowers names
  have slots := passesToOrdinals_iff passed few enough empty
  rwa [allParameters_narrow_iff, ← counted, ← forMethod_eq] at slots

theorem reachesFormals_invoke_iff
    (lowers : lowerInvoke code cf context enclosing span stackLen locals = some lowered)
    (names : lowered.ext = some ext) :
    lowered.ReachesFormals (.forMethod ext.descriptor (invokeIsInstance context.opcode)) ext.params.length stackLen ↔
      (∀ p ∈ (descriptorParameterInfo ext.descriptor).dropLast, p.slotWidth = 1) ∧
        SlotsCounted code context.pc context.opcode ext.descriptor := by
  obtain ⟨_, -, -, -, params, -⟩ := lowerInvoke_lowers lowers names
  obtain ⟨operands, passed, few, enough, counted, empty, single⟩ := operands_of_invoke lowers names
  have slots := reachesFormals_iff passed few enough empty single
  rw [allParameters_dropLast_narrow_iff, ← counted, ← forMethod_eq] at slots
  rwa [params, jvmDescriptorToParams_length]

end Invoke

/-- The stack slots of every parameter, the receiver included, are passed under the parameter's ordinal exactly when
no parameter is wide and the slots are counted right. Of the wide parameters only one in the last place leaves the
flows alone, what it passes too much having no formal. -/
theorem arguments_reach_parameters_iff (code : List UInt8) (cf : ClassFile) (context : InstructionContext)
    (enclosing : Option EnclosingClass) (span stackLen : ℕ) (locals : List String) (lowered : LoweredCall) (ext : Extern)
    (lowers : lowerInvoke code cf context enclosing span stackLen locals = some lowered)
    (names : lowered.ext = some ext) :
    let params := ParameterSlotMap.forMethod ext.descriptor (invokeIsInstance context.opcode)
    (lowered.PassesToOrdinals params stackLen ↔
      (∀ p ∈ descriptorParameterInfo ext.descriptor, p.slotWidth = 1) ∧
        SlotsCounted code context.pc context.opcode ext.descriptor) ∧
    (lowered.ReachesFormals params ext.params.length stackLen ↔
      (∀ p ∈ (descriptorParameterInfo ext.descriptor).dropLast, p.slotWidth = 1) ∧
        SlotsCounted code context.pc context.opcode ext.descriptor) :=
  ⟨passesToOrdinals_invoke_iff lowers names, reachesFormals_invoke_iff lowers names⟩

/-- A class file with one method reference `T.m`. -/
def classWithMethod (descriptor : String) : ClassFile where
  constantPool := [some (.methodref 2 3), some (.cls 4), some (.nameAndType 5 6), some (.utf8 (.text "T")),
    some (.utf8 (.text "m")), some (.utf8 (.text descriptor))]

/-- An `invokestatic` at the start of a method. -/
def staticInvoke : InstructionContext where
  className := "T"
  methodName := "n"
  methodDesc := "()V"
  pc := 0
  opcode := 0xb8
  mnemonic := "invokestatic"

theorem arguments_reach_parameters_iff_ints :
    ∃ lowered ext, lowerInvoke [0xb8, 0, 1] (classWithMethod "(II)V") staticInvoke none 0 2 [] = some lowered ∧
      lowered.ext = some ext ∧
      lowered.PassesToOrdinals (.forMethod ext.descriptor (invokeIsInstance staticInvoke.opcode)) 2 := by
  refine ⟨_, _, rfl, rfl, ?_⟩
  refine (arguments_reach_parameters_iff [0xb8, 0, 1] (classWithMethod "(II)V") staticInvoke none 0 2 [] _ _ rfl rfl).1.mpr ?_
  exact ⟨by decide, by rw [SlotsCounted, if_neg (by decide)]; decide⟩

/-- The upper half of the long argument of `m(JI)V` is passed for the int parameter. -/
theorem long_argument_reaches_int :
    ∃ lowered ext, lowerInvoke [0xb8, 0, 1] (classWithMethod "(JI)V") staticInvoke none 0 3 [] = some lowered ∧
      lowered.ext = some ext ∧
      ¬ lowered.PassesToOrdinals (.forMethod ext.descriptor (invokeIsInstance staticInvoke.opcode)) 3 ∧
      ¬ lowered.ReachesFormals (.forMethod ext.descriptor (invokeIsInstance staticInvoke.opcode)) ext.params.length 3 := by
  obtain ⟨lowered, ext, lowers, names, wide⟩ : ∃ lowered ext,
      lowerInvoke [0xb8, 0, 1] (classWithMethod "(JI)V") staticInvoke none 0 3 [] = some lowered ∧
      lowered.ext = some ext ∧ ¬ ∀ p ∈ (descriptorParameterInfo ext.descriptor).dropLast, p.slotWidth = 1 :=
    ⟨_, _, rfl, rfl, by decide⟩
  refine ⟨lowered, ext, lowers, names, ?_, ?_⟩
  · intro passes
    have narrow := ((passesToOrdinals_invoke_iff lowers names).mp passes).1
    exact wide fun p mem => narrow p (List.dropLast_subset _ mem)
  · intro reaches
    exact wide ((reachesFormals_invoke_iff lowers names).mp reaches).1

end Ctadl.Jvm
