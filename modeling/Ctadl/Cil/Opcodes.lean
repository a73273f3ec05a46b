import Ctadl.Cil.Blocks
import Ctadl.Cil.Effects

/-! # The effects of each instruction

Every opcode has its operands, in the order they were pushed, its results and its effects over both. A call takes them
from its signature, and so do the methods of a multi-dimensional array, which are element accesses.
-/

namespace Ctadl.Cil

inductive Code
  | nop | breakpoint | ldarg0 | ldarg1 | ldarg2 | ldarg3 | ldloc0 | ldloc1 | ldloc2 | ldloc3 | stloc0 | stloc1 | stloc2
  | stloc3 | ldargS | ldargaS | stargS | ldlocS | ldlocaS | stlocS | ldnull | ldcI4M1 | ldcI40 | ldcI41 | ldcI42
  | ldcI43 | ldcI44 | ldcI45 | ldcI46 | ldcI47 | ldcI48 | ldcI4S | ldcI4 | ldcI8 | ldcR4 | ldcR8 | dup | pop | jmp
  | call | calli | ret | brS | brfalseS | brtrueS | beqS | bgeS | bgtS | bleS | bltS | bneUnS | bgeUnS | bgtUnS
  | bleUnS | bltUnS | br | brfalse | brtrue | beq | bge | bgt | ble | blt | bneUn | bgeUn | bgtUn | bleUn | bltUn
  | switch | ldindI1 | ldindU1 | ldindI2 | ldindU2 | ldindI4 | ldindU4 | ldindI8 | ldindI | ldindR4 | ldindR8
  | ldindRef | stindRef | stindI1 | stindI2 | stindI4 | stindI8 | stindR4 | stindR8 | add | sub | mul | div | divUn
  | rem | remUn | and | or | xor | shl | shr | shrUn | neg | not | convI1 | convI2 | convI4 | convI8 | convR4
  | convR8 | convU4 | convU8 | callvirt | cpobj | ldobj | ldstr | newobj | castclass | isinst | convRUn | unbox
  | throw | ldfld | ldflda | stfld | ldsfld | ldsflda | stsfld | stobj | convOvfI1Un | convOvfI2Un | convOvfI4Un
  | convOvfI8Un | convOvfU1Un | convOvfU2Un | convOvfU4Un | convOvfU8Un | convOvfIUn | convOvfUUn | box | newarr
  | ldlen | ldelema | ldelemI1 | ldelemU1 | ldelemI2 | ldelemU2 | ldelemI4 | ldelemU4 | ldelemI8 | ldelemI | ldelemR4
  | ldelemR8 | ldelemRef | stelemI | stelemI1 | stelemI2 | stelemI4 | stelemI8 | stelemR4 | stelemR8 | stelemRef
  | ldelemAny | stelemAny | unboxAny | convOvfI1 | convOvfU1 | convOvfI2 | convOvfU2 | convOvfI4 | convOvfU4
  | convOvfI8 | convOvfU8 | refanyval | ckfinite | mkrefany | ldtoken | convU2 | convU1 | convI | convOvfI | convOvfU
  | addOvf | addOvfUn | mulOvf | mulOvfUn | subOvf | subOvfUn | endfinally | leave | leaveS | stindI | convU
  | arglist | ceq | cgt | cgtUn | clt | cltUn | ldftn | ldvirtftn | ldarg | ldarga | starg | ldloc | ldloca | stloc
  | localloc | endfilter | unaligned | volatile | tail | initobj | constrained | cpblk | initblk | no | rethrow
  | sizeof | refanytype | readonly
deriving DecidableEq, Repr

/-- What an operand is. -/
inductive Role
  | value | object | receiver
  | arg (n : ℕ)
  | index | address | srcAddress | size | lhs | rhs | condition | callee | exception | returnValue | discarded
deriving DecidableEq, Repr

inductive RawOperand
  | none
  | i8 (value : Int) | u8 (value : ℕ) | i32 (value : Int) | i64 (value : Int) | f32 (bits : ℕ) | f64 (bits : ℕ)
  | target (offset : ℕ)
  | switch (targets : List ℕ)
  | token (token : ℕ)
  | string (token : ℕ)
  | var (n : ℕ)
  | arg (n : ℕ)
  | callSite (token : ℕ)
deriving DecidableEq, Repr

/-- A decoded instruction. A byte that names no opcode has none. -/
structure Ins where
  offset : ℕ
  size : ℕ
  code : Option Code
  operand : RawOperand := .none
deriving DecidableEq, Repr

/-- A method that the runtime provides for a multi-dimensional array. -/
inductive ArrayMethod
  | get | set | address | ctor
deriving DecidableEq, Repr

structure ResolvedMethod where
  op : MethodOp
  declaring : Option TypeOp := none
  declaringIsValueType : Option Bool := none
  array : Option ArrayMethod := none
deriving DecidableEq, Repr

/-- What the tokens of the instructions resolve to, and the signature of the method they are in. -/
structure FlowCx where
  field : ℕ → Bool → Option FieldOp
  method : ℕ → Option ResolvedMethod
  callSite : ℕ → Option MethodSig
  isValueType : TypeOp → Option Bool
  methodSig : MethodSig

/-- The record of one instruction. -/
structure InsEffects where
  offset : ℕ
  size : ℕ
  code : Option Code
  prefixes : Prefixes
  /-- A role for each operand. -/
  inputs : List Role := []
  outputs : ℕ := 0
  effects : List (Effect Slot) := []
  control : Control := .next
deriving DecidableEq, Repr

namespace InsEffects

def pops (b : InsEffects) (roles : List Role) : InsEffects := { b with inputs := roles }

def pushes (b : InsEffects) (n : ℕ) : InsEffects := { b with outputs := n }

def effect (b : InsEffects) (e : Effect Slot) : InsEffects := { b with effects := b.effects ++ [e] }

def goes (b : InsEffects) (control : Control) : InsEffects := { b with control }

/-- The fallback for an operand that does not resolve. -/
def unresolved (b : InsEffects) (token : ℕ) : InsEffects :=
  b.effect (.unresolved ((List.range (b.inputs.length % 0x100)).map .input) ((List.range b.outputs).map .output)
    (.unresolvedToken token))

end InsEffects

section Operands

def target (ins : Ins) : ℕ :=
  match ins.operand with
  | .target t => t
  | _ => ins.offset + ins.size

def token (ins : Ins) : ℕ :=
  match ins.operand with
  | .token t | .string t | .callSite t => t
  | _ => 0

def typeOp (ins : Ins) : TypeOp := ⟨token ins⟩

def arg (ins : Ins) : ℕ :=
  match ins.operand with
  | .arg n => n
  | _ => 0

def var (ins : Ins) : ℕ :=
  match ins.operand with
  | .var n => n
  | _ => 0

end Operands

section Families

variable (b : InsEffects) (ins : Ins) (cx : FlowCx)

def copy (dst src : Slot) : Effect Slot := .assign dst [src] .copy

def path (root : Slot) (field : Field Slot) : Path Slot := ⟨.slot root, field⟩

def konst (value : Const) : InsEffects := (b.pushes 1).effect (.const (.output 0) value)

def ldarg (n : ℕ) : InsEffects := (b.pushes 1).effect (copy (.output 0) (.arg n))

def ldloc (n : ℕ) : InsEffects := (b.pushes 1).effect (copy (.output 0) (.loc n))

def stloc (n : ℕ) : InsEffects := (b.pops [.value]).effect (copy (.loc n) (.input 0))

def binary (op : Op) : InsEffects :=
  ((b.pops [.lhs, .rhs]).pushes 1).effect (.assign (.output 0) [.input 0, .input 1] (.derived op))

def unary (role : Role) (transfer : Transfer) : InsEffects :=
  ((b.pops [role]).pushes 1).effect (.assign (.output 0) [.input 0] transfer)

def conv (ty : ConvType) (ovf un : Bool) : InsEffects := unary b .value (.derived (.conv ⟨ty, ⟨ovf, un⟩⟩))

def plain : OpFlags := ⟨false, false⟩

def ovf : OpFlags := ⟨true, false⟩

def un : OpFlags := ⟨false, true⟩

def ovfUn : OpFlags := ⟨true, true⟩

def cond1 : InsEffects := ((b.pops [.condition]).effect (.test [.input 0])).goes (.cond [target ins])

def cond2 : InsEffects := ((b.pops [.lhs, .rhs]).effect (.test [.input 0, .input 1])).goes (.cond [target ins])

def ldind : InsEffects := ((b.pops [.address]).pushes 1).effect (.load (.output 0) (path (.input 0) .deref))

def stind : InsEffects := (b.pops [.address, .value]).effect (.store (path (.input 0) .deref) (.input 1))

def ldelem : InsEffects :=
  ((b.pops [.object, .index]).pushes 1).effect (.load (.output 0) (path (.input 0) (.element [.input 1])))

def stelem : InsEffects :=
  (b.pops [.object, .index, .value]).effect (.store (path (.input 0) (.element [.input 1])) (.input 2))

end Families

section Fields

variable (b : InsEffects) (ins : Ins) (cx : FlowCx)

/-- The operands of a field access and, if the field resolves, its effect. -/
def fieldAccess (isStatic : Bool) (roles : List Role) (pushed : ℕ) (effect : FieldOp → Effect Slot) : InsEffects :=
  let b := (b.pops roles).pushes pushed
  match cx.field (token ins) isStatic with
  | none => b.unresolved (token ins)
  | some f => b.effect (effect f)

def ldfld : InsEffects := fieldAccess b ins cx false [.object] 1 fun f => .load (.output 0) (path (.input 0) (.named f))

def stfld : InsEffects := fieldAccess b ins cx false [.object, .value] 0 fun f => .store (path (.input 0) (.named f)) (.input 1)

def ldflda : InsEffects := fieldAccess b ins cx false [.object] 1 fun f => .addressOf (.output 0) (.field (.input 0) f)

def ldsfld : InsEffects := fieldAccess b ins cx true [] 1 fun f => .load (.output 0) ⟨.statics, .named f⟩

def ldsflda : InsEffects := fieldAccess b ins cx true [] 1 fun f => .addressOf (.output 0) (.static f)

def stsfld : InsEffects := fieldAccess b ins cx true [.value] 0 fun f => .store ⟨.statics, .named f⟩ (.input 0)

end Fields

section Calls

variable (b : InsEffects) (prefixes : Prefixes)

/-- The parameters passed by reference. -/
def byrefParams (sig : MethodSig) : List ℕ :=
  (sig.params.zipIdx.filter fun p => match p.1.unwrapModifiers with
    | .byRef _ => true
    | _ => false).map fun p => p.2 % 0x10000

def returnsValue (sig : MethodSig) : Bool := sig.returnType.unwrapModifiers ≠ .void

/-- A role for each parameter. -/
def argRoles (n : ℕ) : List Role := (List.range (n % 0x10000)).map .arg

def site (kind : CallKind Slot) (method : Option MethodOp) (sig : MethodSig) (receiver : Option Slot) (firstArg : ℕ)
    (result : Option Slot) : CallSite Slot where
  kind
  method
  sig
  receiver
  args := (List.range (sig.params.length % 0x100)).map fun k => .input (firstArg + k)
  result
  thrown := .thrown
  byrefArgs := byrefParams sig
  prefixes

/-- The receiver, if there is one, and the parameters. -/
def receiverRoles (sig : MethodSig) : List Role :=
  (if sig.hasThis then [.receiver] else []) ++ argRoles sig.params.length

def thisSlot (sig : MethodSig) : Option Slot := if sig.hasThis then some (.input 0) else none

def resultSlot (sig : MethodSig) : Option Slot := if returnsValue sig then some (.output 0) else none

def callOrCallvirt (code : Code) (op : MethodOp) : InsEffects :=
  let kind : CallKind Slot :=
    if code = .callvirt then .virtualCall prefixes.constrained else if op.sig.hasThis then .instanceCall else .static
  ((b.pops (receiverRoles op.sig)).pushes (if returnsValue op.sig then 1 else 0)).effect
    (.call (site prefixes kind (some op) op.sig (thisSlot op.sig) op.sig.hasThis.toNat (resultSlot op.sig)))

def newobj (resolved : ResolvedMethod) : InsEffects :=
  let op := resolved.op
  let kind := if resolved.declaringIsValueType = some true then .valueType else .object
  (((b.pops (argRoles op.sig.params.length)).pushes 1).effect (.new (.output 0) kind resolved.declaring [])).effect
    (.call (site prefixes .ctor (some op) op.sig (some (.output 0)) 0 none))

def calli (sig : MethodSig) : InsEffects :=
  let roles := receiverRoles sig ++ [.callee]
  let callee := .input ((roles.length - 1) % 0x100)
  ((b.pops roles).pushes (if returnsValue sig then 1 else 0)).effect
    (.call (site prefixes (.indirect callee) none sig (thisSlot sig) sig.hasThis.toNat (resultSlot sig)))

/-- The indices behind the receiver. -/
def indices (count : ℕ) : List Slot := (List.range (count % 0x100)).map fun k => .input (k + 1)

def indexRoles (count : ℕ) : List Role := .receiver :: List.replicate count .index

/-- The methods of a multi-dimensional array, where the call has the shape of the runtime's. -/
def arrayAccess (code : Code) (array : ArrayMethod) (resolved : ResolvedMethod) : Option InsEffects :=
  let sig := resolved.op.sig
  let n := sig.params.length
  let isCall := (code = .call || code = .callvirt) && sig.hasThis
  match array with
  | .get =>
    if isCall && returnsValue sig then
      some (((b.pops (indexRoles n)).pushes 1).effect (.load (.output 0) (path (.input 0) (.element (indices n)))))
    else none
  | .set =>
    if isCall && 1 ≤ n && !returnsValue sig then
      some ((b.pops (indexRoles (n - 1) ++ [.value])).effect
        (.store (path (.input 0) (.element (indices (n - 1)))) (.input (n % 0x100))))
    else none
  | .address =>
    if isCall && returnsValue sig then
      some (((b.pops (indexRoles n)).pushes 1).effect (.addressOf (.output 0) (.element (.input 0) (indices n))))
    else none
  | .ctor =>
    if code = .newobj then
      some (((b.pops (List.replicate n .size)).pushes 1).effect
        (.new (.output 0) .array resolved.declaring ((List.range (n % 0x100)).map .input)))
    else none

/-- `call`, `callvirt` and `newobj`. -/
def call (code : Code) (cx : FlowCx) (ins : Ins) : InsEffects :=
  match cx.method (token ins) with
  | none => b.unresolved (token ins)
  | some resolved =>
    match resolved.array.bind fun array => arrayAccess b code array resolved with
    | some accessed => accessed
    | none => if code = .newobj then newobj b prefixes resolved else callOrCallvirt b prefixes code resolved.op

/-- `calli`. -/
def callIndirect (cx : FlowCx) (ins : Ins) : InsEffects :=
  match cx.callSite (token ins) with
  | none => b.unresolved (token ins)
  | some sig => calli b prefixes sig

end Calls

section Table

variable (b : InsEffects) (ins : Ins) (prefixes : Prefixes) (cx : FlowCx)

def table : Code → InsEffects
  | .nop | .breakpoint => b
  | .ldarg0 => ldarg b 0
  | .ldarg1 => ldarg b 1
  | .ldarg2 => ldarg b 2
  | .ldarg3 => ldarg b 3
  | .ldargS | .ldarg => ldarg b (arg ins)
  | .ldloc0 => ldloc b 0
  | .ldloc1 => ldloc b 1
  | .ldloc2 => ldloc b 2
  | .ldloc3 => ldloc b 3
  | .ldlocS | .ldloc => ldloc b (var ins)
  | .stloc0 => stloc b 0
  | .stloc1 => stloc b 1
  | .stloc2 => stloc b 2
  | .stloc3 => stloc b 3
  | .stlocS | .stloc => stloc b (var ins)
  | .stargS | .starg => (b.pops [.value]).effect (copy (.arg (arg ins)) (.input 0))
  | .ldargaS | .ldarga => (b.pushes 1).effect (.addressOf (.output 0) (.arg (arg ins)))
  | .ldlocaS | .ldloca => (b.pushes 1).effect (.addressOf (.output 0) (.loc (var ins)))
  | .ldnull => konst b .null
  | .ldcI4M1 => konst b (.i4 (-1))
  | .ldcI40 => konst b (.i4 0)
  | .ldcI41 => konst b (.i4 1)
  | .ldcI42 => konst b (.i4 2)
  | .ldcI43 => konst b (.i4 3)
  | .ldcI44 => konst b (.i4 4)
  | .ldcI45 => konst b (.i4 5)
  | .ldcI46 => konst b (.i4 6)
  | .ldcI47 => konst b (.i4 7)
  | .ldcI48 => konst b (.i4 8)
  | .ldcI4S | .ldcI4 => konst b (.i4 (match ins.operand with
    | .i8 v | .i32 v => v
    | _ => 0))
  | .ldcI8 => konst b (.i8 (match ins.operand with
    | .i64 v => v
    | _ => 0))
  | .ldcR4 => konst b (.r4 (match ins.operand with
    | .f32 bits => bits
    | _ => 0))
  | .ldcR8 => konst b (.r8 (match ins.operand with
    | .f64 bits => bits
    | _ => 0))
  | .ldstr => konst b (.string (token ins))
  | .ldtoken => konst b (.token (token ins))
  | .sizeof => konst b (.sizeOf (typeOp ins))
  | .arglist => konst b .argList
  | .dup => (((b.pops [.value]).pushes 2).effect (copy (.output 0) (.input 0))).effect (copy (.output 1) (.input 0))
  | .pop => b.pops [.discarded]
  | .add => binary b (.add plain)
  | .addOvf => binary b (.add ovf)
  | .addOvfUn => binary b (.add ovfUn)
  | .sub => binary b (.sub plain)
  | .subOvf => binary b (.sub ovf)
  | .subOvfUn => binary b (.sub ovfUn)
  | .mul => binary b (.mul plain)
  | .mulOvf => binary b (.mul ovf)
  | .mulOvfUn => binary b (.mul ovfUn)
  | .div => binary b (.div plain)
  | .divUn => binary b (.div un)
  | .rem => binary b (.rem plain)
  | .remUn => binary b (.rem un)
  | .and => binary b .and
  | .or => binary b .or
  | .xor => binary b .xor
  | .shl => binary b .shl
  | .shr => binary b (.shr plain)
  | .shrUn => binary b (.shr un)
  | .neg => unary b .value (.derived .neg)
  | .not => unary b .value (.derived .not)
  | .convI1 => conv b .i1 false false
  | .convI2 => conv b .i2 false false
  | .convI4 => conv b .i4 false false
  | .convI8 => conv b .i8 false false
  | .convU1 => conv b .u1 false false
  | .convU2 => conv b .u2 false false
  | .convU4 => conv b .u4 false false
  | .convU8 => conv b .u8 false false
  | .convI => conv b .i false false
  | .convU => conv b .u false false
  | .convR4 => conv b .r4 false false
  | .convR8 => conv b .r8 false false
  | .convRUn => conv b .r false true
  | .convOvfI1 => conv b .i1 true false
  | .convOvfI2 => conv b .i2 true false
  | .convOvfI4 => conv b .i4 true false
  | .convOvfI8 => conv b .i8 true false
  | .convOvfU1 => conv b .u1 true false
  | .convOvfU2 => conv b .u2 true false
  | .convOvfU4 => conv b .u4 true false
  | .convOvfU8 => conv b .u8 true false
  | .convOvfI => conv b .i true false
  | .convOvfU => conv b .u true false
  | .convOvfI1Un => conv b .i1 true true
  | .convOvfI2Un => conv b .i2 true true
  | .convOvfI4Un => conv b .i4 true true
  | .convOvfI8Un => conv b .i8 true true
  | .convOvfU1Un => conv b .u1 true true
  | .convOvfU2Un => conv b .u2 true true
  | .convOvfU4Un => conv b .u4 true true
  | .convOvfU8Un => conv b .u8 true true
  | .convOvfIUn => conv b .i true true
  | .convOvfUUn => conv b .u true true
  | .ckfinite => unary b .value .copy
  | .ceq => binary b (.cmp .eq plain)
  | .cgt => binary b (.cmp .gt plain)
  | .cgtUn => binary b (.cmp .gt un)
  | .clt => binary b (.cmp .lt plain)
  | .cltUn => binary b (.cmp .lt un)
  | .brS | .br => b.goes (.goto (target ins))
  | .brfalseS | .brtrueS | .brfalse | .brtrue => cond1 b ins
  | .beqS | .bgeS | .bgtS | .bleS | .bltS | .bneUnS | .bgeUnS | .bgtUnS | .bleUnS | .bltUnS | .beq | .bge | .bgt
  | .ble | .blt | .bneUn | .bgeUn | .bgtUn | .bleUn | .bltUn => cond2 b ins
  | .switch => ((b.pops [.condition]).effect (.test [.input 0])).goes (.switch (match ins.operand with
    | .switch targets => targets
    | _ => []))
  | .leave | .leaveS => b.goes (.leave (target ins))
  | .endfinally => b.goes .endFinally
  | .endfilter => ((b.pops [.condition]).effect (.test [.input 0])).goes .endFilter
  | .ret => (if cx.methodSig.returnType.unwrapModifiers = .void then b.effect (.ret none)
    else (b.pops [.returnValue]).effect (.ret (some (.input 0)))).goes .ret
  | .throw => ((b.pops [.exception]).effect (.throw (.input 0))).goes .throw
  | .rethrow => (b.effect (.throw .caught)).goes .throw
  | .jmp => (match cx.method (token ins) with
    | some m => b.effect (.jump m.op)
    | none => b.unresolved (token ins)).goes .jump
  | .ldfld => ldfld b ins cx
  | .stfld => stfld b ins cx
  | .ldflda => ldflda b ins cx
  | .ldsfld => ldsfld b ins cx
  | .stsfld => stsfld b ins cx
  | .ldsflda => ldsflda b ins cx
  | .newarr => ((b.pops [.size]).pushes 1).effect (.new (.output 0) .array (some (typeOp ins)) [.input 0])
  | .ldlen => ((b.pops [.object]).pushes 1).effect (.load (.output 0) (path (.input 0) .length))
  | .ldelemI1 | .ldelemU1 | .ldelemI2 | .ldelemU2 | .ldelemI4 | .ldelemU4 | .ldelemI8 | .ldelemI | .ldelemR4
  | .ldelemR8 | .ldelemRef | .ldelemAny => ldelem b
  | .stelemI | .stelemI1 | .stelemI2 | .stelemI4 | .stelemI8 | .stelemR4 | .stelemR8 | .stelemRef | .stelemAny =>
    stelem b
  | .ldelema => ((b.pops [.object, .index]).pushes 1).effect (.addressOf (.output 0) (.element (.input 0) [.input 1]))
  | .ldindI1 | .ldindU1 | .ldindI2 | .ldindU2 | .ldindI4 | .ldindU4 | .ldindI8 | .ldindI | .ldindR4 | .ldindR8
  | .ldindRef | .ldobj => ldind b
  | .stindRef | .stindI1 | .stindI2 | .stindI4 | .stindI8 | .stindR4 | .stindR8 | .stindI | .stobj => stind b
  | .cpobj => ((b.pops [.address, .srcAddress]).effect (.load (.temp 0) (path (.input 1) .deref))).effect
      (.store (path (.input 0) .deref) (.temp 0))
  | .initobj => (b.pops [.address]).effect (.clear (.input 0))
  | .cpblk =>
    ((b.pops [.address, .srcAddress, .size]).effect (.load (.temp 0) (path (.input 1) (.block (.input 2))))).effect
      (.store (path (.input 0) (.block (.input 2))) (.temp 0))
  | .initblk => (b.pops [.address, .value, .size]).effect (.store (path (.input 0) (.block (.input 2))) (.input 1))
  | .localloc => ((b.pops [.size]).pushes 1).effect (.new (.output 0) .stackAlloc none [.input 0])
  | .castclass | .isinst => unary b .object (.cast (typeOp ins))
  | .box => unary b .value (.box (typeOp ins))
  | .unbox => unary b .object (.unbox (typeOp ins))
  | .unboxAny => unary b .object (match cx.isValueType (typeOp ins) with
    | some false => .cast (typeOp ins)
    | _ => .unbox (typeOp ins))
  | .mkrefany => unary b .address (.derived (.mkRefAny (typeOp ins)))
  | .refanyval => unary b .value (.derived (.refAnyVal (typeOp ins)))
  | .refanytype => unary b .value (.derived .refAnyType)
  | .call => call b prefixes .call cx ins
  | .callvirt => call b prefixes .callvirt cx ins
  | .newobj => call b prefixes .newobj cx ins
  | .calli => callIndirect b prefixes cx ins
  | .ldftn => match cx.method (token ins) with
    | some m => (b.pushes 1).effect (.functionPtr (.output 0) m.op none)
    | none => (b.pushes 1).unresolved (token ins)
  | .ldvirtftn => match cx.method (token ins) with
    | some m => ((b.pops [.object]).pushes 1).effect (.functionPtr (.output 0) m.op (some (.input 0)))
    | none => ((b.pops [.object]).pushes 1).unresolved (token ins)
  | .unaligned | .volatile | .tail | .constrained | .no | .readonly => b

/-- The record of an instruction, given the prefixes folded into it. A byte that names no opcode is read as a branch. -/
def instructionFlow : InsEffects :=
  let b : InsEffects := { offset := ins.offset, size := ins.size, code := ins.code, prefixes }
  match ins.code with
  | none => (b.effect (.unresolved [] [] .undefinedOpcode)).goes (.goto (target ins))
  | some code => table b ins prefixes cx code

end Table

end Ctadl.Cil
