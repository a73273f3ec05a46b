import Mathlib.Data.List.Basic

/-! # What an instruction reads and writes

An instruction is a list of effects, each of which reads some slots and writes others. The same effects stand over the
positions of the operands and over the variables of a method, and what they do is the same over both.
-/

namespace Ctadl.Cil

/-- A position an instruction reads or writes, before its operands have places on the stack. -/
inductive Slot
  /-- The operands it pops, the deepest first. -/
  | input (i : ℕ)
  /-- The values it pushes. -/
  | output (j : ℕ)
  | arg (n : ℕ)
  | loc (n : ℕ)
  | temp (t : ℕ)
  /-- The exception it ends with, if it ends so. -/
  | thrown
  /-- The exception the handler around it caught. -/
  | caught
deriving DecidableEq, Repr

/-- A variable of a method. -/
inductive Var
  | arg (n : ℕ)
  | loc (n : ℕ)
  /-- The stack slot at this depth, 0 being the bottom. -/
  | stack (d : ℕ)
  | temp (t : ℕ)
  | caught (handler : ℕ)
  | thrown
deriving DecidableEq, Repr

/-- A type of a signature, as far as the layer looks at it. -/
inductive TypeSig
  | void | boolean | char | i1 | u1 | i2 | u2 | i4 | u4 | i8 | u8 | r4 | r8 | string | object | intPtr | uintPtr | typedByRef
  | named (token : ℕ) (isValueType : Bool)
  | ptr (inner : TypeSig)
  | byRef (inner : TypeSig)
  | pinned (inner : TypeSig)
  | szArray (element : TypeSig)
  | array (element : TypeSig)
  | genericInst (isValueType : Bool) (ty : ℕ)
  | var (n : ℕ)
  | mvar (n : ℕ)
  | fnPtr
  | cmodReq (modifier : ℕ) (inner : TypeSig)
  | cmodOpt (modifier : ℕ) (inner : TypeSig)
  | sentinel (inner : TypeSig)
deriving DecidableEq, Repr

def TypeSig.unwrapModifiers : TypeSig → TypeSig
  | cmodReq _ inner | cmodOpt _ inner | pinned inner | sentinel inner => inner.unwrapModifiers
  | other => other

structure MethodSig where
  hasThis : Bool
  returnType : TypeSig
  params : List TypeSig
deriving DecidableEq, Repr

structure FieldOp where
  token : ℕ
  isStatic : Bool
  ty : TypeSig
deriving DecidableEq, Repr

structure TypeOp where
  token : ℕ
deriving DecidableEq, Repr

structure MethodOp where
  token : ℕ
  sig : MethodSig
deriving DecidableEq, Repr

structure OpFlags where
  ovf : Bool := false
  un : Bool := false
deriving DecidableEq, Repr

inductive CmpOp
  | eq | gt | lt
deriving DecidableEq, Repr

inductive ConvType
  | i1 | i2 | i4 | i8 | u1 | u2 | u4 | u8 | i | u | r4 | r8 | r
deriving DecidableEq, Repr

structure ConvTarget where
  ty : ConvType
  flags : OpFlags
deriving DecidableEq, Repr

inductive Op
  | add (flags : OpFlags) | sub (flags : OpFlags) | mul (flags : OpFlags) | div (flags : OpFlags) | rem (flags : OpFlags)
  | and | or | xor | shl
  | shr (flags : OpFlags)
  | neg | not
  | conv (target : ConvTarget)
  | cmp (op : CmpOp) (flags : OpFlags)
  | mkRefAny (ty : TypeOp)
  | refAnyType
  | refAnyVal (ty : TypeOp)
deriving DecidableEq, Repr

/-- How a value reaches its destination. -/
inductive Transfer
  | copy
  | cast (ty : TypeOp)
  | box (ty : TypeOp)
  | unbox (ty : TypeOp)
  | derived (op : Op)
deriving DecidableEq, Repr

/-- Floats are given by their bits. -/
inductive Const
  | i4 (value : Int) | i8 (value : Int) | r4 (bits : ℕ) | r8 (bits : ℕ)
  | null
  | string (token : ℕ)
  | token (token : ℕ)
  | sizeOf (ty : TypeOp)
  | argList
deriving DecidableEq, Repr

inductive NewKind
  | object | valueType | array | stackAlloc
deriving DecidableEq, Repr

inductive OpaqueReason
  | unresolvedToken (token : ℕ)
  | undefinedOpcode
deriving DecidableEq, Repr

/-- The prefixes folded into an instruction. -/
structure Prefixes where
  isVolatile : Bool := false
  unaligned : Option ℕ := none
  tail : Bool := false
  readonly : Bool := false
  no : Option ℕ := none
  constrained : Option TypeOp := none
deriving DecidableEq, Repr

section Shapes

variable (S : Type)

/-- One step of a memory access. -/
inductive Field
  | named (op : FieldOp)
  | element (indices : List S)
  | length
  | deref
  | block (size : S)
deriving DecidableEq, Repr

/-- The root of a memory access. -/
inductive Root
  | slot (s : S)
  | statics
deriving DecidableEq, Repr

structure Path where
  root : Root S
  field : Field S
deriving DecidableEq, Repr

/-- What an address points at. -/
inductive Place
  | loc (n : ℕ)
  | arg (n : ℕ)
  | field (base : S) (op : FieldOp)
  | static (op : FieldOp)
  | element (base : S) (indices : List S)
deriving DecidableEq, Repr

inductive CallKind
  | static
  | instanceCall
  | virtualCall (constrained : Option TypeOp)
  | ctor
  | indirect (callee : S)
deriving DecidableEq, Repr

structure CallSite where
  kind : CallKind S
  method : Option MethodOp
  sig : MethodSig
  receiver : Option S
  args : List S
  result : Option S
  thrown : S
  byrefArgs : List ℕ
  prefixes : Prefixes
deriving DecidableEq, Repr

/-- One thing an instruction does. -/
inductive Effect
  | assign (dst : S) (srcs : List S) (transfer : Transfer)
  | const (dst : S) (value : Const)
  | load (dst : S) (src : Path S)
  | store (dst : Path S) (src : S)
  | addressOf (dst : S) (place : Place S)
  | new (dst : S) (kind : NewKind) (ty : Option TypeOp) (sizes : List S)
  | functionPtr (dst : S) (method : MethodOp) (receiver : Option S)
  | clear (addr : S)
  | call (site : CallSite S)
  | ret (src : Option S)
  | throw (src : S)
  | jump (method : MethodOp)
  | test (srcs : List S)
  /-- The semantics is not known: every input may reach every output. -/
  | unresolved (srcs dsts : List S) (reason : OpaqueReason)
deriving DecidableEq, Repr

end Shapes

section Maps

variable {S T : Type}

def Field.map (f : S → T) : Field S → Field T
  | named op => named op
  | element indices => element (indices.map f)
  | length => length
  | deref => deref
  | block size => block (f size)

def Root.map (f : S → T) : Root S → Root T
  | slot s => slot (f s)
  | statics => statics

def Path.map (f : S → T) (path : Path S) : Path T := ⟨path.root.map f, path.field.map f⟩

def Place.map (f : S → T) : Place S → Place T
  | loc n => loc n
  | arg n => arg n
  | field base op => field (f base) op
  | static op => static op
  | element base indices => element (f base) (indices.map f)

def CallKind.map (f : S → T) : CallKind S → CallKind T
  | static => static
  | instanceCall => instanceCall
  | virtualCall constrained => virtualCall constrained
  | ctor => ctor
  | indirect callee => indirect (f callee)

def CallSite.map (f : S → T) (site : CallSite S) : CallSite T :=
  { site with
    kind := site.kind.map f
    receiver := site.receiver.map f
    args := site.args.map f
    result := site.result.map f
    thrown := f site.thrown }

/-- The same effect with every slot replaced. -/
def Effect.map (f : S → T) : Effect S → Effect T
  | assign dst srcs transfer => assign (f dst) (srcs.map f) transfer
  | const dst value => const (f dst) value
  | load dst src => load (f dst) (src.map f)
  | store dst src => store (dst.map f) (f src)
  | addressOf dst place => addressOf (f dst) (place.map f)
  | new dst kind ty sizes => new (f dst) kind ty (sizes.map f)
  | functionPtr dst method receiver => functionPtr (f dst) method (receiver.map f)
  | clear addr => clear (f addr)
  | call site => call (site.map f)
  | ret src => ret (src.map f)
  | throw src => throw (f src)
  | jump method => jump method
  | test srcs => test (srcs.map f)
  | unresolved srcs dsts reason => unresolved (srcs.map f) (dsts.map f) reason

end Maps

section Slots

variable {S T : Type}

def Field.reads : Field S → List S
  | element indices => indices
  | block size => [size]
  | named _ | length | deref => []

def Path.reads (path : Path S) : List S :=
  (match path.root with
    | .slot s => [s]
    | .statics => []) ++ path.field.reads

def Place.reads : Place S → List S
  | field base _ => [base]
  | element base indices => base :: indices
  | loc _ | arg _ | static _ => []

def CallKind.reads : CallKind S → List S
  | indirect callee => [callee]
  | static | instanceCall | virtualCall _ | ctor => []

/-- The slots an effect reads, in operand order. Memory is no slot: what a store goes through is read. -/
def Effect.reads : Effect S → List S
  | assign _ srcs _ | test srcs | unresolved srcs _ _ => srcs
  | const _ _ | jump _ => []
  | load _ src => src.reads
  | store dst src => dst.reads ++ [src]
  | addressOf _ place => place.reads
  | new _ _ _ sizes => sizes
  | functionPtr _ _ receiver => receiver.toList
  | clear addr => [addr]
  | call site => site.receiver.toList ++ site.args ++ site.kind.reads
  | ret src => src.toList
  | throw src => [src]

/-- The slots an effect writes. -/
def Effect.writes : Effect S → List S
  | assign dst _ _ | const dst _ | load dst _ | addressOf dst _ | new dst _ _ _ | functionPtr dst _ _ => [dst]
  | unresolved _ dsts _ => dsts
  | call site => site.result.toList ++ [site.thrown]
  | store _ _ | clear _ | ret _ | jump _ | test _ | throw _ => []

/-- What an effect does, whatever it reads and writes. -/
def Effect.shape (e : Effect S) : Effect Unit := e.map fun _ => ()

variable (f : S → T) (e : Effect S)

theorem Field.reads_map (field : Field S) : (field.map f).reads = field.reads.map f := by
  cases field <;> rfl

theorem Path.reads_map (path : Path S) : (path.map f).reads = path.reads.map f := by
  obtain ⟨root, field⟩ := path
  cases root <;> simp [Path.map, Path.reads, Root.map, Field.reads_map]

theorem Place.reads_map (place : Place S) : (place.map f).reads = place.reads.map f := by
  cases place <;> rfl

theorem CallKind.reads_map (kind : CallKind S) : (kind.map f).reads = kind.reads.map f := by
  cases kind <;> rfl

@[simp] theorem Effect.reads_map : (e.map f).reads = e.reads.map f := by
  cases e <;> simp [Effect.map, Effect.reads, Path.reads_map, Place.reads_map, CallSite.map, CallKind.reads_map, Option.toList_map]

@[simp] theorem Effect.writes_map : (e.map f).writes = e.writes.map f := by
  cases e <;> simp [Effect.map, Effect.writes, CallSite.map, Option.toList_map]

theorem Field.map_map {R : Type} (g : R → S) (field : Field R) : (field.map g).map f = field.map (f ∘ g) := by
  cases field <;> simp [Field.map]

theorem Path.map_map {R : Type} (g : R → S) (path : Path R) : (path.map g).map f = path.map (f ∘ g) := by
  obtain ⟨root, field⟩ := path
  cases root <;> simp [Path.map, Root.map, Field.map_map]

theorem Place.map_map {R : Type} (g : R → S) (place : Place R) : (place.map g).map f = place.map (f ∘ g) := by
  cases place <;> simp [Place.map]

theorem CallKind.map_map {R : Type} (g : R → S) (kind : CallKind R) : (kind.map g).map f = kind.map (f ∘ g) := by
  cases kind <;> rfl

theorem Effect.map_map {R : Type} (g : R → S) (e : Effect R) : (e.map g).map f = e.map (f ∘ g) := by
  cases e <;> simp [Effect.map, Path.map_map, Place.map_map, CallSite.map, CallKind.map_map]

@[simp] theorem Effect.shape_map : (e.map f).shape = e.shape := Effect.map_map _ _ e

end Slots

end Ctadl.Cil
