import Ctadl.Cir.Path

/-! # Functions and their statements

The intermediate representation as far as the passes over one function read it: variables and their
versions, access paths and the other operands, statements, terminators, blocks, functions and programs.
Source positions are kept only at calls, whose sinks are reported by them; no pass decides anything by
them.

Every statement lists the variables it reads and the ones it defines in a fixed order (`srcVars`,
`dstVars`), and the passes rewrite exactly these positions (`mapSrc`, `setDst`). A copy defines the
base of its destination; a store defines nothing and reads it.
-/

namespace Ctadl.Cir

/-- A variable: a global of the program, or a local or a parameter of the function. -/
inductive Variable where
  | globalVar (idx : ℕ)
  | localVar (idx : ℕ)
  | paramVar (idx : ℕ)
deriving DecidableEq, Repr

namespace Variable

def isGlobal : Variable → Bool
  | globalVar _ => true
  | localVar _ | paramVar _ => false

/-- The position of a variable in the derived order: by kind, then by index. -/
def key : Variable → ℕ × ℕ
  | globalVar idx => (0, idx)
  | localVar idx => (1, idx)
  | paramVar idx => (2, idx)

/-- The derived order. -/
def le (v w : Variable) : Bool :=
  v.key.1 < w.key.1 || (v.key.1 == w.key.1 && v.key.2 ≤ w.key.2)

end Variable

/-- A reference to a variable, with the version a conversion to static single assignment gave it. -/
structure VariableRef where
  var : Variable
  version : Option ℕ
deriving DecidableEq, Repr

/-- A reference without a version. -/
def VariableRef.new (var : Variable) : VariableRef := ⟨var, none⟩

def VariableRef.withVersion (ref : VariableRef) (version : ℕ) : VariableRef :=
  { ref with version := some version }

variable {O : Type}

/-- A variable followed by path segments. -/
structure AccessPath (O : Type := Int64) where
  base : VariableRef
  segments : List (PathSegment O)
deriving DecidableEq, Repr

/-- The access path of a variable itself. -/
def AccessPath.ofRef (base : VariableRef) : AccessPath O := ⟨base, []⟩

def AccessPath.isPathless (ap : AccessPath O) : Bool := ap.segments.isEmpty

/-- A function or class that a target label names. -/
inductive CallObject where
  | functionPtr (name : String)
  | javaObject (cls : String)
  | luaClass (cls : String)
  | cilObject (cls : String)
deriving DecidableEq, Repr

/-- Operands. -/
inductive Exp (O : Type := Int64) where
  | path (ap : AccessPath O)
  /-- The value of a path, not its identity. -/
  | value (ap : AccessPath O)
  | objectRef (object : CallObject)
  | str (text : String)
  | int (number : Int64)
  | bytes (bytes : List UInt8)
deriving DecidableEq, Repr

namespace Exp

def accessPath : Exp O → Option (AccessPath O)
  | path ap | value ap => some ap
  | objectRef _ | str _ | int _ | bytes _ => none

def baseVariable (exp : Exp O) : Option VariableRef := exp.accessPath.map AccessPath.base

/-- Rewrite the base variable of an operand that has one. -/
def mapBase (f : VariableRef → VariableRef) : Exp O → Exp O
  | path ap => path { ap with base := f ap.base }
  | value ap => value { ap with base := f ap.base }
  | objectRef object => objectRef object
  | str text => str text
  | int number => int number
  | bytes data => bytes data

end Exp

inductive JavaDispatch where
  | virtual
  | interface
  | super
  | unknown
deriving DecidableEq, Repr

/-- How a call is resolved. -/
inductive CallStyle (O : Type := Int64) where
  | unknown
  | directCall (callEdges : List String)
  | funcPtrCall (callee : AccessPath O) (signature : Option String)
  | javaCall (receiver : VariableRef) (cls simpleName descriptor : String) (dispatch : JavaDispatch)
      (superStart : Option String)
  | luaCall (receiver : VariableRef) (method : String)
  | cilCall (receiver : VariableRef) (cls simpleName descriptor : String)
deriving DecidableEq, Repr

namespace CallStyle

/-- The variable an indirect call reads beside its arguments. -/
def receiver : CallStyle O → Option VariableRef
  | javaCall receiver _ _ _ _ _ | luaCall receiver _ | cilCall receiver _ _ _ => some receiver
  | funcPtrCall callee _ => some callee.base
  | unknown | directCall _ => none

def mapReceiver (f : VariableRef → VariableRef) : CallStyle O → CallStyle O
  | javaCall receiver cls name descriptor dispatch start =>
    javaCall (f receiver) cls name descriptor dispatch start
  | luaCall receiver method => luaCall (f receiver) method
  | cilCall receiver cls name descriptor => cilCall (f receiver) cls name descriptor
  | funcPtrCall callee signature => funcPtrCall { callee with base := f callee.base } signature
  | unknown => unknown
  | directCall edges => directCall edges

end CallStyle

/-- Statements. An assignment with an empty destination path is a copy, any other a store. -/
inductive Statement (O : Type := Int64) where
  | assign (dest : AccessPath O) (sources : List (Exp O))
  /-- `info` is the span of the call in the source. -/
  | callAssign (info : ℕ) (style : CallStyle O) (rets : List VariableRef) (args : List (Exp O))
  | phi (dest : VariableRef) (operands : List (ℕ × VariableRef))
  | nop
deriving DecidableEq, Repr

namespace Statement

/-- The variables a statement reads, in order. -/
def srcVars : Statement O → List VariableRef
  | assign dest sources =>
    (if dest.isPathless then [] else [dest.base]) ++ sources.filterMap Exp.baseVariable
  | callAssign _ style _ args => args.filterMap Exp.baseVariable ++ style.receiver.toList
  | phi _ operands => operands.map Prod.snd
  | nop => []

/-- The variables a statement defines, in order. -/
def dstVars : Statement O → List VariableRef
  | assign dest _ => if dest.isPathless then [dest.base] else []
  | callAssign _ _ rets _ => rets
  | phi dest _ => [dest]
  | nop => []

/-- Rewrite every variable the statement reads. -/
def mapSrc (f : VariableRef → VariableRef) : Statement O → Statement O
  | assign dest sources =>
    assign (if dest.isPathless then dest else { dest with base := f dest.base }) (sources.map (Exp.mapBase f))
  | callAssign info style rets args => callAssign info (style.mapReceiver f) rets (args.map (Exp.mapBase f))
  | phi dest operands => phi dest (operands.map fun operand => (operand.1, f operand.2))
  | nop => nop

/-- Put new references in the places the statement defines, taken in order. -/
def setDst (refs : List VariableRef) : Statement O → Statement O
  | assign dest sources =>
    assign (if dest.isPathless then { dest with base := refs.headD dest.base } else dest) sources
  | callAssign info style _ args => callAssign info style refs args
  | phi dest operands => phi (refs.headD dest) operands
  | nop => nop

def isPhi : Statement O → Bool
  | phi _ _ => true
  | assign _ _ | callAssign _ _ _ _ | nop => false

end Statement

/-- Where control goes when a block is done. -/
inductive Terminator (O : Type := Int64) where
  | ret (args : List (Exp O))
  | goto (targets : List ℕ)
deriving DecidableEq, Repr

namespace Terminator

def successors : Terminator O → List ℕ
  | ret _ => []
  | goto targets => targets

def srcVars : Terminator O → List VariableRef
  | ret args => args.filterMap Exp.baseVariable
  | goto _ => []

def mapSrc (f : VariableRef → VariableRef) : Terminator O → Terminator O
  | ret args => ret (args.map (Exp.mapBase f))
  | goto targets => goto targets

end Terminator

/-- Statements and a terminator, absent while the block is being built. -/
structure BasicBlockData (O : Type := Int64) where
  statements : List (Statement O)
  terminator : Option (Terminator O)
deriving DecidableEq, Repr

/-- The successors of a finished block. -/
def BasicBlockData.successors (block : BasicBlockData O) : List ℕ :=
  (block.terminator.map Terminator.successors).getD []

inductive ParameterType where
  | copied
  | sharedFields
  | shared
deriving DecidableEq, Repr

/-- A function: its parameters, the number of values it returns, its blocks with the start block
first, and the names of its locals. -/
structure FunctionData (O : Type := Int64) where
  name : String
  params : List ParameterType
  returnArity : ℕ
  blocks : List (BasicBlockData O)
  locals : List String
deriving DecidableEq, Repr

/-- The functions of a program and the names of its globals. -/
structure Program (O : Type := Int64) where
  globals : List String
  functions : List (FunctionData O)
deriving DecidableEq, Repr

/-- The index of a name in the table of locals, declared at the end if it is new. -/
def internLocal (locals : List String) (name : String) : List String × ℕ :=
  if name ∈ locals then (locals, locals.idxOf name) else (locals ++ [name], locals.length)

section Rewriting

variable {f g : VariableRef → VariableRef}

namespace Exp

@[simp]
theorem baseVariable_mapBase (exp : Exp O) : (exp.mapBase f).baseVariable = exp.baseVariable.map f := by
  cases exp <;> rfl

theorem filterMap_mapBase (exps : List (Exp O)) :
    (exps.map (mapBase f)).filterMap baseVariable = (exps.filterMap baseVariable).map f := by
  rw [List.filterMap_map, List.map_filterMap]
  exact List.filterMap_congr fun exp _ => baseVariable_mapBase exp

end Exp

@[simp]
theorem CallStyle.receiver_mapReceiver (style : CallStyle O) :
    (style.mapReceiver f).receiver = style.receiver.map f := by cases style <;> rfl

namespace Statement

@[simp]
theorem srcVars_mapSrc (st : Statement O) : (st.mapSrc f).srcVars = st.srcVars.map f := by
  cases st with
  | assign dest sources =>
    by_cases pathless : dest.isPathless
    · rw [mapSrc, srcVars, Exp.filterMap_mapBase]
      simp [srcVars, pathless]
    · have kept : ({ dest with base := f dest.base } : AccessPath O).isPathless = dest.isPathless := rfl
      rw [mapSrc, srcVars, Exp.filterMap_mapBase]
      simp [srcVars, pathless, kept]
  | callAssign info style rets args =>
    rw [mapSrc, srcVars, Exp.filterMap_mapBase]
    cases receiver : style.receiver <;> simp [srcVars, receiver]
  | phi dest operands => simp [mapSrc, srcVars, Function.comp_def]
  | nop => rfl

@[simp]
theorem dstVars_mapSrc (st : Statement O) : (st.mapSrc f).dstVars = st.dstVars := by
  cases st with
  | assign dest sources =>
    by_cases pathless : dest.isPathless
    · simp [mapSrc, dstVars, pathless]
    · have kept : ({ dest with base := f dest.base } : AccessPath O).isPathless = dest.isPathless := rfl
      simp [mapSrc, dstVars, pathless, kept]
  | callAssign _ _ _ _ | phi _ _ | nop => rfl

theorem dstVars_setDst (st : Statement O) {refs : List VariableRef} (same : refs.length = st.dstVars.length) :
    (st.setDst refs).dstVars = refs := by
  cases st with
  | assign dest sources =>
    by_cases pathless : dest.isPathless
    · obtain ⟨ref, rfl⟩ := List.length_eq_one_iff.mp (same.trans (by simp [dstVars, pathless]))
      have kept : ({ dest with base := ref } : AccessPath O).isPathless = dest.isPathless := rfl
      simp [setDst, dstVars, pathless, kept]
    · obtain rfl := List.length_eq_zero_iff.mp (same.trans (by simp [dstVars, pathless]))
      simp [setDst, dstVars, pathless]
  | callAssign info style rets args => rfl
  | phi dest operands =>
    obtain ⟨ref, rfl⟩ := List.length_eq_one_iff.mp same
    rfl
  | nop => exact (List.length_eq_zero_iff.mp same).symm

@[simp]
theorem srcVars_setDst (st : Statement O) (refs : List VariableRef) : (st.setDst refs).srcVars = st.srcVars := by
  cases st with
  | assign dest sources =>
    by_cases pathless : dest.isPathless
    · have kept : ({ dest with base := refs.headD dest.base } : AccessPath O).isPathless = dest.isPathless := rfl
      rw [setDst, if_pos pathless, srcVars, srcVars, kept, if_pos pathless, if_pos pathless]
    · simp [setDst, srcVars, pathless]
  | callAssign _ _ _ _ | phi _ _ | nop => rfl

end Statement

@[simp]
theorem Terminator.srcVars_mapSrc (term : Terminator O) : (term.mapSrc f).srcVars = term.srcVars.map f := by
  cases term with
  | ret args => exact Exp.filterMap_mapBase args
  | goto targets => rfl

@[simp]
theorem Exp.mapBase_id : Exp.mapBase id = (id : Exp O → Exp O) := by
  funext exp
  cases exp <;> rfl

@[simp]
theorem Statement.mapSrc_id : Statement.mapSrc id = (id : Statement O → Statement O) := by
  funext st
  cases st with
  | assign dest sources => simp [Statement.mapSrc]
  | callAssign info style rets args =>
    have receiver : style.mapReceiver id = style := by cases style <;> rfl
    simp [Statement.mapSrc, receiver]
  | phi dest operands => simp [Statement.mapSrc]
  | nop => rfl

@[simp]
theorem Terminator.mapSrc_id : Terminator.mapSrc id = (id : Terminator O → Terminator O) := by
  funext term
  cases term <;> simp [Terminator.mapSrc]

end Rewriting

end Ctadl.Cir
