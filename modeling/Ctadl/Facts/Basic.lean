import Ctadl.Facts.PathSet
import Mathlib.Algebra.Group.Int.Defs
import Mathlib.Algebra.Group.Nat.Defs

/-! # The vocabulary of the facts

Functions, instructions, variables and roots as the fact base names them. Interned handles are their
contents: two handles of one kind are equal exactly when they were made for equal contents, so the
model compares the contents. Packed identifiers (a call argument, an instruction site) are the tuples
they pack.
-/

namespace Ctadl.Facts

abbrev FunctionId := Nat

abbrev InsnId := Nat

/-- Index into the parameter list; returns count down from `-1`. -/
abbrev FormalIndex := Int

/-- A global is its name. -/
abbrev GlobalId := String

abbrev Str := String

abbrev Symbol := String

/-- The frame of program-level facts, the largest function id. -/
def GLOBAL_FRAME : FunctionId := 2 ^ 28 - 1

def RETURN_INDEX : FormalIndex := -1

/-- The root of a reachability or summary row. -/
inductive Root where
  | formal (i : FormalIndex)
  | global (g : GlobalId)
deriving DecidableEq, Repr

namespace Root

def isGlobal : Root → Bool
  | global _ => true
  | formal _ => false

def asFormal : Root → Option FormalIndex
  | formal i => some i
  | global _ => none

def asGlobal : Root → Option GlobalId
  | global g => some g
  | formal _ => none

theorem asGlobal_eq_some {r : Root} {g : GlobalId} : r.asGlobal = some g ↔ r = global g := by
  cases r <;> simp [asGlobal]

end Root

/-- A variable of one function, a call's argument, or a global. -/
inductive FlowVariable where
  | uninit
  | local (name : Str)
  | formal (i : FormalIndex)
  | callArg (insn : InsnId) (formal : FormalIndex)
  | global (g : GlobalId)
deriving DecidableEq, Repr

namespace FlowVariable

def asFormal : FlowVariable → Option FormalIndex
  | formal i => some i
  | _ => none

def asGlobal : FlowVariable → Option GlobalId
  | global g => some g
  | _ => none

def isGlobal (v : FlowVariable) : Bool := v.asGlobal.isSome

theorem asGlobal_eq_some {v : FlowVariable} {g : GlobalId} : v.asGlobal = some g ↔ v = global g := by
  cases v <;> simp [asGlobal]

/-- The root this variable is in its own function. -/
def asRoot : FlowVariable → Option Root
  | formal i => some (.formal i)
  | global g => some (.global g)
  | _ => none

/-- The vertex of a root at a call: the actual of a formal, and a global itself. -/
def callRoot (insn : InsnId) : Root → FlowVariable
  | .formal n => callArg insn n
  | .global g => global g

end FlowVariable

/-- An access path: a variable and its path. -/
structure FlowVertex where
  var : FlowVariable
  path : Path
deriving DecidableEq

/-- What a stored function reference or allocation may call. -/
inductive CallTargetObject where
  | functionId (f : FunctionId)
  | symbol (cls : Symbol)
  | luaClass (cls : Symbol)
  | cilClass (cls : Symbol)
deriving DecidableEq, Repr

/-- The key that, with a target, resolves an indirect call. -/
inductive CallDispatchKey where
  | java (name descriptor : Symbol)
  | c
  | lua (name : Symbol)
  | cil (name descriptor : Symbol)
deriving DecidableEq, Repr

inductive IntentKind where
  | activity
  | receiver
  | startedService
  | boundService
deriving DecidableEq, Repr

inductive IntentPairKind where
  | explicit
  | implicit
deriving DecidableEq, Repr

/-- What a formal shares with the caller's actual. -/
inductive FormalType where
  | copied
  | sharedFields
  | shared
deriving DecidableEq, Repr

/-- Whether a flow into `path` of the formal reaches the caller's actual. -/
def isout (i : FormalIndex) (ty : FormalType) (path : Path) : Bool :=
  if 0 ≤ i then
    match ty with
    | .copied => false
    | .shared => true
    | .sharedFields => !path.isEmpty && !path.isValue
  else true

/-- Whether a flow into `path` of this root reaches the caller: always for a global. -/
def Root.isout (r : Root) (ty : FormalType) (path : Path) : Bool :=
  match r with
  | .formal i => Facts.isout i ty path
  | .global _ => true

/-- Whether a filter's MIME type accepts an intent's. -/
def mimeMatches (filter actual : String) : Bool :=
  if filter = actual || filter = "*/*" then true
  else
    match filter.splitOn "/", actual.splitOn "/" with
    | filterTop :: filterSub :: filterMore, actualTop :: _ :: _ =>
      "/".intercalate (filterSub :: filterMore) = "*" && filterTop = actualTop
    | _, _ => false

end Ctadl.Facts
