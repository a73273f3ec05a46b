import Ctadl.Cir.Path
import Mathlib.Data.List.Dedup

/-! # The syntax of a model file

A rule is `heads :- body;`. A body is built from atoms, a relation's or an operator's; a head names ports, and the
flows between them. Source positions are left out: they reach diagnostics only.
-/

namespace Ctadl.Portcullis

open Cir

inductive Literal where
  | str (s : String)
  | int (i : Int)
  | bool (b : Bool)
deriving DecidableEq, Repr

inductive Term where
  | var (v : String)
  | lit (l : Literal)
  /-- `_`: matches anything and binds nothing. -/
  | wildcard
deriving DecidableEq, Repr

inductive CmpOp where
  | eq | ne | lt | le | gt | ge | in
deriving DecidableEq, Repr

inductive Rhs where
  | term (t : Term)
  | set (items : List Literal)
deriving DecidableEq, Repr

structure AttrConstraint where
  name : String
  op : CmpOp
  rhs : Rhs
deriving DecidableEq, Repr

/-- One relation atom or one operator application. -/
structure Atom where
  name : String
  columns : List Term
  attrs : List AttrConstraint := []
deriving DecidableEq, Repr

/-! ## Heads -/

inductive PortBase where
  | ret
  | arg (i : Int)
  /-- `arg(_)`. -/
  | anyArg
  /-- `arg(I)` with `I` bound in the body. -/
  | argVar (v : String)
  /-- `local(L)` with `L` bound in the body. -/
  | local (v : String)
  /-- `self`, the global a port is anchored at. -/
  | globalSelf
deriving DecidableEq, Repr

structure Port where
  base : PortBase
  path : List PathSegment := []
deriving DecidableEq

/-- A port, possibly anchored: `F::arg(0).foo`. -/
structure PortExpr where
  anchor : Option Term := none
  port : Port
deriving DecidableEq

inductive FlowOp where
  | toRight | toLeft | both
deriving DecidableEq, Repr

/-- `left -> right`, `left <- right`, `left <-> right`, as written. -/
structure Flow where
  left : PortExpr
  right : PortExpr
  op : FlowOp
deriving DecidableEq

end Ctadl.Portcullis
