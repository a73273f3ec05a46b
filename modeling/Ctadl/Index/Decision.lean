import Ctadl.Facts.Basic
import Mathlib.Data.Finset.Card

/-! # Decisions, decision sets and conditions

A decision says that a formal of a function holds a call target; a condition is what a fact holds
under, every context or any decision of a set. The operations are those of the engine, including the
collapsing kind of set and the widening of an exact union past its bound. They only behave on the
sets one configuration can produce, so the lattice lives on `CondOf h`, the conditions well formed
under the configuration `h`.
-/

namespace Ctadl.Index

open Facts

/-- Formal `formal.path` of a function holds the call target `target`. -/
structure Decision where
  formal : FormalIndex
  path : Path
  target : CallTargetObject
deriving DecidableEq

/-- How a critical site's resolved summary is instantiated. -/
inductive HybridContext where
  | decision
  | collapse
  | bounded (k : Nat)
  | spill (k : Nat)
  | none
deriving DecidableEq, Repr

namespace HybridContext

/-- The bound an exact union widens past; `0` is no bound. -/
def widenBound : HybridContext → Nat
  | bounded k | spill k => k
  | _ => 0

/-- Whether a widened set is `always` instead. -/
def spills : HybridContext → Bool
  | spill _ => true
  | _ => false

/-- A union of decision sets is exact: sets neither collapse nor have a bound. -/
def Exact (h : HybridContext) : Prop := h ≠ .collapse ∧ h.widenBound = 0

end HybridContext

/-- A set of decisions. An explicit set lists its members; `top` stands for every decision of the
function the row belongs to. `collapsing` names the kind of set, and the two kinds never meet. -/
inductive DecisionSet where
  | explicit (members : Finset Decision) (collapsing : Bool)
  | top (collapsing : Bool)
deriving DecidableEq

namespace DecisionSet

def empty : DecisionSet := explicit ∅ false

def intern (members : Finset Decision) (collapse : Bool) : DecisionSet :=
  if members = ∅ then empty else explicit members collapse

def singleton (d : Decision) (collapse : Bool) : DecisionSet := intern {d} collapse

/-- The explicit elements; none for `top`. -/
def ids : DecisionSet → Finset Decision
  | explicit members _ => members
  | top _ => ∅

def isTop : DecisionSet → Bool
  | top _ => true
  | explicit .. => false

def isCollapsing : DecisionSet → Bool
  | explicit _ collapsing | top collapsing => collapsing

def contains (ds : DecisionSet) (d : Decision) : Bool := ds.isTop || decide (d ∈ ds.ids)

def isSubset (a b : DecisionSet) : Bool :=
  if a = b ∨ a = empty ∨ b.isTop then true
  else if a.isTop then false
  else decide (a.ids ⊆ b.ids)

/-- The merge of two explicit sets, widened past the bound. -/
def unionUncached (bound : Nat) (a b : DecisionSet) : DecisionSet :=
  if b.isSubset a then a
  else if a.isSubset b then b
  else
    let out := a.ids ∪ b.ids
    if bound ≠ 0 ∧ bound < out.card then top false else intern out false

def union (bound : Nat) (a b : DecisionSet) : DecisionSet :=
  if a = b ∨ b = empty then a
  else if a = empty then b
  else if a.isCollapsing || b.isCollapsing then
    if a.isTop then a else top true
  else if a.isTop then a
  else if b.isTop then b
  else unionUncached bound a b

def intersection (a b : DecisionSet) : DecisionSet :=
  if a = b ∨ a.isTop then b
  else if b.isTop then a
  else intern (a.ids.filter fun d => b.contains d) a.isCollapsing

end DecisionSet

/-- The condition a fact holds under: in every calling context, or under the decisions in a set. -/
inductive Cond where
  | under (ds : DecisionSet)
  | always
deriving DecidableEq

namespace Cond

/-- The condition `ds`, or `always` where `ds` is widened and widened sets spill. -/
def ofSet (h : HybridContext) (ds : DecisionSet) : Cond :=
  if ds.isTop && h.spills then always else under ds

def isAlways (c : Cond) : Bool := decide (c = always)

/-- The set a conditional fact holds under. -/
def set : Cond → Option DecisionSet
  | under ds => some ds
  | always => none

/-- The condition of a fact composed of two: it holds where both do. -/
def and (h : HybridContext) : Cond → Cond → Option Cond
  | always, c => some c
  | c, always => some c
  | under a, under b =>
    let ds := a.intersection b
    if ds = .empty then none else some (ofSet h ds)

/-- The condition of one fact derived two ways. -/
def join (h : HybridContext) : Cond → Cond → Cond
  | always, _ => always
  | _, always => always
  | under a, under b => ofSet h (a.union h.widenBound b)

end Cond

end Ctadl.Index
