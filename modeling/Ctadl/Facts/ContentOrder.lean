import Ctadl.Collections.ContentSort
import Ctadl.Facts.Basic

/-! # Content orders

Adjacency lists and results are sorted by what their rows denote, never by handle, so that a search
breaks ties the same way in every run.
-/

namespace Ctadl

open Facts Collections

namespace Cir.PathSegment

/-- The place of a segment's kind. -/
def rank : PathSegment → ℕ
  | field _ => 0
  | offset _ => 1
  | deref => 2
  | value => 3

/-- The derived order: by kind, then by content. -/
def cmp : PathSegment → PathSegment → Ordering
  | field a, field b => compare a b
  | offset a, offset b => compare a.toInt b.toInt
  | a, b => compare a.rank b.rank

def name : PathSegment → String
  | field name => name
  | offset _ | deref | value => ""

def amount : PathSegment → ℤ
  | offset k => k.toInt
  | field _ | deref | value => 0

/-- Segments of different kinds differ in rank, and the parts a kind lacks are equal. -/
theorem cmp_eq (a b : PathSegment) : cmp a b =
    (compare a.rank b.rank).then ((compare a.name b.name).then (compare a.amount b.amount)) := by
  cases a <;> cases b <;> simp [cmp, rank, name, amount] <;> rfl

theorem orders_cmp : Orders cmp (fun _ => True) (· = ·) := by
  have parts := (Orders.of_ord.on rank).then ((Orders.of_ord.on name).then (Orders.of_ord.on amount))
  rw [show cmp = _ from funext fun a => funext (cmp_eq a)]
  refine parts.mono (by simp) ?_
  rintro a b ⟨rank, name, amount⟩
  cases a <;> cases b <;> simp_all [PathSegment.rank, PathSegment.name, PathSegment.amount, Int64.toInt_inj]

end Cir.PathSegment

namespace Facts

/-- Segment by segment, a proper prefix first. -/
def Path.contentCmp (p q : Path) : Ordering := List.compareLex Cir.PathSegment.cmp p.segs q.segs

theorem Path.orders_contentCmp : Orders Path.contentCmp (fun _ => True) (· = ·) := by
  have trans := Cir.PathSegment.orders_cmp.trans
  have lawful : Std.LawfulEqCmp Cir.PathSegment.cmp :=
    { eq_of_compare := Cir.PathSegment.orders_cmp.same_of_eq trivial trivial
      compare_self := Std.ReflCmp.compare_self }
  have segments : Orders (List.compareLex Cir.PathSegment.cmp) (fun _ => True) (· = ·) :=
    ⟨inferInstance, fun _ _ => Std.LawfulEqCmp.eq_of_compare⟩
  exact (segments.on Path.segs).mono (fun _ => id) fun _ _ => Path.ext

/-- True when `self` is `port` and then any components, with no offset arithmetic. -/
def Path.isExtensionOf (self port : Path) : Bool := port.segs.isPrefixOf self.segs

namespace FlowVariable

/-- The tag, and within the locals' tag the bit of a global. -/
def rank : FlowVariable → ℕ
  | uninit => 0
  | .local _ => 1
  | global _ => 2
  | formal _ => 3
  | callArg _ _ => 4

/-- By what the variables denote. A call argument is its packed bytes: the instruction, then the formal
as two unsigned bytes. -/
def contentCmp : FlowVariable → FlowVariable → Ordering
  | .local a, .local b => compare a b
  | formal a, formal b => compare a b
  | callArg i a, callArg j b => (compare i j).then (compare (a % 65536) (b % 65536))
  | global a, global b => compare a b
  | v, w => compare v.rank w.rank

/-- The index of a formal is a 16-bit integer. -/
def Fits : FlowVariable → Prop
  | formal i | callArg _ i => -2 ^ 15 ≤ i ∧ i < 2 ^ 15
  | uninit | .local _ | global _ => True

def name : FlowVariable → String
  | .local name | global name => name
  | uninit | formal _ | callArg _ _ => ""

def insn : FlowVariable → InsnId
  | callArg insn _ => insn
  | uninit | .local _ | formal _ | global _ => 0

/-- The number a variable is compared by: a formal's index, and a call argument's as two unsigned bytes. -/
def index : FlowVariable → ℤ
  | formal i => i
  | callArg _ i => i % 65536
  | uninit | .local _ | global _ => 0

theorem contentCmp_eq (v w : FlowVariable) : contentCmp v w = (compare v.rank w.rank).then
    ((compare v.name w.name).then ((compare v.insn w.insn).then (compare v.index w.index))) := by
  cases v <;> cases w <;> simp [contentCmp, rank, name, insn, index] <;> rfl

/-- Sixteen bits tell the integers in their range apart. -/
theorem eq_of_bytes {i j : ℤ} (fitsI : -32768 ≤ i ∧ i < 32768) (fitsJ : -32768 ≤ j ∧ j < 32768)
    (same : i % 65536 = j % 65536) : i = j := by
  omega

theorem eq_of_parts {v w : FlowVariable} (fitsV : v.Fits) (fitsW : w.Fits) (rank : v.rank = w.rank)
    (name : v.name = w.name) (insn : v.insn = w.insn) (index : v.index % 65536 = w.index % 65536) : v = w := by
  cases v <;> cases w <;> simp_all [FlowVariable.rank, FlowVariable.name, FlowVariable.insn, FlowVariable.index, Fits] <;>
    exact eq_of_bytes fitsV fitsW index

theorem orders_contentCmp : Orders contentCmp Fits (· = ·) := by
  have parts := (Orders.of_ord.on rank).then ((Orders.of_ord.on name).then
    ((Orders.of_ord.on insn).then (Orders.of_ord.on index)))
  rw [show contentCmp = _ from funext fun v => funext (contentCmp_eq v)]
  refine ⟨parts.trans, fun fitsV fitsW equal => ?_⟩
  obtain ⟨rank, name, insn, index⟩ := parts.same_of_eq (by simp) (by simp) equal
  exact eq_of_parts fitsV fitsW rank name insn (congrArg (· % 65536) index)

end FlowVariable

def FlowVertex.contentCmp (x y : FlowVertex) : Ordering := (x.var.contentCmp y.var).then (x.path.contentCmp y.path)

theorem FlowVertex.orders_contentCmp : Orders FlowVertex.contentCmp (·.var.Fits) (· = ·) := by
  have parts := (FlowVariable.orders_contentCmp.on FlowVertex.var).then (Path.orders_contentCmp.on FlowVertex.path)
  refine parts.mono (fun _ fits => ⟨fits, trivial⟩) ?_
  rintro ⟨v, p⟩ ⟨w, q⟩ ⟨rfl, rfl⟩
  rfl

end Facts

end Ctadl
