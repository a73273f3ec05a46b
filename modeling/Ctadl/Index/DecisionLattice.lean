import Ctadl.Index.Condition
import Ctadl.Index.UnionCache

/-! # Decision sets and conditions as lattices

Under a bound the sets of one kind that an index represents are the empty set, the sets within the bound (one member, for
collapsing sets) and `⊤`. Among them the union is the least upper bound of inclusion, widened or not, so it is
commutative, associative and idempotent. The conditions over them, `always` above, are a lattice the same way, and
composing two conditions is a partial meet.
-/

namespace Ctadl.Index

open Facts

namespace DecisionSet

/-- The members a set of the kind may have: one of a collapsing set, and of an exact one the bound, `0` being no bound. -/
def limit (bound : Nat) (collapse : Bool) : Nat := if collapse then 1 else bound

/-- The sets of one kind an index can represent under a bound. The empty set is of either kind. -/
def Represented (bound : Nat) (collapse : Bool) : DecisionSet → Prop
  | explicit members k => k = (collapse && decide (members ≠ ∅)) ∧ ¬ Widens (limit bound collapse) members
  | top k => k = collapse

/-- Where a set stands: by its members, or above all. -/
def level : DecisionSet → WithTop (Finset Decision)
  | explicit members _ => members
  | top _ => ⊤

variable {bound : Nat} {collapse : Bool} {a b u : DecisionSet} {members other : Finset Decision}

theorem Widens.mono (widens : Widens bound members) (le : members ⊆ other) : Widens bound other :=
  ⟨widens.1, widens.2.trans_le (Finset.card_le_card le)⟩

theorem not_widens_empty : ¬ Widens bound ∅ := by simp [Widens]

theorem represented_empty (bound : Nat) (collapse : Bool) : empty.Represented bound collapse :=
  ⟨by simp, not_widens_empty⟩

theorem represented_top (bound : Nat) (collapse : Bool) : (top collapse).Represented bound collapse := rfl

theorem represented_intern (fits : ¬ Widens (limit bound collapse) members) :
    (intern members collapse).Represented bound collapse := by
  unfold intern
  split_ifs with none
  · exact represented_empty bound collapse
  · exact ⟨by simp [none], fits⟩

@[simp] theorem level_intern : (intern members collapse).level = members := by
  unfold intern
  split_ifs with none
  · rw [none]
    rfl
  · rfl

/-- Inclusion is the order of the levels. -/
theorem isSubset_iff : a.isSubset b ↔ a.level ≤ b.level := by
  unfold isSubset
  split_ifs with trivially widened
  · refine iff_of_true rfl ?_
    rcases trivially with rfl | rfl | top
    · exact le_rfl
    · exact bot_le
    · cases b with
      | explicit => exact nomatch top
      | top => exact le_top
  · cases b with
    | top => exact absurd (.inr (.inr rfl)) trivially
    | explicit y => cases a with
      | explicit => exact nomatch widened
      | top => simp [level]
  · cases b with
    | top => exact absurd (.inr (.inr rfl)) trivially
    | explicit y => cases a with
      | explicit x =>
        simp only [ids, level, WithTop.coe_le_coe]
        exact decide_eq_true_iff
      | top => exact absurd rfl widened

/-- Sets of one kind are told apart by where they stand. -/
theorem level_injective (repA : a.Represented bound collapse) (repB : b.Represented bound collapse)
    (same : a.level = b.level) : a = b := by
  cases a with
  | explicit x k => cases b with
    | explicit y l =>
      obtain rfl : x = y := WithTop.coe_injective same
      rw [repA.1, repB.1]
    | top l => exact nomatch same
  | top k => cases b with
    | explicit y l => exact nomatch same
    | top l => rw [(show k = collapse from repA), (show l = collapse from repB)]

section Unions

/-- Only the empty set is of no kind. -/
private theorem empty_or_kind (rep : a.Represented bound collapse) : a = empty ∨ a.isCollapsing = collapse := by
  cases a with
  | explicit x k =>
    by_cases none : x = ∅
    · left
      rw [rep.1, none]
      simp [empty]
    · right
      rw [isCollapsing, rep.1]
      simp [none]
  | top k => exact .inr rep

private theorem kind_or_empty (repA : a.Represented bound collapse) (repB : b.Represented bound collapse) :
    (a.isCollapsing || b.isCollapsing) = collapse ∨ (a = empty ∧ b = empty) := by
  rcases empty_or_kind repA with rfl | kindA
  · rcases empty_or_kind repB with rfl | kindB
    · exact .inr ⟨rfl, rfl⟩
    · exact .inl (by simp [empty, isCollapsing, ← kindB])
  · rcases empty_or_kind repB with rfl | kindB
    · exact .inl (by simp [empty, isCollapsing, ← kindA])
    · exact .inl (by rw [kindA, kindB, Bool.or_self])

/-- An exact set is within the bound. -/
private theorem fits_of_exact (rep : a.Represented bound collapse) (exact : a.isCollapsing = false) :
    ¬ Widens bound a.ids := by
  cases a with
  | top k => exact not_widens_empty
  | explicit x k =>
    obtain ⟨kind, fits⟩ := rep
    obtain rfl : k = false := exact
    cases collapse with
    | false => exact fits
    | true =>
      obtain rfl : x = ∅ := by simpa using kind.symm
      exact not_widens_empty

private theorem merged_of_kind (kind : (a.isCollapsing || b.isCollapsing) = collapse) :
    merged bound a b =
      if a.isTop ∨ b.isTop ∨ Widens (limit bound collapse) (a.ids ∪ b.ids) then top collapse
      else intern (a.ids ∪ b.ids) collapse := by
  subst kind
  simp only [merged, limit, Bool.or_eq_true, decide_eq_true_eq, or_assoc]

private theorem merged_empty (bound : Nat) : merged bound empty empty = empty := by
  rw [merged_of_kind (show _ = false from rfl)]
  simp [empty, isTop, ids, not_widens_empty, intern]

theorem represented_merged (repA : a.Represented bound collapse) (repB : b.Represented bound collapse) :
    (merged bound a b).Represented bound collapse := by
  rcases kind_or_empty repA repB with kind | ⟨rfl, rfl⟩
  · rw [merged_of_kind kind]
    split_ifs with widened
    · exact represented_top bound collapse
    · exact represented_intern fun widens => widened (.inr (.inr widens))
  · rw [merged_empty]
    exact represented_empty bound collapse

/-- An explicit set stands at its members. -/
private theorem level_of_explicit (explicit : ¬ a.isTop) : a.level = a.ids := by
  cases a with
  | explicit x k => rfl
  | top k => exact absurd rfl explicit

theorem level_le_merged (repA : a.Represented bound collapse) (repB : b.Represented bound collapse) :
    a.level ≤ (merged bound a b).level ∧ b.level ≤ (merged bound a b).level := by
  rcases kind_or_empty repA repB with kind | ⟨rfl, rfl⟩
  · rw [merged_of_kind kind]
    split_ifs with widened
    · exact ⟨le_top, le_top⟩
    · simp only [not_or] at widened
      rw [level_of_explicit widened.1, level_of_explicit widened.2.1, level_intern, WithTop.coe_le_coe, WithTop.coe_le_coe]
      exact ⟨Finset.subset_union_left, Finset.subset_union_right⟩
  · exact ⟨bot_le, bot_le⟩

/-- Nothing represented is above both sets and not above their merge, widened though it may be. -/
theorem merged_level_le (repA : a.Represented bound collapse) (repB : b.Represented bound collapse)
    (repU : u.Represented bound collapse) (belowA : a.level ≤ u.level) (belowB : b.level ≤ u.level) :
    (merged bound a b).level ≤ u.level := by
  cases u with
  | top k => exact le_top
  | explicit m k =>
    rcases kind_or_empty repA repB with kind | ⟨rfl, rfl⟩
    · have explicit {ds : DecisionSet} (below : ds.level ≤ (DecisionSet.explicit m k).level) : ¬ ds.isTop ∧ ds.ids ⊆ m := by
        cases ds with
        | explicit x l => exact ⟨nofun, WithTop.coe_le_coe.mp below⟩
        | top l => exact absurd below (by simp [level])
      obtain ⟨plainA, subA⟩ := explicit belowA
      obtain ⟨plainB, subB⟩ := explicit belowB
      have sub : a.ids ∪ b.ids ⊆ m := Finset.union_subset subA subB
      have fits : ¬ (a.isTop ∨ b.isTop ∨ Widens (limit bound collapse) (a.ids ∪ b.ids)) := by
        rintro (top | top | widens)
        · exact plainA top
        · exact plainB top
        · exact repU.2 (widens.mono sub)
      rw [merged_of_kind kind, if_neg fits, level_intern]
      exact WithTop.coe_le_coe.mpr sub
    · rw [merged_empty]
      exact bot_le

/-- Under one bound the union merges the two sets and widens what is past it. -/
theorem union_eq_merged (repA : a.Represented bound collapse) (repB : b.Represented bound collapse) :
    union bound a b = merged bound a b := by
  have interned {ds : DecisionSet} (rep : ds.Represented bound collapse) : ds.Interned := by
    cases ds with
    | top k => trivial
    | explicit x k =>
      rintro rfl
      obtain ⟨kind, fits⟩ := rep
      obtain ⟨rfl, nonempty⟩ : collapse = true ∧ x ≠ ∅ := by simpa using kind.symm
      have some := Finset.card_pos.mpr (Finset.nonempty_iff_ne_empty.mpr nonempty)
      simp only [limit, if_true, Widens, ne_eq, one_ne_zero, not_false_eq_true, true_and] at fits
      omega
  have alike : Alike a b := by
    rcases empty_or_kind repA with none | kindA
    · exact .inl none
    · exact .inr ((empty_or_kind repB).imp_right fun kindB => kindA.trans kindB.symm)
  have nested (exactA : a.isCollapsing = false) (exactB : b.isCollapsing = false) (within : a.ids ⊆ b.ids ∨ b.ids ⊆ a.ids) :
      ¬ Widens bound (a.ids ∪ b.ids) := by
    rcases within with le | ge
    · rw [Finset.union_eq_right.mpr le]
      exact fits_of_exact repB exactB
    · rw [Finset.union_eq_left.mpr ge]
      exact fits_of_exact repA exactA
  by_cases memoised : Memoised a b
  · have merges : union bound a b = unionUncached bound a b := by
      obtain ⟨differ, nonemptyA, nonemptyB, exactA, exactB, explicitA, explicitB⟩ := memoised
      simp [union, differ, nonemptyA, nonemptyB, exactA, exactB, explicitA, explicitB]
    rw [merges, unionUncached_eq_merged_iff memoised]
    split_ifs with within
    · exact nested memoised.2.2.2.1 memoised.2.2.2.2.1 within
    · exact Iff.rfl
  · rw [union_eq_merged_iff (interned repA) (interned repB) alike memoised]
    by_contra plain
    simp only [not_or, Bool.not_eq_true] at plain
    obtain ⟨explicitA, explicitB, exactA, exactB, widens⟩ := plain
    -- sets apart would have gone through the memo
    by_cases within : a.ids ⊆ b.ids ∨ b.ids ⊆ a.ids
    · exact widens (nested exactA exactB within)
    · exact memoised (memoised_of_apart within ⟨explicitA, explicitB, exactA, exactB⟩)

theorem represented_union (repA : a.Represented bound collapse) (repB : b.Represented bound collapse) :
    (union bound a b).Represented bound collapse := by
  rw [union_eq_merged repA repB]
  exact represented_merged repA repB

/-- A union is above both sets. -/
theorem level_le_union (repA : a.Represented bound collapse) (repB : b.Represented bound collapse) :
    a.level ≤ (union bound a b).level ∧ b.level ≤ (union bound a b).level := by
  rw [union_eq_merged repA repB]
  exact level_le_merged repA repB

/-- What is represented above both sets is above their union. -/
theorem union_level_le (repA : a.Represented bound collapse) (repB : b.Represented bound collapse)
    (repU : u.Represented bound collapse) (belowA : a.level ≤ u.level) (belowB : b.level ≤ u.level) :
    (union bound a b).level ≤ u.level := by
  rw [union_eq_merged repA repB]
  exact merged_level_le repA repB repU belowA belowB

end Unions

/-- A set an index of the kind represents under the bound. -/
def SetOf (bound : Nat) (collapse : Bool) := {ds : DecisionSet // ds.Represented bound collapse}

namespace SetOf

instance : PartialOrder (SetOf bound collapse) :=
  PartialOrder.lift (fun ds => ds.val.level) fun a b same => Subtype.ext (level_injective a.property b.property same)

theorem le_iff {a b : SetOf bound collapse} : a ≤ b ↔ a.val.isSubset b.val := isSubset_iff.symm

instance : SemilatticeSup (SetOf bound collapse) where
  sup a b := ⟨union bound a.val b.val, represented_union a.property b.property⟩
  le_sup_left a b := (level_le_union a.property b.property).1
  le_sup_right a b := (level_le_union a.property b.property).2
  sup_le a b u := union_level_le a.property b.property u.property

theorem val_sup (a b : SetOf bound collapse) : (a ⊔ b).val = union bound a.val b.val := rfl

end SetOf

section Intersections

/-- The intersection stands at the meet. -/
theorem level_intersection (repA : a.Represented bound collapse) (repB : b.Represented bound collapse) :
    (intersection a b).level = a.level ⊓ b.level ∧ (intersection a b).Represented bound collapse := by
  unfold intersection
  split_ifs with trivially widened
  · refine ⟨?_, repB⟩
    rcases trivially with rfl | top
    · rw [inf_idem]
    · cases a with
      | explicit => exact nomatch top
      | top k => exact (top_inf_eq _).symm
  · refine ⟨?_, repA⟩
    cases b with
    | explicit => exact nomatch widened
    | top k => exact (inf_top_eq _).symm
  · cases a with
    | top k => exact absurd (.inr rfl) trivially
    | explicit x k => cases b with
      | top l => exact absurd rfl widened
      | explicit y l =>
        have kept : (x.filter fun d => contains (explicit y l) d) = x ∩ y := by
          ext d
          simp only [contains, isTop, ids, Bool.false_or, Finset.mem_filter, Finset.mem_inter]
          exact and_congr_right fun _ => decide_eq_true_iff
        have smaller : x ∩ y ⊆ x := Finset.inter_subset_left
        simp only [ids, isCollapsing, kept]
        refine ⟨by rw [level_intern]; rfl, ?_⟩
        rcases empty_or_kind repA with none | kind
        · have gone : x = ∅ := by simpa [empty] using (DecisionSet.explicit.inj none).1
          rw [gone, Finset.empty_inter]
          exact represented_empty bound collapse
        · obtain rfl : k = collapse := kind
          exact represented_intern fun widens => repA.2 (widens.mono smaller)

theorem intersection_comm (repA : a.Represented bound collapse) (repB : b.Represented bound collapse) :
    intersection a b = intersection b a := by
  obtain ⟨levelAB, repAB⟩ := level_intersection repA repB
  obtain ⟨levelBA, repBA⟩ := level_intersection repB repA
  exact level_injective repAB repBA (by rw [levelAB, levelBA, inf_comm])

theorem intersection_assoc (repA : a.Represented bound collapse) (repB : b.Represented bound collapse)
    (repU : u.Represented bound collapse) :
    intersection (intersection a b) u = intersection a (intersection b u) := by
  obtain ⟨levelAB, repAB⟩ := level_intersection repA repB
  obtain ⟨levelBU, repBU⟩ := level_intersection repB repU
  obtain ⟨left, repL⟩ := level_intersection repAB repU
  obtain ⟨right, repR⟩ := level_intersection repA repBU
  exact level_injective repL repR (by rw [left, right, levelAB, levelBU, inf_assoc])

theorem intersection_empty (rep : a.Represented bound collapse) : intersection a empty = empty ∧ intersection empty a = empty := by
  have repE := represented_empty bound collapse
  obtain ⟨levelL, repL⟩ := level_intersection rep repE
  have least : (empty.level : WithTop (Finset Decision)) = ⊥ := rfl
  have gone : intersection a empty = empty := level_injective repL repE (by rw [levelL, least, inf_bot_eq])
  exact ⟨gone, intersection_comm rep repE ▸ gone⟩

end Intersections

end DecisionSet

namespace Cond

/-- The conditions an index of the configuration `h` represents: where widened sets spill, no condition is `⊤`. -/
def Represented (h : HybridContext) : Cond → Prop
  | under ds => ds.Represented h.widenBound (decide (h = .collapse)) ∧ (h.spills → ¬ ds.isTop)
  | always => True

variable {h : HybridContext} {a b c a' b' : Cond} {ds es : DecisionSet}

theorem level_under (ds : DecisionSet) : (under ds).level = (ds.level : WithTop (WithTop (Finset Decision))) := by
  cases ds <;> rfl

theorem eq_of_level (repA : a.Represented h) (repB : b.Represented h) (same : a.level = b.level) : a = b := by
  cases a with
  | always => cases b with
    | always => rfl
    | under es =>
      rw [level_under] at same
      exact nomatch same
  | under ds => cases b with
    | always =>
      rw [level_under] at same
      exact nomatch same
    | under es =>
      rw [level_under, level_under] at same
      rw [DecisionSet.level_injective repA.1 repB.1 (WithTop.coe_injective same)]

theorem represented_ofSet (rep : ds.Represented h.widenBound (decide (h = .collapse))) : (ofSet h ds).Represented h := by
  unfold ofSet
  split_ifs with spilled
  · trivial
  · refine ⟨rep, fun spills top => spilled ?_⟩
    rw [top, spills]
    rfl

theorem level_le_ofSet (ds : DecisionSet) : (under ds).level ≤ (ofSet h ds).level := by
  unfold ofSet
  split_ifs
  · exact le_top
  · exact le_rfl

/-- Below a represented set nothing spills. -/
private theorem ofSet_level_le (rep : (under es).Represented h) (below : ds.level ≤ es.level) :
    (ofSet h ds).level ≤ (under es).level := by
  unfold ofSet
  split_ifs with spilled
  · obtain ⟨top, spills⟩ : ds.isTop ∧ h.spills := by simpa using spilled
    cases es with
    | top k => exact absurd rfl (rep.2 spills)
    | explicit y k => cases ds with
      | explicit x l => exact nomatch top
      | top l => exact absurd below (by simp [DecisionSet.level])
  · rw [level_under, level_under]
    exact WithTop.coe_le_coe.mpr below

end Cond

/-- A condition an index of the configuration `h` represents. -/
def CondIn (h : HybridContext) := {c : Cond // c.Represented h}

namespace CondIn

open Cond

variable {h : HybridContext}

instance : PartialOrder (CondIn h) :=
  PartialOrder.lift (fun c => c.val.level) fun a b same => Subtype.ext (eq_of_level a.property b.property same)

theorem le_def {a b : CondIn h} : a ≤ b ↔ a.val.level ≤ b.val.level := Iff.rfl

theorem represented_join (a b : CondIn h) : (join h a.val b.val).Represented h := by
  obtain ⟨a, repA⟩ := a
  obtain ⟨b, repB⟩ := b
  cases a with
  | always => trivial
  | under x => cases b with
    | always => trivial
    | under y => exact represented_ofSet (DecisionSet.represented_union repA.1 repB.1)

private theorem le_join (a b : CondIn h) : a.val.level ≤ (join h a.val b.val).level ∧ b.val.level ≤ (join h a.val b.val).level := by
  obtain ⟨a, repA⟩ := a
  obtain ⟨b, repB⟩ := b
  cases a with
  | always => exact ⟨le_top, le_top⟩
  | under x => cases b with
    | always => exact ⟨le_top, le_top⟩
    | under y =>
      obtain ⟨left, right⟩ := DecisionSet.level_le_union repA.1 repB.1
      refine ⟨le_trans ?_ (level_le_ofSet _), le_trans ?_ (level_le_ofSet _)⟩
      · rw [level_under, level_under]
        exact WithTop.coe_le_coe.mpr left
      · rw [level_under, level_under]
        exact WithTop.coe_le_coe.mpr right

private theorem join_le (a b c : CondIn h) (belowA : a.val.level ≤ c.val.level) (belowB : b.val.level ≤ c.val.level) :
    (join h a.val b.val).level ≤ c.val.level := by
  obtain ⟨a, repA⟩ := a
  obtain ⟨b, repB⟩ := b
  obtain ⟨c, repC⟩ := c
  cases c with
  | always => exact le_top
  | under z =>
    simp only [level_under] at belowA belowB
    cases a with
    | always => exact absurd belowA (by simp [level])
    | under x => cases b with
      | always => exact absurd belowB (by simp [level])
      | under y =>
        rw [level_under, WithTop.coe_le_coe] at belowA belowB
        apply ofSet_level_le repC
        exact DecisionSet.union_level_le repA.1 repB.1 repC.1 belowA belowB

instance : SemilatticeSup (CondIn h) where
  sup a b := ⟨join h a.val b.val, represented_join a b⟩
  le_sup_left a b := (le_join a b).1
  le_sup_right a b := (le_join a b).2
  sup_le a b c := join_le a b c

theorem val_sup (a b : CondIn h) : (a ⊔ b).val = join h a.val b.val := rfl

end CondIn

namespace Cond

variable {h : HybridContext} {a b c a' b' : Cond} {ds es fs : DecisionSet}

section Composition

/-- What two sets share is a condition of the configuration: a set that spills is in neither. -/
theorem represented_intersection (repD : (under ds).Represented h) (repE : (under es).Represented h) :
    (under (ds.intersection es)).Represented h := by
  obtain ⟨level, rep⟩ := DecisionSet.level_intersection repD.1 repE.1
  refine ⟨rep, fun spills top => ?_⟩
  cases ds with
  | top k => exact repD.2 spills rfl
  | explicit x k => cases shared : (DecisionSet.explicit x k).intersection es with
    | explicit y l => exact nomatch shared ▸ top
    | top l =>
      rw [shared] at level
      have below : (⊤ : WithTop (Finset Decision)) ≤ (x : WithTop (Finset Decision)) := level.le.trans inf_le_left
      exact absurd below (by simp)

/-- Two sets compose to what they share. -/
theorem and_under (repD : (under ds).Represented h) (repE : (under es).Represented h) :
    and h (under ds) (under es) =
      if ds.intersection es = .empty then none else some (under (ds.intersection es)) := by
  have stays : ofSet h (ds.intersection es) = under (ds.intersection es) := by
    apply if_neg
    rw [Bool.and_eq_true]
    exact fun ⟨top, spills⟩ => (represented_intersection repD repE).2 spills top
  rw [and, stays]

theorem represented_and (repA : a.Represented h) (repB : b.Represented h) (composed : and h a b = some c) : c.Represented h := by
  cases a with
  | always =>
    obtain rfl : b = c := by cases b <;> exact Option.some.inj composed
    exact repB
  | under x => cases b with
    | always =>
      obtain rfl : under x = c := Option.some.inj composed
      exact repA
    | under y =>
      rw [and_under repA repB] at composed
      split_ifs at composed
      obtain rfl := Option.some.inj composed
      exact represented_intersection repA repB

theorem and_always (a : Cond) : and h a always = some a := by cases a <;> rfl

theorem always_and (a : Cond) : and h always a = some a := by cases a <;> rfl

theorem and_comm (repA : a.Represented h) (repB : b.Represented h) : and h a b = and h b a := by
  cases a with
  | always => rw [always_and, and_always]
  | under x => cases b with
    | always => rw [always_and, and_always]
    | under y => rw [and_under repA repB, and_under repB repA, DecisionSet.intersection_comm repA.1 repB.1]

/-- Composing a third set with what the first two share. -/
private theorem and_bind (repD : (under ds).Represented h) (repE : (under es).Represented h) (repF : (under fs).Represented h) :
    ((and h (under ds) (under es)).bind fun shared => and h shared (under fs)) =
      if (ds.intersection es).intersection fs = .empty then none
      else some (under ((ds.intersection es).intersection fs)) := by
  have rep := represented_intersection repD repE
  rw [and_under repD repE]
  split_ifs with apart gone
  · rfl
  · rw [apart] at gone
    exact absurd (DecisionSet.intersection_empty repF.1).2 gone
  all_goals rw [Option.bind_some, and_under rep repF]
  · rename_i gone
    exact if_pos gone
  · rename_i gone
    exact if_neg gone

/-- Composing three conditions does not depend on which two come first. -/
theorem and_assoc (repA : a.Represented h) (repB : b.Represented h) (repC : c.Represented h) :
    ((and h a b).bind fun ab => and h ab c) = (and h b c).bind fun bc => and h a bc := by
  have swapped {x y z : Cond} (repX : x.Represented h) (repY : y.Represented h) (repZ : z.Represented h) :
      ((and h y z).bind fun yz => and h x yz) = (and h y z).bind fun yz => and h yz x := by
    cases composed : and h y z with
    | none => rfl
    | some yz => exact and_comm repX (represented_and repY repZ composed)
  rw [swapped repA repB repC]
  cases a with
  | always => simp only [always_and, and_always, Option.bind_some, Option.bind_fun_some]
  | under ds => cases b with
    | always => simp only [always_and, and_always, Option.bind_some, and_comm repA repC]
    | under es => cases c with
      | always => simp only [and_always, Option.bind_some, Option.bind_fun_some, and_comm repA repB]
      | under fs =>
        have rotated : (ds.intersection es).intersection fs = (es.intersection fs).intersection ds := by
          rw [DecisionSet.intersection_assoc repA.1 repB.1 repC.1]
          exact DecisionSet.intersection_comm repA.1 (represented_intersection repB repC).1
        rw [and_bind repA repB repC, and_bind repB repC repA, rotated]

/-- What two conditions compose to is their meet. -/
theorem level_and (repA : a.Represented h) (repB : b.Represented h) (composed : and h a b = some c) :
    c.level = a.level ⊓ b.level := by
  cases a with
  | always =>
    rw [always_and] at composed
    rw [← Option.some.inj composed]
    exact (top_inf_eq _).symm
  | under ds => cases b with
    | always =>
      rw [and_always] at composed
      rw [← Option.some.inj composed]
      exact (inf_top_eq _).symm
    | under es =>
      rw [and_under repA repB] at composed
      split_ifs at composed
      rw [← Option.some.inj composed, level_under, level_under, level_under,
        (DecisionSet.level_intersection repA.1 repB.1).1]
      rfl

/-- Below two sets that share nothing, only such sets are. -/
private theorem apart_of_le (repD : (under ds).Represented h) (repE : (under es).Represented h) (repA : a.Represented h)
    (repB : b.Represented h) (left : a.level ≤ (under ds).level) (right : b.level ≤ (under es).level)
    (apart : ds.intersection es = .empty) : and h a b = none := by
  rw [level_under] at left right
  cases a with
  | always => exact absurd left (by simp [level])
  | under x => cases b with
    | always => exact absurd right (by simp [level])
    | under y =>
      rw [level_under, WithTop.coe_le_coe] at left right
      obtain ⟨small, repS⟩ := DecisionSet.level_intersection repA.1 repB.1
      have shared : (x.intersection y).level ≤ (ds.intersection es).level := by
        rw [small, (DecisionSet.level_intersection repD.1 repE.1).1]
        exact inf_le_inf left right
      rw [apart] at shared
      have none : x.intersection y = .empty :=
        DecisionSet.level_injective repS (DecisionSet.represented_empty _ _) (le_antisymm shared bot_le)
      rw [and_under repA repB, if_pos none]

/-- Raising what a composition is of raises it, and there still is one. -/
theorem and_mono (repA : a.Represented h) (repB : b.Represented h) (repA' : a'.Represented h) (repB' : b'.Represented h)
    (left : a.level ≤ a'.level) (right : b.level ≤ b'.level) (composed : and h a b = some c) :
    ∃ c', and h a' b' = some c' ∧ c.level ≤ c'.level := by
  cases raised : and h a' b' with
  | some c' =>
    refine ⟨c', rfl, ?_⟩
    rw [level_and repA repB composed, level_and repA' repB' raised]
    exact inf_le_inf left right
  | none =>
    cases a' with
    | always => exact nomatch always_and b' ▸ raised
    | under ds => cases b' with
      | always => exact nomatch raised
      | under es =>
        rw [and_under repA' repB'] at raised
        split_ifs at raised with apart
        exact nomatch (apart_of_le repA' repB' repA repB left right apart).symm.trans composed

end Composition

end Cond

end Ctadl.Index
