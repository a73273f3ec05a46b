import Ctadl.Index.Decision
import Mathlib.Order.WithBot

/-! # The lattice of conditions

`Cond.join` and `Cond.and` are a join and a partial meet only on the conditions one configuration can
produce: sets of one kind, none empty, none past the bound. `CondOf h` carries that as its invariant.
Its order is read off `Cond.level`, where a set is its members, `⊤` is above every set and `always` is
above `⊤`; the join of the code is the least upper bound among the well-formed conditions, widening
included.
-/

namespace Ctadl.Index

open Facts
open DecisionSet (contains empty explicit ids intern intersection isCollapsing isSubset isTop top union unionUncached)

namespace Cond

/-- The sets of decisions, with a greatest one and `always` above it. -/
abbrev Level := WithTop (WithTop (Finset Decision))

/-- The level of an explicit set. -/
abbrev Level.ofMembers (members : Finset Decision) : Level := ((members : WithTop (Finset Decision)) : WithTop _)

/-- Where a condition stands: a set by its members, then `⊤`, then `always`. -/
def level : Cond → Level
  | under (.explicit members _) => .ofMembers members
  | under (.top _) => ((⊤ : WithTop (Finset Decision)) : WithTop _)
  | always => ⊤

/-- The sets of the configuration `h`: of its kind, nonempty, and within the bound. A collapsing set
has one member, and `⊤` exists only where sets collapse or are widened without spilling. -/
def Wf (h : HybridContext) : Cond → Prop
  | under (.explicit members collapsing) =>
    members ≠ ∅ ∧ collapsing = decide (h = .collapse) ∧ (h = .collapse → members.card ≤ 1) ∧
      (h.widenBound ≠ 0 → members.card ≤ h.widenBound)
  | under (.top collapsing) =>
    collapsing = decide (h = .collapse) ∧ (h = .collapse ∨ h.widenBound ≠ 0) ∧ h.spills = false
  | always => True

variable {h : HybridContext}

theorem level_injective {a b : Cond} (wfA : a.Wf h) (wfB : b.Wf h) (same : a.level = b.level) :
    a = b := by
  rcases a with ⟨⟨_, _⟩ | _⟩ | _ <;> rcases b with ⟨⟨_, _⟩ | _⟩ | _ <;> simp_all [level, Wf]

theorem wf_ofSet_singleton (h : HybridContext) (d : Decision) :
    (ofSet h (.singleton d (decide (h = .collapse)))).Wf h := by
  simp [ofSet, DecisionSet.singleton, intern, isTop, Wf]
  omega

/-- A set that may stand in a condition of `h`, as `ofSet` leaves it. -/
private theorem wf_ofSet_top (wide : h = .collapse ∨ h.widenBound ≠ 0) :
    (ofSet h (.top (decide (h = .collapse)))).Wf h := by
  unfold ofSet
  cases spill : h.spills <;> simp [isTop, Wf, wide, spill]

private theorem collapse_one {a b : Finset Decision} (nonemptyB : b ≠ ∅) (oneA : a.card ≤ 1)
    (sub : b ⊆ a) : a = b := by
  have some := Finset.card_pos.mpr (Finset.nonempty_iff_ne_empty.mpr nonemptyB)
  exact (Finset.eq_of_subset_of_card_le sub (by omega)).symm

/-- The merge of two exact sets within the bound keeps every member, or is widened. -/
private theorem unionUncached_explicit {bound : Nat} {a b : Finset Decision} (nonemptyA : a ≠ ∅)
    (nonemptyB : b ≠ ∅) (fitA : bound ≠ 0 → a.card ≤ bound) (fitB : bound ≠ 0 → b.card ≤ bound) :
    unionUncached bound (.explicit a false) (.explicit b false) =
      if bound ≠ 0 ∧ bound < (a ∪ b).card then .top false else .explicit (a ∪ b) false := by
  have subset_iff : ∀ x y : Finset Decision, x ≠ ∅ →
      (isSubset (.explicit x false) (.explicit y false) ↔ x ⊆ y) := by
    intro x y nonempty
    by_cases same : x = y
    · simp [isSubset, same]
    · simp only [isSubset, explicit.injEq, same, empty, nonempty,
        isTop, ids, false_and, Bool.false_eq_true, or_self, ↓reduceIte]
      exact decide_eq_true_iff
  unfold unionUncached
  simp only [subset_iff b a nonemptyB, subset_iff a b nonemptyA, ids]
  by_cases subA : b ⊆ a
  · have fits : ¬ (bound ≠ 0 ∧ bound < a.card) := fun wide => absurd (fitA wide.1) (by omega)
    rw [if_pos subA, Finset.union_eq_left.mpr subA, if_neg fits]
  by_cases subB : a ⊆ b
  · have fits : ¬ (bound ≠ 0 ∧ bound < b.card) := fun wide => absurd (fitB wide.1) (by omega)
    rw [if_neg subA, if_pos subB, Finset.union_eq_right.mpr subB, if_neg fits]
  · rw [if_neg subA, if_neg subB]
    simp [intern, nonemptyA]

/-- The union of two explicit sets has the members of both where that is a set of the configuration,
and is widened where it is not. -/
private theorem union_explicit {a b : Finset Decision} {ka kb : Bool}
    (wfA : (under (.explicit a ka)).Wf h) (wfB : (under (.explicit b kb)).Wf h) :
    (union h.widenBound (.explicit a ka) (.explicit b kb) =
        .explicit (a ∪ b) (decide (h = .collapse)) ∧
      (under (.explicit (a ∪ b) (decide (h = .collapse)))).Wf h) ∨
    (union h.widenBound (.explicit a ka) (.explicit b kb) =
        .top (decide (h = .collapse)) ∧ (h = .collapse ∨ h.widenBound ≠ 0) ∧
      ¬ (under (.explicit (a ∪ b) (decide (h = .collapse)))).Wf h) := by
  obtain ⟨nonemptyA, rfl, oneA, fitA⟩ := wfA
  obtain ⟨nonemptyB, rfl, oneB, fitB⟩ := wfB
  by_cases same : a = b
  · subst same
    exact .inl ⟨by simp [union], by simpa [Wf, nonemptyA] using ⟨oneA, fitA⟩⟩
  by_cases collapse : h = .collapse
  · subst collapse
    refine .inr ⟨?_, .inl rfl, fun wf => same ?_⟩
    · simp [union, isCollapsing, isTop, empty,
        nonemptyA, nonemptyB, same]
    · have one := wf.2.2.1 rfl
      exact (collapse_one nonemptyA one Finset.subset_union_left).symm.trans
        (collapse_one nonemptyB one Finset.subset_union_right)
  · have merged : union h.widenBound (.explicit a (decide (h = .collapse)))
        (.explicit b (decide (h = .collapse))) =
        unionUncached h.widenBound (.explicit a false) (.explicit b false) := by
      simp [union, isCollapsing, isTop, empty,
        nonemptyA, nonemptyB, same, collapse]
    rw [merged, unionUncached_explicit nonemptyA nonemptyB fitA fitB]
    split_ifs with wide
    · refine .inr ⟨by simp [collapse], .inr wide.1, fun wf => ?_⟩
      have := wf.2.2.2 wide.1
      omega
    · refine .inl ⟨by simp [collapse], ?_⟩
      simp only [Wf, collapse, false_implies, true_and]
      exact ⟨by simp [nonemptyA], fun bounded => by omega⟩

/-- The join of two conditional facts, by what the union of their sets is. -/
private theorem join_under {a b : DecisionSet} (wfA : (under a).Wf h) (wfB : (under b).Wf h) :
    (∃ x y, (under a).level = .ofMembers x ∧ (under b).level = .ofMembers y ∧
      join h (under a) (under b) = under (.explicit (x ∪ y) (decide (h = .collapse))) ∧
      (under (.explicit (x ∪ y) (decide (h = .collapse)))).Wf h) ∨
    (join h (under a) (under b) = ofSet h (.top (decide (h = .collapse))) ∧
      (h = .collapse ∨ h.widenBound ≠ 0) ∧
      ∀ x k, (under (.explicit x k)).Wf h → (under a).level ≤ .ofMembers x →
        ¬ (under b).level ≤ .ofMembers x) := by
  rcases a with ⟨a, ka⟩ | ka
  · rcases b with ⟨b, kb⟩ | kb
    · rcases union_explicit wfA wfB with ⟨joined, wf⟩ | ⟨joined, wide, broken⟩
      · exact .inl ⟨a, b, rfl, rfl, by simp [join, joined, ofSet, isTop], wf⟩
      · refine .inr ⟨by rw [join, joined], wide, fun x k wfX belowA belowB => broken ?_⟩
        simp only [level, WithTop.coe_le_coe] at belowA belowB
        have sub := Finset.union_subset belowA belowB
        have smaller := Finset.card_le_card sub
        exact ⟨by simp [wfA.1], rfl, fun c => smaller.trans (wfX.2.2.1 c),
          fun w => smaller.trans (wfX.2.2.2 w)⟩
    · obtain ⟨nonempty, rfl, -⟩ := wfA
      obtain ⟨rfl, wide, -⟩ := wfB
      refine .inr ⟨?_, wide, fun x k _ _ below => by simp [level] at below⟩
      by_cases collapse : h = .collapse <;>
        simp [join, union, empty, isCollapsing, isTop,
          nonempty, collapse]
  · obtain ⟨rfl, wide, -⟩ := wfA
    refine .inr ⟨?_, wide, fun x k _ below => by simp [level] at below⟩
    rcases b with ⟨b, kb⟩ | kb
    · obtain ⟨nonempty, rfl, -⟩ := wfB
      by_cases collapse : h = .collapse <;>
        simp [join, union, empty, isCollapsing, isTop,
          nonempty, collapse]
    · obtain ⟨rfl, -⟩ := wfB
      simp [join, union]

private theorem wf_top_level {ds : DecisionSet} (wf : (under ds).Wf h) :
    (under ds).level ≤ (ofSet h (.top (decide (h = .collapse)))).level := by
  unfold ofSet
  rcases ds with ⟨members, k⟩ | k <;> cases spill : h.spills <;> simp [isTop, level]

/-- Where unions are exact, the join of two conditional facts has the members of both. -/
theorem join_exact (exact : h.Exact) {a b : DecisionSet} (wfA : (under a).Wf h) (wfB : (under b).Wf h) :
    ∃ x y, (under a).level = .ofMembers x ∧ (under b).level = .ofMembers y ∧
      (join h (under a) (under b)).level = .ofMembers (x ∪ y) := by
  rcases join_under wfA wfB with ⟨x, y, levelA, levelB, joined, -⟩ | ⟨-, wide, -⟩
  · exact ⟨x, y, levelA, levelB, joined ▸ rfl⟩
  · exact (wide.elim exact.1 fun bounded => bounded exact.2).elim

theorem wf_join {a b : Cond} (wfA : a.Wf h) (wfB : b.Wf h) : (join h a b).Wf h := by
  rcases a with a | _ <;> rcases b with b | _ <;> try trivial
  rcases join_under wfA wfB with ⟨x, y, -, -, joined, wf⟩ | ⟨joined, wide, -⟩
  · exact joined ▸ wf
  · exact joined ▸ wf_ofSet_top wide

theorem le_join {a b : Cond} (wfA : a.Wf h) (wfB : b.Wf h) :
    a.level ≤ (join h a b).level ∧ b.level ≤ (join h a b).level := by
  rcases a with a | _ <;> rcases b with b | _ <;> try exact ⟨le_top, le_top⟩
  rcases join_under wfA wfB with ⟨x, y, levelA, levelB, joined, wf⟩ | ⟨joined, -⟩
  · rw [joined, levelA, levelB]
    simp [level]
  · exact joined ▸ ⟨wf_top_level wfA, wf_top_level wfB⟩

theorem join_le {a b c : Cond} (wfA : a.Wf h) (wfB : b.Wf h) (wfC : c.Wf h)
    (belowA : a.level ≤ c.level) (belowB : b.level ≤ c.level) : (join h a b).level ≤ c.level := by
  rcases c with c | _
  · rcases a with a | _
    · rcases b with b | _
      · rcases join_under wfA wfB with ⟨x, y, levelA, levelB, joined, -⟩ | ⟨joined, wide, widened⟩
        · rw [joined]
          rcases c with ⟨z, k⟩ | k
          · rw [levelA] at belowA
            rw [levelB] at belowB
            simp only [level, Level.ofMembers, WithTop.coe_le_coe] at belowA belowB ⊢
            exact Finset.union_subset belowA belowB
          · simp [level]
        · rcases c with ⟨z, k⟩ | k
          · exact absurd belowB (widened z k wfC belowA)
          · obtain ⟨rfl, -, noSpill⟩ := wfC
            simp [joined, ofSet, noSpill, level]
      · exact belowB
    · exact belowA
  · exact le_top

/-- A join that is still an explicit set has exactly the members of its two sides. -/
theorem join_members {a b : Cond} (wfA : a.Wf h) (wfB : b.Wf h) {x : Finset Decision}
    (joined : (join h a b).level = .ofMembers x) :
    ∃ y z, a.level = .ofMembers y ∧ b.level = .ofMembers z ∧ x = y ∪ z := by
  rcases a with a | _
  · rcases b with b | _
    · rcases join_under wfA wfB with ⟨y, z, levelA, levelB, union, -⟩ | ⟨top, -⟩
      · rw [union] at joined
        exact ⟨y, z, levelA, levelB, by simpa [level] using joined.symm⟩
      · rw [top, ofSet] at joined
        cases spill : h.spills <;> simp [isTop, spill, level] at joined
    · simp [join, level] at joined
  · simp [join, level] at joined

/-- A meet that is an explicit set is part of an explicit side. -/
theorem meet_members {a b : Cond} {x : Finset Decision} (meet : a.level ⊓ b.level = .ofMembers x) :
    ∃ y, (a.level = .ofMembers y ∨ b.level = .ofMembers y) ∧ x ⊆ y := by
  have lower : ∀ c : Cond, .ofMembers x ≤ c.level → ∀ y, c.level = .ofMembers y → x ⊆ y := by
    intro c below y explicit
    simpa [explicit] using below
  have left := lower a (meet ▸ inf_le_left)
  have right := lower b (meet ▸ inf_le_right)
  rcases a with ⟨⟨y, _⟩ | _⟩ | _
  · exact ⟨y, .inl rfl, left y rfl⟩
  all_goals
    rcases b with ⟨⟨z, _⟩ | _⟩ | _
    · exact ⟨z, .inr rfl, right z rfl⟩
    all_goals simp [level] at meet

theorem level_ne_empty {c : Cond} (wf : c.Wf h) : c.level ≠ .ofMembers ∅ := by
  rcases c with ⟨⟨members, _⟩ | _⟩ | _ <;> simp_all [level, Wf]

/-- The meet of two explicit sets of one kind. -/
private theorem intersection_explicit {a b : Finset Decision} {k : Bool} (nonempty : a ≠ ∅) :
    intersection (.explicit a k) (.explicit b k) =
      if a ∩ b = ∅ then .empty else .explicit (a ∩ b) k := by
  by_cases same : a = b
  · simp [intersection, same, same ▸ nonempty]
  · have kept : (a.filter fun d => contains (.explicit b k) d) = a ∩ b := by
      ext d
      simp only [contains, isTop, ids, Bool.false_or, Finset.mem_filter,
        Finset.mem_inter]
      exact and_congr_right fun _ => decide_eq_true_iff
    simp [intersection, same, isTop, intern, ids,
      isCollapsing, kept]

/-- Composition is the meet where the two sets share a decision, and nothing where they do not. -/
theorem and_spec {a b : Cond} (wfA : a.Wf h) (wfB : b.Wf h) :
    (and h a b = none ∧ a.level ⊓ b.level = .ofMembers ∅) ∨
      ∃ c, and h a b = some c ∧ c.Wf h ∧ c.level = a.level ⊓ b.level := by
  rcases a with a | _
  · rcases b with b | _
    · rcases a with ⟨a, ka⟩ | ka
      · rcases b with ⟨b, kb⟩ | kb
        · obtain ⟨nonemptyA, rfl, oneA, fitA⟩ := wfA
          obtain ⟨nonemptyB, rfl, oneB, fitB⟩ := wfB
          by_cases disjoint : a ∩ b = ∅
          · refine .inl ⟨by simp [and, intersection_explicit nonemptyA, disjoint], ?_⟩
            rw [← disjoint]
            rfl
          · refine .inr ⟨under (.explicit (a ∩ b) (decide (h = .collapse))), ?_, ?_, rfl⟩
            · simp [and, intersection_explicit nonemptyA, disjoint, ofSet, isTop,
                empty]
            · have smaller : (a ∩ b).card ≤ a.card := Finset.card_le_card Finset.inter_subset_left
              exact ⟨disjoint, rfl, fun c => smaller.trans (oneA c), fun w => smaller.trans (fitA w)⟩
        · have nonempty : explicit a ka ≠ .empty := by simp [empty, wfA.1]
          refine .inr ⟨under (.explicit a ka), ?_, wfA, by simp [level]⟩
          simp [and, intersection, isTop, ofSet, nonempty]
      · refine .inr ⟨under b, ?_, wfB, ?_⟩
        · have nonempty : b ≠ .empty := by
            rintro rfl
            exact wfB.1 rfl
          have noSpill : h.spills = false := wfA.2.2
          simp [and, intersection, isTop, ofSet, nonempty, noSpill]
        · rcases b with ⟨b, kb⟩ | kb <;> simp [level]
    · exact .inr ⟨under a, rfl, wfA, by simp [level]⟩
  · exact .inr ⟨b, by cases b <;> rfl, wfB, by simp [level]⟩

end Cond

/-- A condition the configuration `h` can produce. -/
def CondOf (h : HybridContext) := {c : Cond // c.Wf h}

namespace CondOf

variable {h : HybridContext}

instance : DecidableEq (CondOf h) := inferInstanceAs (DecidableEq {c : Cond // c.Wf h})

instance : PartialOrder (CondOf h) :=
  PartialOrder.lift (fun c => c.val.level) fun a b same =>
    Subtype.ext (Cond.level_injective a.property b.property same)

theorem le_def {a b : CondOf h} : a ≤ b ↔ a.val.level ≤ b.val.level := Iff.rfl

instance : SemilatticeSup (CondOf h) where
  sup a b := ⟨Cond.join h a.val b.val, Cond.wf_join a.property b.property⟩
  le_sup_left a b := (Cond.le_join a.property b.property).1
  le_sup_right a b := (Cond.le_join a.property b.property).2
  sup_le a b c := Cond.join_le a.property b.property c.property

theorem val_sup (a b : CondOf h) : (a ⊔ b).val = Cond.join h a.val b.val := rfl

/-- The unconditional fact. -/
def always : CondOf h := ⟨.always, trivial⟩

instance : OrderTop (CondOf h) where
  top := always
  le_top _ := le_top (α := Cond.Level)

theorem top_def : (⊤ : CondOf h) = always := rfl

/-- The condition of one decision. -/
def ofDecision (h : HybridContext) (d : Decision) : CondOf h :=
  ⟨Cond.ofSet h (.singleton d (decide (h = .collapse))), Cond.wf_ofSet_singleton h d⟩

/-- The sets of one configuration are of one kind. -/
theorem isCollapsing_of_set {c : CondOf h} {ds : DecisionSet} (set : c.val.set = some ds) :
    ds.isCollapsing = decide (h = .collapse) := by
  obtain ⟨⟨⟨members, k⟩ | k⟩ | _, wf⟩ := c
  · obtain rfl : explicit members k = ds := by simpa [Cond.set] using set
    exact wf.2.1
  · obtain rfl : top k = ds := by simpa [Cond.set] using set
    exact wf.1
  · simp [Cond.set] at set

/-- The condition holds where the decision `d` does. -/
def Admits (c : CondOf h) (d : Decision) : Prop := .ofMembers {d} ≤ c.val.level

theorem Admits.mono {a b : CondOf h} {d : Decision} (admits : a.Admits d) (le : a ≤ b) : b.Admits d :=
  le_trans admits le

theorem admits_iff_contains {c : CondOf h} {ds : DecisionSet} {d : Decision} (set : c.val.set = some ds) :
    c.Admits d ↔ ds.contains d := by
  obtain ⟨⟨⟨members, k⟩ | k⟩ | _, wf⟩ := c
  · obtain rfl : explicit members k = ds := by simpa [Cond.set] using set
    simp only [Admits, Cond.level, Cond.Level.ofMembers, WithTop.coe_le_coe,
      Finset.singleton_subset_iff, contains, isTop, ids, Bool.false_or]
    exact decide_eq_true_iff.symm
  · obtain rfl : top k = ds := by simpa [Cond.set] using set
    simp [Admits, Cond.level, contains, isTop]
  · simp [Cond.set] at set

/-- A conditional fact has a set. -/
theorem exists_set {c : CondOf h} (conditional : c ≠ ⊤) : ∃ ds, c.val.set = some ds := by
  obtain ⟨ds | _, wf⟩ := c
  · exact ⟨ds, rfl⟩
  · exact absurd rfl conditional

/-- A fact composed of one under `a` and one under `b` holds under `c`. -/
def Composes (a b c : CondOf h) : Prop := Cond.and h a.val b.val = some c.val

theorem composes_ofDecision {d : Decision} {b c : CondOf h}
    (both : (Cond.ofSet h (.singleton d (decide (h = .collapse)))).and h b.val = some c.val) :
    Composes (ofDecision h d) b c := both

theorem composes_of_set {a b c : CondOf h} {ds : DecisionSet} {d : Decision} (set : a.val.set = some ds)
    (both : (Cond.ofSet h (.singleton d ds.isCollapsing)).and h b.val = some c.val) :
    Composes (ofDecision h d) b c := composes_ofDecision (isCollapsing_of_set set ▸ both)

theorem composes_iff {a b c : CondOf h} :
    Composes a b c ↔ c.val.level = a.val.level ⊓ b.val.level := by
  unfold Composes
  rcases Cond.and_spec a.property b.property with ⟨none, empty⟩ | ⟨d, some, wf, level⟩
  · simp only [none, empty, reduceCtorEq, false_iff]
    exact Cond.level_ne_empty c.property
  · rw [some, ← level, Option.some_inj]
    exact ⟨fun same => same ▸ rfl, fun same => (Cond.level_injective c.property wf same).symm⟩

/-- Composition of two facts raises with them. -/
theorem Composes.mono {a b a' b' c : CondOf h} (composed : Composes a b c) (left : a ≤ a')
    (right : b ≤ b') : ∃ c', Composes a' b' c' ∧ c ≤ c' := by
  have level := composes_iff.mp composed
  have raised : c.val.level ≤ a'.val.level ⊓ b'.val.level := level ▸ inf_le_inf left right
  rcases Cond.and_spec a'.property b'.property with ⟨-, empty⟩ | ⟨d, some, wf, exact⟩
  · have bottom : c.val.level ≤ .ofMembers ∅ := empty ▸ raised
    exact absurd (le_antisymm bottom (by exact (bot_le : (⊥ : Cond.Level) ≤ _)))
      (Cond.level_ne_empty c.property)
  · exact ⟨⟨d, wf⟩, some, le_def.mpr (exact ▸ raised)⟩

theorem Composes.le {a b c : CondOf h} (composed : Composes a b c) : c ≤ a ∧ c ≤ b := by
  have level := composes_iff.mp composed
  exact ⟨le_def.mpr (level ▸ inf_le_left), le_def.mpr (level ▸ inf_le_right)⟩

/-- Whether a fact under `c` holds in a calling context: one where nothing is known of the formals, or
one where a decision holds. -/
def HoldsIn (c : CondOf h) : Option Decision → Prop
  | none => c = ⊤
  | some d => c.Admits d

theorem HoldsIn.mono {a b : CondOf h} {x : Option Decision} (holds : a.HoldsIn x) (le : a ≤ b) :
    b.HoldsIn x := by
  cases x with
  | none => exact top_le_iff.mp ((show a = ⊤ from holds) ▸ le)
  | some d => exact Admits.mono holds le

@[simp] theorem holdsIn_top (x : Option Decision) : (⊤ : CondOf h).HoldsIn x := by
  cases x with
  | none => rfl
  | some d => exact le_top (α := Cond.Level)

/-- No condition is void. -/
theorem exists_holdsIn (c : CondOf h) : ∃ x, c.HoldsIn x := by
  obtain ⟨⟨⟨members, _⟩ | _⟩ | _, wf⟩ := c
  · obtain ⟨d, member⟩ := Finset.nonempty_iff_ne_empty.mpr wf.1
    exact ⟨some d, by simpa [HoldsIn, Admits, Cond.level] using member⟩
  · exact ⟨some ⟨0, .empty, .functionId 0⟩, by simp [HoldsIn, Admits, Cond.level]⟩
  · exact ⟨none, rfl⟩

theorem Composes.holdsIn {a b c : CondOf h} (composed : Composes a b c) {x : Option Decision} :
    c.HoldsIn x ↔ a.HoldsIn x ∧ b.HoldsIn x := by
  have level := composes_iff.mp composed
  refine ⟨fun holds => ⟨holds.mono composed.le.1, holds.mono composed.le.2⟩, fun ⟨left, right⟩ => ?_⟩
  cases x with
  | none =>
    obtain ⟨rfl, rfl⟩ : a = ⊤ ∧ b = ⊤ := ⟨left, right⟩
    exact top_le_iff.mp (le_def.mpr (level ▸ le_inf le_rfl le_rfl))
  | some d => exact (le_inf left right).trans level.ge

/-- Two facts that hold in one context compose there. -/
theorem exists_composes {a b : CondOf h} {x : Option Decision} (left : a.HoldsIn x) (right : b.HoldsIn x) :
    ∃ c, Composes a b c ∧ c.HoldsIn x := by
  rcases Cond.and_spec a.property b.property with ⟨-, empty⟩ | ⟨c, some, wf, level⟩
  · exfalso
    cases x with
    | none =>
      obtain ⟨rfl, rfl⟩ : a = ⊤ ∧ b = ⊤ := ⟨left, right⟩
      exact Cond.level_ne_empty (⊤ : CondOf h).property (by simpa using empty)
    | some d =>
      have member : Cond.Level.ofMembers {d} ≤ Cond.Level.ofMembers ∅ := empty ▸ le_inf left right
      simp at member
  · exact ⟨⟨c, wf⟩, some, (Composes.holdsIn (c := ⟨c, wf⟩) some).mpr ⟨left, right⟩⟩

/-- Where unions are exact, a fact derived two ways holds where either does. -/
theorem holdsIn_sup (exact : h.Exact) {a b : CondOf h} {x : Option Decision} :
    (a ⊔ b).HoldsIn x ↔ a.HoldsIn x ∨ b.HoldsIn x := by
  refine ⟨fun holds => ?_, fun holds => holds.elim (·.mono le_sup_left) (·.mono le_sup_right)⟩
  obtain ⟨ca, wfA⟩ := a
  obtain ⟨cb, wfB⟩ := b
  cases ca with
  | always => exact .inl (holdsIn_top x)
  | under ds =>
    cases cb with
    | always => exact .inr (holdsIn_top x)
    | under es =>
      obtain ⟨y, z, levelA, levelB, joined⟩ := Cond.join_exact exact wfA wfB
      cases x with
      | none =>
        have level := congrArg (fun c : CondOf h => c.val.level) holds
        exact (WithTop.coe_ne_top (joined.symm.trans level)).elim
      | some d =>
        have member : Cond.Level.ofMembers {d} ≤ .ofMembers (y ∪ z) := joined ▸ holds
        simp only [WithTop.coe_le_coe, Finset.singleton_subset_iff,
          Finset.mem_union] at member
        refine member.imp (fun left => ?_) fun right => ?_
        · exact le_of_le_of_eq (by simpa using left) levelA.symm
        · exact le_of_le_of_eq (by simpa using right) levelB.symm

end CondOf

end Ctadl.Index
