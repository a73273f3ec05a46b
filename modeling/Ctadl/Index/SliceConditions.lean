import Ctadl.Index.DecisionSlices

/-! # Conditions over sorted slices

The condition column as the engine stores it: `always`, or the handle of a set. `denote` reads the handle; the join, the
order and the composition of conditions are those of the conditions they name, so conditions are a join-semilattice and
composition is commutative, associative and monotone.
-/

namespace Ctadl.Index

/-- The condition a fact holds under, by the handle of its set. -/
inductive SliceCond where
  | under (ds : SliceSet)
  | always
deriving DecidableEq

namespace SliceCond

/-- The condition `ds`, or `always` where `ds` is widened and widened sets spill. -/
def ofSet (h : HybridContext) (ds : SliceSet) : SliceCond :=
  if ds.isTop && h.spills then always else under ds

/-- The condition of a fact composed of two: `none` where no decision is in both. -/
def and (h : HybridContext) : SliceCond → SliceCond → Option SliceCond
  | always, c => some c
  | c, always => some c
  | under a, under b =>
    let ds := a.intersection b
    if ds.isEmpty then none else some (ofSet h ds)

def partialCmp : SliceCond → SliceCond → Option Ordering
  | always, always => some .eq
  | always, _ => some .gt
  | _, always => some .lt
  | under a, under b => a.partialCmp b

/-- The comparison a partial order derives: less or equal. -/
def isLe (a b : SliceCond) : Bool :=
  match a.partialCmp b with
  | some .lt | some .eq => true
  | _ => false

def join (h : HybridContext) : SliceCond → SliceCond → SliceCond
  | always, _ => always
  | _, always => always
  | under a, under b => ofSet h (a.union h.widenBound b)

/-- The stored condition after a join, and whether it changed. -/
def joinMut (h : HybridContext) (a b : SliceCond) : SliceCond × Bool :=
  let joined := join h a b
  let changed := decide (joined ≠ a)
  (joined, changed)

/-- The condition a handle names. -/
def denote (get : DecisionId → Decision) : SliceCond → Cond
  | under ds => .under (ds.denote get)
  | always => .always

/-- The conditions an index of the configuration `h` represents: where widened sets spill, no condition is `⊤`. -/
def Represented (h : HybridContext) : SliceCond → Prop
  | under ds => ds.Represented h.widenBound (decide (h = .collapse)) ∧ (h.spills → ¬ ds.isTop)
  | always => True

section Denotation

variable {get : DecisionId → Decision} {h : HybridContext} {a b c a' b' : SliceCond} {ds es : SliceSet}

theorem denote_ofSet (h : HybridContext) (ds : SliceSet) : (ofSet h ds).denote get = Cond.ofSet h (ds.denote get) := by
  unfold ofSet Cond.ofSet
  rw [SliceSet.isTop_denote]
  split_ifs <;> rfl

theorem Represented.denote (naming : get.Injective) (rep : a.Represented h) : (a.denote get).Represented h := by
  cases a with
  | always => trivial
  | under ds => exact ⟨rep.1.denote naming, fun spills => SliceSet.isTop_denote ds ▸ rep.2 spills⟩

theorem denote_injective (naming : get.Injective) (repA : a.Represented h) (repB : b.Represented h)
    (same : a.denote get = b.denote get) : a = b := by
  cases a with
  | always => cases b with
    | always => rfl
    | under es => exact nomatch same
  | under ds => cases b with
    | always => exact nomatch same
    | under es =>
      exact congrArg under (SliceSet.denote_injective naming repA.1.sorted repB.1.sorted (Cond.under.inj same))

/-- The join of two conditions is that of the conditions they name. -/
theorem denote_join (naming : get.Injective) (repA : a.Represented h) (repB : b.Represented h) :
    (join h a b).denote get = Cond.join h (a.denote get) (b.denote get) := by
  cases a with
  | always => rfl
  | under ds => cases b with
    | always => rfl
    | under es => rw [join, denote_ofSet, SliceSet.denote_union naming repA.1.sorted repB.1.sorted]; rfl

/-- The composition of two conditions is that of the conditions they name. -/
theorem denote_and (naming : get.Injective) (repA : a.Represented h) (repB : b.Represented h) :
    (and h a b).map (denote get) = Cond.and h (a.denote get) (b.denote get) := by
  cases a with
  | always => cases b <;> rfl
  | under ds => cases b with
    | always => rfl
    | under es =>
      have sorted := SliceSet.sorted_intersection repA.1.sorted repB.1.sorted
      simp only [and, denote, Cond.and, ← SliceSet.denote_intersection naming repA.1.sorted repB.1.sorted,
        ← SliceSet.isEmpty_iff naming sorted]
      split_ifs
      · rfl
      · rw [Option.map_some, denote_ofSet]

/-- The comparison of two conditions is the order of the conditions they name. -/
theorem isLe_iff (naming : get.Injective) (repA : a.Represented h) (repB : b.Represented h) :
    a.isLe b ↔ (a.denote get).level ≤ (b.denote get).level := by
  cases a with
  | always => cases b with
    | always => exact iff_of_true rfl le_rfl
    | under es =>
      rw [denote, denote, Cond.level_under]
      exact iff_of_false (by simp [isLe, partialCmp]) (by simp [Cond.level])
  | under ds => cases b with
    | always => exact iff_of_true rfl le_top
    | under es =>
      rw [denote, denote, Cond.level_under, Cond.level_under, WithTop.coe_le_coe, ← DecisionSet.isSubset_iff,
        SliceSet.isSubset_denote naming repA.1.sorted repB.1.sorted]
      change (match ds.partialCmp es with | some .lt | some .eq => true | _ => false) = true ↔ _
      unfold SliceSet.partialCmp
      split_ifs with same below above
      · exact iff_of_true rfl (if_pos (.inl same))
      · exact iff_of_true rfl below
      · exact iff_of_false id below
      · exact iff_of_false id below

theorem represented_ofSet (rep : ds.Represented h.widenBound (decide (h = .collapse))) : (ofSet h ds).Represented h := by
  unfold ofSet
  split_ifs with spilled
  · trivial
  · rw [Bool.and_eq_true] at spilled
    exact ⟨rep, fun spills top => spilled ⟨top, spills⟩⟩

theorem represented_join (repA : a.Represented h) (repB : b.Represented h) : (join h a b).Represented h := by
  cases a with
  | always => trivial
  | under ds => cases b with
    | always => trivial
    | under es => exact represented_ofSet (SliceSet.represented_union repA.1 repB.1)

/-- What the composition names, where there is one. -/
theorem and_eq_some (naming : get.Injective) (repA : a.Represented h) (repB : b.Represented h) (composed : and h a b = some c) :
    Cond.and h (a.denote get) (b.denote get) = some (c.denote get) := by
  rw [← denote_and naming repA repB, composed, Option.map_some]

theorem represented_and (repA : a.Represented h) (repB : b.Represented h) (composed : and h a b = some c) : c.Represented h := by
  cases a with
  | always =>
    obtain rfl : b = c := by cases b <;> exact Option.some.inj composed
    exact repB
  | under ds => cases b with
    | always =>
      obtain rfl : under ds = c := Option.some.inj composed
      exact repA
    | under es =>
      simp only [and] at composed
      split_ifs at composed
      obtain rfl := Option.some.inj composed
      exact represented_ofSet (SliceSet.represented_intersection repA.1 repB.1)

end Denotation

/-- A represented condition. -/
def In (h : HybridContext) := {c : SliceCond // c.Represented h}

section Lattice

open SliceSet (numbered numbered_injective)

variable {h : HybridContext} {a b c a' b' c' : SliceCond}

def Represented.toIn (rep : a.Represented h) : In h := ⟨a, rep⟩

namespace In

/-- The condition a represented handle names. -/
def toCond (c : In h) : CondIn h := ⟨c.val.denote numbered, c.property.denote numbered_injective⟩

theorem toCond_injective : (toCond (h := h)).Injective := fun a b same =>
  Subtype.ext (denote_injective numbered_injective a.property b.property (congrArg Subtype.val same))

instance : LE (In h) := ⟨fun a b => a.val.isLe b.val⟩

instance : LT (In h) := ⟨fun a b => a ≤ b ∧ ¬ b ≤ a⟩

instance : Max (In h) := ⟨fun a b => ⟨join h a.val b.val, represented_join a.property b.property⟩⟩

theorem le_iff {a b : In h} : a ≤ b ↔ a.val.isLe b.val := Iff.rfl

theorem toCond_le {a b : In h} : a.toCond ≤ b.toCond ↔ a ≤ b := (isLe_iff numbered_injective a.property b.property).symm

theorem toCond_sup (a b : In h) : (a ⊔ b).toCond = a.toCond ⊔ b.toCond :=
  Subtype.ext (denote_join numbered_injective a.property b.property)

/-- The represented conditions are a join-semilattice under the comparison of the column. -/
instance : SemilatticeSup (In h) :=
  toCond_injective.semilatticeSup toCond toCond_le (by
    intro a b
    rw [lt_iff_le_not_ge, toCond_le, toCond_le]
    rfl) toCond_sup

end In

theorem isLe_iff_join (repA : a.Represented h) (repB : b.Represented h) : a.isLe b ↔ join h a b = b := by
  have order : repA.toIn ≤ repB.toIn ↔ repA.toIn ⊔ repB.toIn = repB.toIn := sup_eq_right.symm
  exact order.trans Subtype.ext_iff

/-- What a composition may leave is told by what it names. -/
private theorem option_ext {x y : Option SliceCond} (repX : ∀ c, x = some c → c.Represented h) (repY : ∀ c, y = some c → c.Represented h)
    (same : x.map (denote numbered) = y.map (denote numbered)) : x = y := by
  cases x with
  | none => exact (Option.map_eq_none_iff.mp same.symm).symm
  | some c => cases y with
    | none => exact nomatch same
    | some c' => rw [denote_injective numbered_injective (repX c rfl) (repY c' rfl) (Option.some.inj same)]

theorem and_comm (repA : a.Represented h) (repB : b.Represented h) : and h a b = and h b a := by
  apply option_ext (fun c => represented_and repA repB) (fun c => represented_and repB repA)
  rw [denote_and numbered_injective repA repB, denote_and numbered_injective repB repA]
  exact Cond.and_comm (repA.denote numbered_injective) (repB.denote numbered_injective)

/-- Composing on, by what is named. -/
private theorem denote_bind {x : Option SliceCond} {f : SliceCond → Option SliceCond} {g : Cond → Option Cond}
    (each : ∀ c, x = some c → (f c).map (denote numbered) = g (c.denote numbered)) :
    (x.bind f).map (denote numbered) = (x.map (denote numbered)).bind g := by
  cases x with
  | none => rfl
  | some c => exact each c rfl

theorem and_assoc (repA : a.Represented h) (repB : b.Represented h) (repC : c.Represented h) :
    ((and h a b).bind fun ab => and h ab c) = (and h b c).bind fun bc => and h a bc := by
  apply option_ext
  · intro abc composed
    obtain ⟨ab, first, second⟩ := Option.bind_eq_some_iff.mp composed
    exact represented_and (represented_and repA repB first) repC second
  · intro abc composed
    obtain ⟨bc, first, second⟩ := Option.bind_eq_some_iff.mp composed
    exact represented_and repA (represented_and repB repC first) second
  · have left := denote_bind (x := and h a b) (f := fun ab => and h ab c) (g := fun ab => Cond.and h ab (c.denote numbered))
      fun ab first => denote_and numbered_injective (represented_and repA repB first) repC
    have right := denote_bind (x := and h b c) (f := and h a) (g := Cond.and h (a.denote numbered))
      fun bc first => denote_and numbered_injective repA (represented_and repB repC first)
    rw [left, right, denote_and numbered_injective repA repB, denote_and numbered_injective repB repC]
    exact Cond.and_assoc (repA.denote numbered_injective) (repB.denote numbered_injective) (repC.denote numbered_injective)

/-- Raising what a composition is of raises it, and there still is one. -/
theorem and_mono (repA : a.Represented h) (repB : b.Represented h) (repA' : a'.Represented h) (repB' : b'.Represented h)
    (left : a.isLe a') (right : b.isLe b') (composed : and h a b = some c) :
    ∃ c', and h a' b' = some c' ∧ c.isLe c' := by
  have repC := represented_and repA repB composed
  obtain ⟨named, raised, above⟩ := Cond.and_mono (repA.denote numbered_injective) (repB.denote numbered_injective)
    (repA'.denote numbered_injective) (repB'.denote numbered_injective) ((isLe_iff numbered_injective repA repA').mp left)
    ((isLe_iff numbered_injective repB repB').mp right) (and_eq_some numbered_injective repA repB composed)
  rw [← denote_and numbered_injective repA' repB'] at raised
  obtain ⟨c', composed', rfl⟩ := Option.map_eq_some_iff.mp raised
  exact ⟨c', composed', (isLe_iff numbered_injective repC (represented_and repA' repB' composed')).mpr above⟩

end Lattice

/-- What makes the represented conditions of one configuration a join-semilattice with a composition. -/
structure Laws (h : HybridContext) : Prop where
  empty : (under .empty).Represented h
  ofSet : ∀ {ds : SliceSet}, ds.Represented h.widenBound (decide (h = .collapse)) → (ofSet h ds).Represented h
  closed : ∀ {a b : SliceCond}, a.Represented h → b.Represented h →
    (join h a b).Represented h ∧ ∀ c, and h a b = some c → c.Represented h
  comm : ∀ {a b : SliceCond}, a.Represented h → b.Represented h → join h a b = join h b a
  assoc : ∀ {a b c : SliceCond}, a.Represented h → b.Represented h → c.Represented h →
    join h (join h a b) c = join h a (join h b c)
  idem : ∀ {a : SliceCond}, a.Represented h → join h a a = a
  /-- The comparison is the order of the join, and the join the least condition above both. -/
  order : ∀ {a b : SliceCond}, a.Represented h → b.Represented h → (a.isLe b ↔ join h a b = b)
  upper : ∀ {a b : SliceCond}, a.Represented h → b.Represented h → a.isLe (join h a b) ∧ b.isLe (join h a b)
  least : ∀ {a b u : SliceCond}, a.Represented h → b.Represented h → u.Represented h →
    a.isLe u → b.isLe u → (join h a b).isLe u
  and_comm : ∀ {a b : SliceCond}, a.Represented h → b.Represented h → and h a b = and h b a
  and_assoc : ∀ {a b c : SliceCond}, a.Represented h → b.Represented h → c.Represented h →
    ((and h a b).bind fun ab => and h ab c) = (and h b c).bind fun bc => and h a bc
  /-- Composition is monotone in both arguments in the order of the join, nothing being below everything. -/
  and_mono : ∀ {a b a' b' c : SliceCond}, a.Represented h → b.Represented h → a'.Represented h → b'.Represented h →
    join h a a' = a' → join h b b' = b' → and h a b = some c → ∃ c', and h a' b' = some c' ∧ join h c c' = c'
  joinMut : ∀ a b : SliceCond, (joinMut h a b).1 = join h a b ∧ ((joinMut h a b).2 = true ↔ (joinMut h a b).1 ≠ a)

theorem laws (h : HybridContext) : Laws h where
  empty := ⟨SliceSet.represented_empty _ _, fun _ => nofun⟩
  ofSet := represented_ofSet
  closed repA repB := ⟨represented_join repA repB, fun c => represented_and repA repB⟩
  comm repA repB := congrArg Subtype.val (sup_comm repA.toIn repB.toIn)
  assoc repA repB repC := congrArg Subtype.val (sup_assoc repA.toIn repB.toIn repC.toIn)
  idem repA := congrArg Subtype.val (sup_idem repA.toIn)
  order := isLe_iff_join
  upper repA repB := by
    have left : repA.toIn ≤ repA.toIn ⊔ repB.toIn := le_sup_left
    have right : repB.toIn ≤ repA.toIn ⊔ repB.toIn := le_sup_right
    exact ⟨In.le_iff.mp left, In.le_iff.mp right⟩
  least repA repB repU left right := by
    have first : repA.toIn ≤ repU.toIn := In.le_iff.mpr left
    have second : repB.toIn ≤ repU.toIn := In.le_iff.mpr right
    exact In.le_iff.mp (sup_le first second)
  and_comm := and_comm
  and_assoc := and_assoc
  and_mono repA repB repA' repB' left right composed := by
    obtain ⟨c', composed', above⟩ := and_mono repA repB repA' repB' ((isLe_iff_join repA repA').mpr left)
      ((isLe_iff_join repB repB').mpr right) composed
    exact ⟨c', composed', (isLe_iff_join (represented_and repA repB composed) (represented_and repA' repB' composed')).mp above⟩
  joinMut a b := ⟨rfl, decide_eq_true_iff⟩

/-- Sets of decisions are a join-semilattice under every bound and kind, and conditions under every configuration, with a
composition that is commutative, associative and monotone. -/
theorem decision_semilattices :
    (∀ (bound : Nat) (collapse : Bool), SliceSet.Laws bound collapse) ∧ ∀ h : HybridContext, Laws h :=
  ⟨SliceSet.laws, laws⟩

end SliceCond

end Ctadl.Index
