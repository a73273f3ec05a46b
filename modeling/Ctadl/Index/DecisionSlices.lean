import Ctadl.Collections.SortedSet
import Ctadl.Index.DecisionLattice

/-! # Decision sets as sorted slices

An interned set is a handle to an ascending slice of decision ids; two sets are equal when their handles are. The union of
two slices is one walk over both, and inclusion is a walk that skips. `denote` reads a slice as the set of the decisions its
ids name; every operation on sorted slices is the one on those sets, so the laws of the sets are laws of the slices.
-/

namespace Ctadl.Index

open Facts Collections

/-- A dense identity for a decision, ordered by its number. -/
structure DecisionId where
  raw : UInt32
deriving DecidableEq

instance : LinearOrder DecisionId :=
  LinearOrder.lift' (fun id => id.raw.toNat) fun _ _ same => DecisionId.mk.injEq .. ▸ UInt32.toNat_inj.mp same

/-- What the handle of a set names: its interned slice and kind, or `⊤` of a kind. Equal slices of one kind have one
handle. -/
inductive SliceSet where
  | explicit (members : List DecisionId) (collapsing : Bool)
  | top (collapsing : Bool)
deriving DecidableEq

namespace SliceSet

def empty : SliceSet := explicit [] false

def intern (sorted : List DecisionId) (collapse : Bool) : SliceSet :=
  if sorted.isEmpty then empty else explicit sorted collapse

def singleton (d : DecisionId) (collapse : Bool) : SliceSet := intern [d] collapse

/-- The members of an explicit set; none for `top`. -/
def members : SliceSet → List DecisionId
  | explicit members _ => members
  | top _ => []

def isTop : SliceSet → Bool
  | top _ => true
  | explicit .. => false

def isCollapsing : SliceSet → Bool
  | explicit _ collapsing | top collapsing => collapsing

def isEmpty (ds : SliceSet) : Bool := decide (ds = empty)

/-- The slice is searched by bisection, which finds what a sorted slice has. -/
def contains (ds : SliceSet) (d : DecisionId) : Bool := ds.isTop || decide (d ∈ ds.members)

/-- `a ⊆ b`, by a merge walk. -/
def isSubset (a b : SliceSet) : Bool :=
  if a = b ∨ a.isEmpty ∨ b.isTop then true
  else if a.isTop then false
  else if b.members.length < a.members.length then false
  else SortedSet.isSubset a.members b.members

def unionUncached (bound : Nat) (a b : SliceSet) : SliceSet :=
  if b.isSubset a then a
  else if a.isSubset b then b
  else
    let out := SortedSet.merge a.members b.members
    if bound ≠ 0 ∧ bound < out.length then top false else intern out false

/-- `a ∪ b`, interned: `a` itself where nothing is added. -/
def union (bound : Nat) (a b : SliceSet) : SliceSet :=
  if a = b ∨ b.isEmpty then a
  else if a.isEmpty then b
  else if a.isCollapsing || b.isCollapsing then
    if a.isTop then a else top true
  else if a.isTop then a
  else if b.isTop then b
  else unionUncached bound a b

/-- `a ∩ b`, interned. -/
def intersection (a b : SliceSet) : SliceSet :=
  if a = b ∨ a.isTop then b
  else if b.isTop then a
  else intern (a.members.filter fun d => b.contains d) a.isCollapsing

/-- Inclusion order; not total. -/
def partialCmp (a b : SliceSet) : Option Ordering :=
  if a = b then some .eq
  else if a.isSubset b then some .lt
  else if b.isSubset a then some .gt
  else none

/-- The stored set after a join, and whether it changed. -/
def joinMut (bound : Nat) (a b : SliceSet) : SliceSet × Bool :=
  let joined := a.union bound b
  if joined = a then (a, false) else (joined, true)

/-- The invariant of an interned slice: ascending, and so without repetition. -/
def Sorted (ds : SliceSet) : Prop := ds.members.Pairwise (· < ·)

/-- The set of the decisions the ids of a slice name. -/
def denote (get : DecisionId → Decision) : SliceSet → DecisionSet
  | explicit members collapsing => .explicit (members.map get).toFinset collapsing
  | top collapsing => .top collapsing

section Denotation

variable {get : DecisionId → Decision} {bound : Nat} {collapse : Bool} {a b : SliceSet} {ids : List DecisionId} {id : DecisionId}

@[simp] theorem denote_empty : empty.denote get = .empty := rfl

@[simp] theorem isTop_denote (ds : SliceSet) : (ds.denote get).isTop = ds.isTop := by cases ds <;> rfl

@[simp] theorem isCollapsing_denote (ds : SliceSet) : (ds.denote get).isCollapsing = ds.isCollapsing := by
  cases ds <;> rfl

@[simp] theorem ids_denote (ds : SliceSet) : (ds.denote get).ids = (ds.members.map get).toFinset := by cases ds <;> rfl

theorem denote_intern (ids : List DecisionId) (collapse : Bool) :
    (intern ids collapse).denote get = .intern (ids.map get).toFinset collapse := by
  cases ids with
  | nil => simp [intern, DecisionSet.intern]
  | cons id rest => simp [intern, DecisionSet.intern, denote]

/-- The decisions of a slice are those its ids name. -/
theorem mem_image (naming : get.Injective) : get id ∈ (ids.map get).toFinset ↔ id ∈ ids := by
  rw [List.mem_toFinset, List.mem_map_of_injective naming]

theorem image_subset_iff (naming : get.Injective) {others : List DecisionId} :
    (ids.map get).toFinset ⊆ (others.map get).toFinset ↔ ∀ id ∈ ids, id ∈ others := by
  constructor
  · exact fun sub id member => (mem_image naming).mp (sub ((mem_image naming).mpr member))
  · intro sub d member
    obtain ⟨id, inside, rfl⟩ := List.mem_map.mp (List.mem_toFinset.mp member)
    exact (mem_image naming).mpr (sub id inside)

/-- A sorted slice has as many decisions as ids. -/
theorem card_image (naming : get.Injective) (sorted : ids.Pairwise (· < ·)) : (ids.map get).toFinset.card = ids.length := by
  rw [List.toFinset_card_of_nodup ((SortedSet.nodup sorted).map naming), List.length_map]

/-- A sorted slice is told by its decisions. -/
theorem denote_injective (naming : get.Injective) (sortedA : a.Sorted) (sortedB : b.Sorted) (same : a.denote get = b.denote get) :
    a = b := by
  cases a with
  | top k => cases b with
    | top l => exact congrArg top (DecisionSet.top.inj same)
    | explicit y l => exact nomatch same
  | explicit x k => cases b with
    | top l => exact nomatch same
    | explicit y l =>
      obtain ⟨image, rfl⟩ := DecisionSet.explicit.inj same
      have le := (image_subset_iff naming).mp image.subset
      have ge := (image_subset_iff naming).mp image.superset
      exact congrArg (explicit · k) (SortedSet.ext sortedA sortedB fun id => ⟨le id, ge id⟩)

theorem denote_eq_iff (naming : get.Injective) (sortedA : a.Sorted) (sortedB : b.Sorted) :
    a.denote get = b.denote get ↔ a = b :=
  ⟨denote_injective naming sortedA sortedB, fun same => same ▸ rfl⟩

theorem sorted_empty : empty.Sorted := .nil

theorem isEmpty_iff (naming : get.Injective) (sorted : a.Sorted) : a.isEmpty ↔ a.denote get = .empty := by
  rw [isEmpty, decide_eq_true_iff, ← denote_eq_iff naming sorted sorted_empty, denote_empty]

theorem contains_denote (naming : get.Injective) (ds : SliceSet) (id : DecisionId) :
    (ds.denote get).contains (get id) = ds.contains id := by
  simp only [DecisionSet.contains, contains, isTop_denote, ids_denote, mem_image naming]

/-- The walk decides inclusion. -/
theorem isSubset_denote (naming : get.Injective) (sortedA : a.Sorted) (sortedB : b.Sorted) :
    (a.denote get).isSubset (b.denote get) = a.isSubset b := by
  have walked : (if b.members.length < a.members.length then false else SortedSet.isSubset a.members b.members) =
      decide ((a.denote get).ids ⊆ (b.denote get).ids) := by
    simp only [ids_denote, image_subset_iff naming, ← SortedSet.isSubset_iff sortedA sortedB, Bool.decide_eq_true]
    split_ifs with longer
    · -- a longer slice is not walked
      symm
      rw [Bool.eq_false_iff]
      intro sub
      have inside : a.members ⊆ b.members := fun id => (SortedSet.isSubset_iff sortedA sortedB).mp sub id
      have short := ((SortedSet.nodup sortedA).subperm inside).length_le
      omega
    · rfl
  simp only [DecisionSet.isSubset, isSubset, walked, denote_eq_iff naming sortedA sortedB, isTop_denote,
    isEmpty_iff naming sortedA]

theorem sorted_intern (sorted : ids.Pairwise (· < ·)) : (intern ids collapse).Sorted := by
  unfold intern
  split_ifs
  · exact sorted_empty
  · exact sorted

/-- Interned slices stay sorted: the merge of two is. -/
theorem sorted_union (sortedA : a.Sorted) (sortedB : b.Sorted) : (union bound a b).Sorted := by
  unfold union unionUncached
  dsimp only
  split_ifs
  any_goals assumption
  · exact .nil
  · exact .nil
  · exact sorted_intern (SortedSet.sorted_merge sortedA sortedB)

theorem sorted_intersection (sortedA : a.Sorted) (sortedB : b.Sorted) : (intersection a b).Sorted := by
  unfold intersection
  split_ifs
  · exact sortedB
  · exact sortedA
  · exact sorted_intern (sortedA.filter _)

theorem image_merge (xs ys : List DecisionId) :
    ((SortedSet.merge xs ys).map get).toFinset = (xs.map get).toFinset ∪ (ys.map get).toFinset := by
  ext d
  simp only [List.mem_toFinset, List.mem_map, Finset.mem_union, SortedSet.mem_merge, or_and_right, exists_or]

theorem denote_unionUncached (naming : get.Injective) (sortedA : a.Sorted) (sortedB : b.Sorted) :
    (unionUncached bound a b).denote get = .unionUncached bound (a.denote get) (b.denote get) := by
  have counted : ((a.denote get).ids ∪ (b.denote get).ids).card = (SortedSet.merge a.members b.members).length := by
    rw [ids_denote, ids_denote, ← image_merge, card_image naming (SortedSet.sorted_merge sortedA sortedB)]
  unfold unionUncached DecisionSet.unionUncached
  simp only [isSubset_denote naming sortedA sortedB, isSubset_denote naming sortedB sortedA, counted]
  split_ifs
  any_goals rfl
  rw [denote_intern, image_merge, ids_denote, ids_denote]

/-- The union of two slices is that of the sets they name. -/
theorem denote_union (naming : get.Injective) (sortedA : a.Sorted) (sortedB : b.Sorted) :
    (union bound a b).denote get = .union bound (a.denote get) (b.denote get) := by
  unfold union DecisionSet.union
  simp only [denote_eq_iff naming sortedA sortedB, ← isEmpty_iff naming sortedA, ← isEmpty_iff naming sortedB,
    isCollapsing_denote, isTop_denote, ← denote_unionUncached naming sortedA sortedB]
  split_ifs <;> rfl

/-- The intersection of two slices is that of the sets they name. -/
theorem denote_intersection (naming : get.Injective) (sortedA : a.Sorted) (sortedB : b.Sorted) :
    (intersection a b).denote get = .intersection (a.denote get) (b.denote get) := by
  have kept : ((a.members.filter fun id => b.contains id).map get).toFinset =
      (a.denote get).ids.filter fun d => (b.denote get).contains d := by
    ext d
    simp only [List.mem_toFinset, List.mem_map, List.mem_filter, Finset.mem_filter, ids_denote]
    constructor
    · rintro ⟨id, ⟨inside, other⟩, rfl⟩
      exact ⟨⟨id, inside, rfl⟩, (contains_denote naming b id).trans other⟩
    · rintro ⟨⟨id, inside, rfl⟩, other⟩
      exact ⟨id, ⟨inside, (contains_denote naming b id).symm.trans other⟩, rfl⟩
  unfold intersection DecisionSet.intersection
  simp only [denote_eq_iff naming sortedA sortedB, isTop_denote, isCollapsing_denote, ← kept]
  split_ifs
  any_goals rfl
  exact denote_intern _ _

end Denotation

/-- A numbering of decisions: it stands for the table that mints the ids. -/
def numbered (id : DecisionId) : Decision := ⟨0, .empty, .functionId id.raw.toNat⟩

theorem numbered_injective : numbered.Injective := by
  rintro ⟨x⟩ ⟨y⟩ same
  simp only [numbered, Decision.mk.injEq, CallTargetObject.functionId.injEq, true_and] at same
  rw [UInt32.toNat_inj.mp same]

/-- The slices one kind of index represents under a bound: sorted, of the kind, and within the bound. -/
def Represented (bound : Nat) (collapse : Bool) : SliceSet → Prop
  | explicit members k =>
    members.Pairwise (· < ·) ∧ k = (collapse && !members.isEmpty) ∧
      ¬ (DecisionSet.limit bound collapse ≠ 0 ∧ DecisionSet.limit bound collapse < members.length)
  | top k => k = collapse

section Representation

variable {get : DecisionId → Decision} {bound : Nat} {collapse : Bool} {a b c : SliceSet} {id : DecisionId}

theorem represented_iff (naming : get.Injective) (ds : SliceSet) :
    ds.Represented bound collapse ↔ ds.Sorted ∧ (ds.denote get).Represented bound collapse := by
  cases ds with
  | top k => exact (and_iff_right .nil).symm
  | explicit x k =>
    refine and_congr_right fun sorted => ?_
    have nonempty : (!x.isEmpty) = decide ((x.map get).toFinset ≠ ∅) := by cases x <;> simp
    rw [denote, DecisionSet.Represented, DecisionSet.Widens, card_image naming sorted, nonempty]

theorem Represented.sorted (rep : a.Represented bound collapse) : a.Sorted := ((represented_iff numbered_injective a).mp rep).1

theorem Represented.denote (naming : get.Injective) (rep : a.Represented bound collapse) :
    (a.denote get).Represented bound collapse := ((represented_iff naming a).mp rep).2

theorem represented_union (repA : a.Represented bound collapse) (repB : b.Represented bound collapse) :
    (union bound a b).Represented bound collapse := by
  rw [represented_iff numbered_injective, denote_union numbered_injective repA.sorted repB.sorted]
  exact ⟨sorted_union repA.sorted repB.sorted,
    DecisionSet.represented_union (repA.denote numbered_injective) (repB.denote numbered_injective)⟩

theorem represented_intersection (repA : a.Represented bound collapse) (repB : b.Represented bound collapse) :
    (intersection a b).Represented bound collapse := by
  rw [represented_iff numbered_injective, denote_intersection numbered_injective repA.sorted repB.sorted]
  exact ⟨sorted_intersection repA.sorted repB.sorted,
    (DecisionSet.level_intersection (repA.denote numbered_injective) (repB.denote numbered_injective)).2⟩

theorem represented_empty (bound : Nat) (collapse : Bool) : empty.Represented bound collapse :=
  ⟨.nil, by simp, by simp⟩

theorem represented_singleton (bound : Nat) (collapse : Bool) (id : DecisionId) :
    (singleton id collapse).Represented bound collapse := by
  refine ⟨List.pairwise_singleton _ _, by simp, ?_⟩
  rintro ⟨nonzero, less⟩
  rw [List.length_singleton] at less
  omega

/-- The sets an index makes: it starts from the empty set and the singletons of its kind, and joins, composes and widens. -/
inductive Made (bound : Nat) (collapse : Bool) : SliceSet → Prop
  | empty : Made bound collapse .empty
  | singleton (id : DecisionId) : Made bound collapse (.singleton id collapse)
  | top : Made bound collapse (.top collapse)
  | union {a b : SliceSet} : Made bound collapse a → Made bound collapse b → Made bound collapse (a.union bound b)
  | intersection {a b : SliceSet} : Made bound collapse a → Made bound collapse b → Made bound collapse (a.intersection b)

/-- Every set an index makes is represented, so its slice is sorted. -/
theorem Made.represented (made : Made bound collapse a) : a.Represented bound collapse := by
  induction made with
  | empty => exact represented_empty bound collapse
  | singleton id => exact represented_singleton bound collapse id
  | top => rfl
  | union _ _ left right => exact represented_union left right
  | intersection _ _ left right => exact represented_intersection left right

/-- A represented slice. -/
def In (bound : Nat) (collapse : Bool) := {ds : SliceSet // ds.Represented bound collapse}

def Represented.toIn (rep : a.Represented bound collapse) : In bound collapse := ⟨a, rep⟩

namespace In

/-- The set a represented slice names. -/
def toSet (ds : In bound collapse) : DecisionSet.SetOf bound collapse :=
  ⟨ds.val.denote numbered, ds.property.denote numbered_injective⟩

theorem toSet_injective : (toSet : In bound collapse → _).Injective := fun a b same =>
  Subtype.ext (denote_injective numbered_injective a.property.sorted b.property.sorted (congrArg Subtype.val same))

instance : LE (In bound collapse) := ⟨fun a b => a.val.isSubset b.val⟩

instance : LT (In bound collapse) := ⟨fun a b => a ≤ b ∧ ¬ b ≤ a⟩

instance : Max (In bound collapse) := ⟨fun a b => ⟨a.val.union bound b.val, represented_union a.property b.property⟩⟩

theorem le_iff {a b : In bound collapse} : a ≤ b ↔ a.val.isSubset b.val := Iff.rfl

theorem val_sup (a b : In bound collapse) : (a ⊔ b).val = a.val.union bound b.val := rfl

theorem toSet_le {a b : In bound collapse} : a.toSet ≤ b.toSet ↔ a ≤ b := by
  rw [DecisionSet.SetOf.le_iff]
  exact Bool.coe_iff_coe.mpr (isSubset_denote numbered_injective a.property.sorted b.property.sorted)

theorem toSet_sup (a b : In bound collapse) : (a ⊔ b).toSet = a.toSet ⊔ b.toSet :=
  Subtype.ext (denote_union numbered_injective a.property.sorted b.property.sorted)

/-- Inclusion of represented slices is a join-semilattice, and their union its join. -/
instance : SemilatticeSup (In bound collapse) :=
  toSet_injective.semilatticeSup toSet toSet_le (by
    intro a b
    rw [lt_iff_le_not_ge, toSet_le, toSet_le]
    rfl) toSet_sup

end In

end Representation

/-- What makes the represented slices of one kind a join-semilattice under a fixed bound. -/
structure Laws (bound : Nat) (collapse : Bool) : Prop where
  made : ∀ {a : SliceSet}, Made bound collapse a → a.Represented bound collapse
  interned : ∀ {a : SliceSet}, a.Represented bound collapse → a.members.Pairwise (· < ·) ∧ a.members.Nodup
  closed : ∀ {a b : SliceSet}, a.Represented bound collapse → b.Represented bound collapse →
    (a.union bound b).Represented bound collapse ∧ (a.intersection b).Represented bound collapse
  comm : ∀ {a b : SliceSet}, a.Represented bound collapse → b.Represented bound collapse → a.union bound b = b.union bound a
  assoc : ∀ {a b c : SliceSet}, a.Represented bound collapse → b.Represented bound collapse → c.Represented bound collapse →
    (a.union bound b).union bound c = a.union bound (b.union bound c)
  idem : ∀ a : SliceSet, a.union bound a = a
  /-- Inclusion is a partial order. -/
  refl : ∀ a : SliceSet, a.isSubset a
  trans : ∀ {a b c : SliceSet}, a.Represented bound collapse → b.Represented bound collapse → c.Represented bound collapse →
    a.isSubset b → b.isSubset c → a.isSubset c
  antisymm : ∀ {a b : SliceSet}, a.Represented bound collapse → b.Represented bound collapse →
    a.isSubset b → b.isSubset a → a = b
  /-- The union is the least set above both. -/
  upper : ∀ {a b : SliceSet}, a.Represented bound collapse → b.Represented bound collapse →
    a.isSubset (a.union bound b) ∧ b.isSubset (a.union bound b)
  least : ∀ {a b u : SliceSet}, a.Represented bound collapse → b.Represented bound collapse → u.Represented bound collapse →
    a.isSubset u → b.isSubset u → (a.union bound b).isSubset u
  /-- The memo, whatever was unioned before under the bound, answers with the union. -/
  memo : ∀ {a b : SliceSet}, a.Represented bound collapse → b.Represented bound collapse →
    ∀ (get : DecisionId → Decision) (interner : Interner) (ops : List (Process.Op interner)) (x y : interner.Handle),
      get.Injective → (∀ op ∈ ops, op = .setWidenBound bound ∨ ∃ a b, op = .union a b) →
      x.1 = a.denote get → y.1 = b.denote get →
      ((Process.run (.setWidenBound bound :: ops)).union x y).1 = (a.union bound b).denote get
  joinMut : ∀ a b : SliceSet, (a.joinMut bound b).1 = a.union bound b ∧ ((a.joinMut bound b).2 = true ↔ (a.joinMut bound b).1 ≠ a)

theorem joinMut_eq (bound : Nat) (a b : SliceSet) : a.joinMut bound b = (a.union bound b, decide (a.union bound b ≠ a)) := by
  simp only [joinMut]
  split_ifs with same
  · simp [same]
  · simp [same]

theorem laws (bound : Nat) (collapse : Bool) : Laws bound collapse where
  made := Made.represented
  interned rep := ⟨rep.sorted, SortedSet.nodup rep.sorted⟩
  closed repA repB := ⟨represented_union repA repB, represented_intersection repA repB⟩
  comm repA repB := congrArg Subtype.val (sup_comm repA.toIn repB.toIn)
  assoc repA repB repC := congrArg Subtype.val (sup_assoc repA.toIn repB.toIn repC.toIn)
  idem a := if_pos (.inl rfl)
  refl a := if_pos (.inl rfl)
  trans repA repB repC left right := by
    have first : repA.toIn ≤ repB.toIn := In.le_iff.mpr left
    have second : repB.toIn ≤ repC.toIn := In.le_iff.mpr right
    exact In.le_iff.mp (first.trans second)
  antisymm repA repB left right := by
    have first : repA.toIn ≤ repB.toIn := In.le_iff.mpr left
    have second : repB.toIn ≤ repA.toIn := In.le_iff.mpr right
    exact congrArg Subtype.val (first.antisymm second)
  upper repA repB := by
    have left : repA.toIn ≤ repA.toIn ⊔ repB.toIn := le_sup_left
    have right : repB.toIn ≤ repA.toIn ⊔ repB.toIn := le_sup_right
    exact ⟨In.le_iff.mp left, In.le_iff.mp right⟩
  least repA repB repU left right := by
    have first : repA.toIn ≤ repU.toIn := In.le_iff.mpr left
    have second : repB.toIn ≤ repU.toIn := In.le_iff.mpr right
    exact In.le_iff.mp (sup_le first second)
  memo repA repB get interner ops x y naming oneBound left right := by
    rw [Process.union_eq_of_one_bound oneBound, left, right, denote_union naming repA.sorted repB.sorted]
  joinMut a b := by simp [joinMut_eq]

end SliceSet

end Ctadl.Index
