import Ctadl.Index.Decision

/-! # The process-wide memo of unions

Sets of decisions are interned for the life of the process, and the union of two exact sets is
memoised under the pair of their handles in a direct-mapped cache that nothing ever clears. The
widening bound is process-wide too, and each index run sets its own, so a slot can answer with a union
that was widened, or not, under the bound of an earlier run. `Ledger` records for each slot the bound
its entry was computed under; the result of a union is read off it.
-/

namespace Ctadl.Index

open Facts

namespace DecisionSet

/-- The sets the two interners can hold: a collapsing set has exactly one member. -/
def Interned : DecisionSet → Prop
  | explicit members collapsing => collapsing = true → members.card = 1
  | top _ => True

instance : DecidablePred Interned
  | explicit members collapsing => inferInstanceAs (Decidable (collapsing = true → members.card = 1))
  | top _ => inferInstanceAs (Decidable True)

/-- Two sets that may meet: of one kind, or one of them empty. -/
def Alike (a b : DecisionSet) : Prop := a = empty ∨ b = empty ∨ a.isCollapsing = b.isCollapsing

instance (a b : DecisionSet) : Decidable (Alike a b) := by unfold Alike; infer_instance

/-- A merge of this size is widened under the bound. -/
def Widens (bound : Nat) (members : Finset Decision) : Prop := bound ≠ 0 ∧ bound < members.card

instance (bound : Nat) (members : Finset Decision) : Decidable (Widens bound members) := by
  unfold Widens; infer_instance

/-- The members of both sets, widened to `⊤` exactly where there are more of them than the bound
allows (one, for a collapsing set). `⊤` absorbs. -/
def merged (bound : Nat) (a b : DecisionSet) : DecisionSet :=
  let collapse := a.isCollapsing || b.isCollapsing
  if a.isTop || b.isTop || decide (Widens (if collapse then 1 else bound) (a.ids ∪ b.ids)) then
    top collapse
  else intern (a.ids ∪ b.ids) collapse

/-- The union of these two is looked up in the memo. -/
def Memoised (a b : DecisionSet) : Prop :=
  a ≠ b ∧ a ≠ empty ∧ b ≠ empty ∧ a.isCollapsing = false ∧ b.isCollapsing = false ∧
    a.isTop = false ∧ b.isTop = false

instance (a b : DecisionSet) : Decidable (Memoised a b) := by unfold Memoised; infer_instance

end DecisionSet

open DecisionSet

/-- The sets interned in a process and their handles. Interners never free, so a set keeps its handle
and two sets never share one. -/
structure Interner where
  sets : Finset DecisionSet
  raw : DecisionSet → UInt32
  interned : ∀ ds ∈ sets, ds.Interned
  raw_ne_zero : ∀ ds ∈ sets, raw ds ≠ 0
  raw_inj : ∀ a ∈ sets, ∀ b ∈ sets, raw a = raw b → a = b

/-- An interned set. -/
abbrev Interner.Handle (interner : Interner) := { ds // ds ∈ interner.sets }

/-- The unordered pair of two handles, the smaller in the low half. -/
def unionKey (a b : UInt32) : UInt64 :=
  if a.toUInt64 < b.toUInt64 then a.toUInt64 ||| b.toUInt64 <<< 32
  else b.toUInt64 ||| a.toUInt64 <<< 32

/-- The index of the slot a key is kept in: its Fibonacci hash, of which twenty bits are left. -/
def unionSlot (key : UInt64) : UInt64 := (key * 0x9E3779B97F4A7C15) >>> (64 - 20)

/-- One entry of the memo. The sequence is odd only while a writer fills the slot. -/
structure UnionSlot where
  seq : UInt32
  key : UInt64
  result : DecisionSet

/-- What unions read and write beside their operands. -/
structure Process where
  widenBound : Nat
  cache : UInt64 → UnionSlot

namespace Process

/-- No bound and an unwritten cache: no key is `0`, so no slot of it matches. -/
def start : Process := ⟨0, fun _ => ⟨0, 0, .empty⟩⟩

def setWidenBound (process : Process) (k : Nat) : Process := { process with widenBound := k }

def unionCacheGet (process : Process) (key : UInt64) : Option DecisionSet :=
  let slot := process.cache (unionSlot key)
  if slot.seq &&& 1 = 1 then none
  else if slot.key ≠ key then none
  else some slot.result

def unionCachePut (process : Process) (key : UInt64) (result : DecisionSet) : Process :=
  let slot := process.cache (unionSlot key)
  if slot.seq &&& 1 = 1 then process
  else { process with
    cache := Function.update process.cache (unionSlot key) ⟨slot.seq + 2, key, result⟩ }

variable {interner : Interner}

/-- The union as the engine computes it, and the process after it. -/
def union (process : Process) (a b : interner.Handle) : DecisionSet × Process :=
  if a = b ∨ b.1 = .empty then (a, process)
  else if a.1 = .empty then (b, process)
  else if a.1.isCollapsing || b.1.isCollapsing then
    (if a.1.isTop then a else .top true, process)
  else if a.1.isTop then (a, process)
  else if b.1.isTop then (b, process)
  else
    let key := unionKey (interner.raw a) (interner.raw b)
    match process.unionCacheGet key with
    | some result => (result, process)
    | none =>
      let result := unionUncached process.widenBound a b
      (result, process.unionCachePut key result)

/-- What the index runs of a process do to the memo and the bound. -/
inductive Op (interner : Interner) where
  | setWidenBound (k : Nat)
  | union (a b : interner.Handle)

def step (process : Process) : Op interner → Process
  | .setWidenBound k => process.setWidenBound k
  | .union a b => (process.union a b).2

/-- The process after the operations, in order. -/
def run (ops : List (Op interner)) : Process := ops.foldl step start

end Process

/-- Which pair each slot holds the union of, and the bound it was computed under. -/
structure Ledger (interner : Interner) where
  bound : Nat
  holder : UInt64 → Option (interner.Handle × interner.Handle × Nat)

namespace Ledger

variable {interner : Interner}

def start : Ledger interner := ⟨0, fun _ => none⟩

/-- The key of a pair of operands. -/
def keyOf (a b : interner.Handle) : UInt64 := unionKey (interner.raw a) (interner.raw b)

/-- The slot of the pair holds its union. -/
def Holds (ledger : Ledger interner) (a b : interner.Handle) : Prop :=
  ∃ entry ∈ ledger.holder (unionSlot (keyOf a b)), keyOf entry.1 entry.2.1 = keyOf a b

instance (ledger : Ledger interner) (a b : interner.Handle) : Decidable (ledger.Holds a b) :=
  inferInstanceAs (Decidable (∃ entry ∈ ledger.holder _, _))

/-- The bound the union of the pair is computed under: that of its entry in the memo, the current one
where the memo has none. -/
def boundOf (ledger : Ledger interner) (a b : interner.Handle) : Nat :=
  match ledger.holder (unionSlot (keyOf a b)) with
  | some (x, y, bound) => if keyOf x y = keyOf a b then bound else ledger.bound
  | none => ledger.bound

open Process in
/-- A memoised union that its slot does not hold takes the slot, under the current bound. -/
def step (ledger : Ledger interner) : Op interner → Ledger interner
  | .setWidenBound k => { ledger with bound := k }
  | .union a b =>
    if Memoised a.1 b.1 ∧ ¬ ledger.Holds a b then
      { ledger with
        holder := Function.update ledger.holder (unionSlot (keyOf a b)) (some (a, b, ledger.bound)) }
    else ledger

/-- The entries after the operations, in order. -/
def run (ops : List (Process.Op interner)) : Ledger interner := ops.foldl step start

/-- Both bounds agree on whether the merge of the pair is widened; where one set contains the other
nothing is computed, and the larger one has to be within the bound. -/
def Agrees (ledger : Ledger interner) (a b : interner.Handle) : Prop :=
  a.1.isTop ∨ b.1.isTop ∨ a.1.isCollapsing ∨ b.1.isCollapsing ∨
    if a.1.ids ⊆ b.1.ids ∨ b.1.ids ⊆ a.1.ids then ¬ Widens ledger.bound (a.1.ids ∪ b.1.ids)
    else (Widens (ledger.boundOf a b) (a.1.ids ∪ b.1.ids) ↔ Widens ledger.bound (a.1.ids ∪ b.1.ids))

/-- A slot of the cache and its line in the ledger: no key, or the union of the pair under the bound
recorded for it. -/
def Represents (ledger : Ledger interner) (process : Process) : Prop :=
  process.widenBound = ledger.bound ∧ ∀ index,
    (process.cache index).seq &&& 1 = 0 ∧
      match ledger.holder index with
      | none => (process.cache index).key = 0
      | some (a, b, bound) =>
        (process.cache index).key = keyOf a b ∧
          (process.cache index).result = unionUncached bound a b ∧ Memoised a.1 b.1

end Ledger

section Keys

private theorem low_of_key (a b : UInt32) : (a.toUInt64 ||| b.toUInt64 <<< 32).toUInt32 = a := by
  apply UInt32.toBitVec_inj.mp
  ext i bound
  simp

private theorem high_of_key (a b : UInt32) :
    ((a.toUInt64 ||| b.toUInt64 <<< 32) >>> 32).toUInt32 = b := by
  apply UInt32.toBitVec_inj.mp
  ext i bound
  have low : 32 + i < 64 := by omega
  have within : i < 64 := by omega
  simp [low, within, BitVec.getLsbD_eq_getElem bound]

private theorem packed_inj {a b c d : UInt32}
    (same : a.toUInt64 ||| b.toUInt64 <<< 32 = c.toUInt64 ||| d.toUInt64 <<< 32) : a = c ∧ b = d := by
  constructor
  · rw [← low_of_key a b, same, low_of_key]
  · rw [← high_of_key a b, same, high_of_key]

private theorem packed_ne_zero {a b : UInt32} (nonzero : b ≠ 0) :
    a.toUInt64 ||| b.toUInt64 <<< 32 ≠ 0 := by
  intro zero
  have high := high_of_key a b
  rw [zero] at high
  exact nonzero (by simpa using high.symm)

/-- A key names an unordered pair of handles. -/
theorem unionKey_inj {a b c d : UInt32} (same : unionKey a b = unionKey c d) :
    (a = c ∧ b = d) ∨ (a = d ∧ b = c) := by
  unfold unionKey at same
  split_ifs at same <;> have := packed_inj same <;> tauto

theorem unionKey_ne_zero {a b : UInt32} (nonzeroA : a ≠ 0) (nonzeroB : b ≠ 0) :
    unionKey a b ≠ 0 := by
  unfold unionKey
  split_ifs
  · exact packed_ne_zero nonzeroB
  · exact packed_ne_zero nonzeroA

/-- A release leaves the sequence even. -/
private theorem seq_even {seq : UInt32} (even : seq &&& 1 = 0) : (seq + 2) &&& 1 = 0 := by
  have bits := congrArg UInt32.toNat even
  apply UInt32.toNat_inj.mp
  simp at *
  omega

end Keys

namespace DecisionSet

/-- The merge of two memoised sets: the larger where one contains the other, else every member of both
within the bound. -/
theorem unionUncached_eq {bound : Nat} {a b : DecisionSet} (memoised : Memoised a b) :
    unionUncached bound a b =
      if ¬ (a.ids ⊆ b.ids ∨ b.ids ⊆ a.ids) ∧ Widens bound (a.ids ∪ b.ids) then .top false
      else .explicit (a.ids ∪ b.ids) false := by
  obtain ⟨differ, nonemptyA, nonemptyB, exactA, exactB, explicitA, explicitB⟩ := memoised
  rcases a with ⟨x, kx⟩ | _ <;> rcases b with ⟨y, ky⟩ | _ <;> simp_all [isTop, isCollapsing]
  simp only [empty, explicit.injEq, and_true] at nonemptyA nonemptyB
  simp only [unionUncached, isSubset, isTop, ids, Widens, intern]
  by_cases le : x ⊆ y
  · have := Finset.union_eq_right.mpr le
    by_cases ge : y ⊆ x <;> simp_all [Ne.symm differ, empty]
  · by_cases ge : y ⊆ x
    · have := Finset.union_eq_left.mpr ge
      simp_all [Ne.symm differ, empty]
    · simp_all [Ne.symm differ, empty]

theorem Memoised.symm {a b : DecisionSet} (memoised : Memoised a b) : Memoised b a := by
  obtain ⟨differ, nonemptyA, nonemptyB, exactA, exactB, explicitA, explicitB⟩ := memoised
  exact ⟨differ.symm, nonemptyB, nonemptyA, exactB, exactA, explicitB, explicitA⟩

/-- The merge does not depend on the order of its operands. -/
theorem unionUncached_comm {bound : Nat} {a b : DecisionSet} (memoised : Memoised a b) :
    unionUncached bound a b = unionUncached bound b a := by
  rw [unionUncached_eq memoised, unionUncached_eq memoised.symm, Finset.union_comm b.ids]
  simp only [or_comm]

/-- The merge keeps the members and the bound exactly where the larger of two nested sets is within
the bound. -/
theorem unionUncached_eq_merged_iff {bound other : Nat} {a b : DecisionSet} (memoised : Memoised a b) :
    unionUncached other a b = merged bound a b ↔
      if a.ids ⊆ b.ids ∨ b.ids ⊆ a.ids then ¬ Widens bound (a.ids ∪ b.ids)
      else (Widens other (a.ids ∪ b.ids) ↔ Widens bound (a.ids ∪ b.ids)) := by
  have nonempty : a.ids ∪ b.ids ≠ ∅ := by
    obtain ⟨-, nonemptyA, -, exactA, -, explicitA, -⟩ := memoised
    rcases a with ⟨x, kx⟩ | _ <;> simp_all [isTop, isCollapsing, ids, empty]
  rw [unionUncached_eq memoised]
  obtain ⟨-, -, -, exactA, exactB, explicitA, explicitB⟩ := memoised
  simp only [merged, exactA, exactB, explicitA, explicitB, intern, if_neg nonempty]
  by_cases nested : a.ids ⊆ b.ids ∨ b.ids ⊆ a.ids <;>
    by_cases wide : Widens bound (a.ids ∪ b.ids) <;>
    by_cases wideOther : Widens other (a.ids ∪ b.ids) <;>
    simp [nested, wide, wideOther]

/-- A set merged with itself or with the empty set is that set, unless it is past the bound. -/
private theorem eq_merged_iff (bound : Nat) {a b : DecisionSet} (interned : a.Interned)
    (add : b = a ∨ b = empty) :
    a = merged bound a b ↔ a.isTop ∨ a.isCollapsing ∨ ¬ Widens bound (a.ids ∪ b.ids) := by
  have same : a.ids ∪ b.ids = a.ids := by rcases add with rfl | rfl <;> simp [empty, ids]
  have kind : (a.isCollapsing || b.isCollapsing) = a.isCollapsing := by
    rcases add with rfl | rfl <;> simp [empty, isCollapsing]
  have absorbed : (a.isTop || b.isTop) = a.isTop := by
    rcases add with rfl | rfl <;> simp [empty, isTop]
  simp only [merged, same, kind, absorbed]
  rcases a with ⟨x, _ | _⟩ | k
  · by_cases wide : Widens bound x
    · simp [isTop, isCollapsing, ids, wide]
    · by_cases none : x = ∅ <;> simp [isTop, isCollapsing, ids, wide, intern, none, empty]
  · have one : x.card = 1 := interned rfl
    have nonempty : x ≠ ∅ := by rintro rfl; simp at one
    simp [isTop, isCollapsing, ids, Widens, one, intern, nonempty]
  · simp [isTop, isCollapsing]

private theorem merged_comm (bound : Nat) (a b : DecisionSet) : merged bound a b = merged bound b a := by
  simp only [merged, Finset.union_comm, Bool.or_comm]

/-- Two different singletons have two members. -/
private theorem two_of_ne {x y : Finset Decision} (oneX : x.card = 1) (oneY : y.card = 1)
    (differ : x ≠ y) : Widens 1 (x ∪ y) := by
  refine ⟨by decide, Nat.lt_of_not_le fun small => differ ?_⟩
  have left := Finset.eq_of_subset_of_card_le (Finset.subset_union_left : x ⊆ x ∪ y) (by omega)
  have right := Finset.eq_of_subset_of_card_le (Finset.subset_union_right : y ⊆ x ∪ y) (by omega)
  exact left.trans right.symm

/-- Two explicit exact sets, neither inside the other, go through the memo. -/
theorem memoised_of_apart {a b : DecisionSet} (apart : ¬ (a.ids ⊆ b.ids ∨ b.ids ⊆ a.ids))
    (plain : a.isTop = false ∧ b.isTop = false ∧ a.isCollapsing = false ∧ b.isCollapsing = false) :
    Memoised a b := by
  obtain ⟨explicitA, explicitB, exactA, exactB⟩ := plain
  refine ⟨?_, ?_, ?_, exactA, exactB, explicitA, explicitB⟩ <;> rintro rfl <;> simp [empty, ids] at apart

/-- Where the memo is not asked, the union is the merge unless a nested set is past the bound. -/
theorem union_eq_merged_iff {bound : Nat} {a b : DecisionSet} (internedA : a.Interned)
    (internedB : b.Interned) (alike : Alike a b) (direct : ¬ Memoised a b) :
    union bound a b = merged bound a b ↔
      a.isTop ∨ b.isTop ∨ a.isCollapsing ∨ b.isCollapsing ∨ ¬ Widens bound (a.ids ∪ b.ids) := by
  by_cases add : a = b ∨ b = empty
  · have kept := eq_merged_iff bound internedA (add.imp_left Eq.symm)
    rw [union, if_pos add, kept]
    rcases add with rfl | rfl
    · tauto
    · simp [empty, isTop, isCollapsing]
  by_cases start : a = empty
  · have kept := eq_merged_iff bound internedB (.inr start)
    rw [union, if_neg add, if_pos start, merged_comm, kept, start]
    simp [empty, isTop, isCollapsing, ids]
  have kinds : a.isCollapsing = b.isCollapsing := by
    rcases alike with none | none | same
    · exact absurd none start
    · exact absurd none (by tauto)
    · exact same
  rw [union, if_neg add, if_neg start]
  rcases a with ⟨x, _ | _⟩ | k <;> rcases b with ⟨y, _ | _⟩ | k' <;>
    simp only [isCollapsing, reduceCtorEq] at kinds
  · exact absurd ⟨fun same => add (.inl same), start, fun none => add (.inr none), rfl, rfl, rfl, rfl⟩ direct
  · simp [isCollapsing, isTop, merged, ← kinds]
  · have oneX : x.card = 1 := internedA rfl
    have oneY : y.card = 1 := internedB rfl
    have wide : Widens 1 (x ∪ y) := two_of_ne oneX oneY (by simpa using fun same => add (.inl same))
    simp [isCollapsing, isTop, merged, ids, wide]
  · simp [isCollapsing, isTop, merged, ← kinds]
  · simp [isCollapsing, isTop, merged, kinds]
  · simp [isCollapsing, isTop, merged, kinds]
  · exact absurd (.inl (by rw [kinds])) add

end DecisionSet

namespace Process

variable {interner : Interner} {process : Process} {a b : interner.Handle}

/-- Away from the memo a union is that of the two sets and leaves the process alone. -/
theorem union_of_direct (direct : ¬ Memoised a.1 b.1) :
    process.union a b = (DecisionSet.union process.widenBound a b, process) := by
  have same : a = b ↔ a.1 = b.1 := Subtype.ext_iff
  unfold union DecisionSet.union
  simp only [same]
  split_ifs <;> try rfl
  unfold Memoised at direct
  simp only [Bool.or_eq_true, not_or, Bool.not_eq_true] at *
  tauto

theorem union_of_memoised (memoised : Memoised a.1 b.1) :
    process.union a b =
      match process.unionCacheGet (Ledger.keyOf a b) with
      | some result => (result, process)
      | none => (unionUncached process.widenBound a b,
          process.unionCachePut (Ledger.keyOf a b) (unionUncached process.widenBound a b)) := by
  obtain ⟨differ, nonemptyA, nonemptyB, exactA, exactB, explicitA, explicitB⟩ := memoised
  simp [union, Subtype.ext_iff, differ, nonemptyA, nonemptyB, exactA, exactB, explicitA, explicitB,
    Ledger.keyOf]

end Process

namespace Ledger

variable {interner : Interner} {ledger : Ledger interner} {process : Process} {a b : interner.Handle}

theorem keyOf_ne_zero (a b : interner.Handle) : keyOf a b ≠ 0 :=
  unionKey_ne_zero (interner.raw_ne_zero a a.2) (interner.raw_ne_zero b b.2)

theorem keyOf_inj {x y : interner.Handle} (same : keyOf x y = keyOf a b) :
    (x = a ∧ y = b) ∨ (x = b ∧ y = a) := by
  rcases unionKey_inj same with ⟨left, right⟩ | ⟨left, right⟩
  · exact .inl ⟨Subtype.ext (interner.raw_inj x x.2 a a.2 left),
      Subtype.ext (interner.raw_inj y y.2 b b.2 right)⟩
  · exact .inr ⟨Subtype.ext (interner.raw_inj x x.2 b b.2 left),
      Subtype.ext (interner.raw_inj y y.2 a a.2 right)⟩

/-- An entry found under a pair's key is the merge of that pair, whichever way round it was asked. -/
private theorem entry_eq {x y : interner.Handle} {bound : Nat} (memoised : Memoised x.1 y.1)
    (same : keyOf x y = keyOf a b) : unionUncached bound x y = unionUncached bound a b := by
  rcases keyOf_inj same with ⟨rfl, rfl⟩ | ⟨rfl, rfl⟩
  · rfl
  · exact unionUncached_comm memoised

/-- The memo answers for a pair exactly when the ledger has it, with the merge under its bound. -/
theorem Represents.unionCacheGet (represents : ledger.Represents process) (a b : interner.Handle) :
    process.unionCacheGet (keyOf a b) =
      if ledger.Holds a b then some (unionUncached (ledger.boundOf a b) a b) else none := by
  obtain ⟨even, slot⟩ := represents.2 (unionSlot (keyOf a b))
  unfold Process.unionCacheGet
  rw [if_neg (by simp [even])]
  rcases held : ledger.holder (unionSlot (keyOf a b)) with _ | ⟨x, y, bound⟩
  · simp only [held] at slot
    simp [Holds, held, slot, (keyOf_ne_zero a b).symm]
  · simp only [held] at slot
    obtain ⟨key, result, memoised⟩ := slot
    by_cases same : keyOf x y = keyOf a b
    · simp [Holds, boundOf, held, key, result, same, entry_eq memoised same]
    · simp [Holds, held, key, same]

theorem boundOf_of_not_holds (free : ¬ ledger.Holds a b) : ledger.boundOf a b = ledger.bound := by
  unfold Holds at free
  unfold boundOf
  split <;> simp_all

/-- The result of a memoised union is the merge under the bound the ledger gives for the pair. -/
theorem Represents.union_fst (represents : ledger.Represents process) (memoised : Memoised a.1 b.1) :
    (process.union a b).1 = unionUncached (ledger.boundOf a b) a b := by
  rw [Process.union_of_memoised memoised, represents.unionCacheGet]
  by_cases held : ledger.Holds a b
  · simp [held]
  · simp [held, boundOf_of_not_holds held, represents.1]

theorem represents_start : (start : Ledger interner).Represents .start :=
  ⟨rfl, fun _ => ⟨show (0 : UInt32) &&& 1 = 0 by decide, rfl⟩⟩

/-- A merge put into its slot under the current bound. -/
theorem Represents.unionCachePut (represents : ledger.Represents process) (memoised : Memoised a.1 b.1) :
    Represents
      { ledger with
        holder := Function.update ledger.holder (unionSlot (keyOf a b)) (some (a, b, ledger.bound)) }
      (process.unionCachePut (keyOf a b) (unionUncached process.widenBound a b)) := by
  obtain ⟨bound, slots⟩ := represents
  have even := (slots (unionSlot (keyOf a b))).1
  unfold Process.unionCachePut
  rw [if_neg (by simp [even])]
  generalize unionSlot (keyOf a b) = here at even ⊢
  refine ⟨bound, fun index => ?_⟩
  by_cases same : index = here
  · subst same
    simp only [Function.update_self]
    exact ⟨seq_even even, trivial, by rw [bound], memoised⟩
  · simp only [Function.update_of_ne same]
    exact slots index

/-- The ledger follows every operation of the process. -/
theorem Represents.step (represents : ledger.Represents process) (op : Process.Op interner) :
    (ledger.step op).Represents (process.step op) := by
  cases op with
  | setWidenBound k => exact ⟨rfl, represents.2⟩
  | union a b =>
    simp only [Ledger.step, Process.step]
    by_cases memoised : Memoised a.1 b.1
    · rw [Process.union_of_memoised memoised, represents.unionCacheGet]
      by_cases held : ledger.Holds a b
      · simpa only [held, memoised, not_true_eq_false, and_false, ↓reduceIte] using represents
      · simpa only [held, memoised, not_false_eq_true, and_self, ↓reduceIte] using
          represents.unionCachePut memoised
    · rw [Process.union_of_direct memoised, if_neg fun both => memoised both.1]
      exact represents

theorem represents_run (ops : List (Process.Op interner)) : (run ops).Represents (Process.run ops) := by
  have along : ∀ (ops : List (Process.Op interner)) (ledger : Ledger interner) (process : Process),
      ledger.Represents process → (ops.foldl Ledger.step ledger).Represents (ops.foldl Process.step process) := by
    intro ops
    induction ops with
    | nil => exact fun _ _ represents => represents
    | cons op rest ih => exact fun _ _ represents => ih _ _ (represents.step op)
  exact along ops start .start represents_start

/-- Every entry of the ledger was computed under the bound. -/
def OneBound (k : Nat) (ledger : Ledger interner) : Prop :=
  ledger.bound = k ∧ ∀ index, ∀ entry ∈ ledger.holder index, entry.2.2 = k

theorem OneBound.step {k : Nat} (one : OneBound k ledger) {op : Process.Op interner}
    (kept : op = .setWidenBound k ∨ ∃ a b, op = .union a b) : OneBound k (ledger.step op) := by
  obtain ⟨bound, entries⟩ := one
  rcases kept with rfl | ⟨a, b, rfl⟩
  · exact ⟨rfl, entries⟩
  · simp only [Ledger.step]
    split_ifs
    · refine ⟨bound, fun index entry held => ?_⟩
      by_cases here : index = unionSlot (keyOf a b)
      · simp only [here, Function.update_self, Option.mem_some_iff] at held
        rw [← held, bound]
      · simp only [Function.update_of_ne here] at held
        exact entries index entry held
    · exact ⟨bound, entries⟩

theorem run_of_one_bound {k : Nat} {ops : List (Process.Op interner)}
    (oneBound : ∀ op ∈ ops, op = .setWidenBound k ∨ ∃ a b, op = .union a b) :
    OneBound k (run (.setWidenBound k :: ops)) := by
  have along : ∀ ledger : Ledger interner, OneBound k ledger → OneBound k (ops.foldl Ledger.step ledger) := by
    induction ops with
    | nil => exact fun _ one => one
    | cons op rest ih =>
      exact fun ledger one => ih (fun op mem => oneBound op (.tail _ mem)) _
        (one.step (oneBound op (.head _)))
  exact along _ ⟨rfl, fun _ _ held => nomatch held⟩

theorem OneBound.boundOf {k : Nat} (one : OneBound k ledger) (a b : interner.Handle) :
    ledger.boundOf a b = k := by
  obtain ⟨bound, entries⟩ := one
  unfold Ledger.boundOf
  split
  · next x y other held =>
    have := entries _ _ held
    split_ifs <;> assumption
  · exact bound

end Ledger

namespace Process

variable {interner : Interner}

/-- In every process, the union of two interned sets is their merge under the bound in force exactly
when the bound its slot was filled under agrees with that bound on the pair. -/
theorem union_eq_merged_iff_agrees (ops : List (Op interner)) (a b : interner.Handle)
    (alike : Alike a.1 b.1) :
    ((run ops).union a b).1 = merged (run ops).widenBound a b ↔ (Ledger.run ops).Agrees a b := by
  have represents := Ledger.represents_run ops
  unfold Ledger.Agrees
  rw [represents.1]
  by_cases memoised : Memoised a.1 b.1
  · rw [represents.union_fst memoised, unionUncached_eq_merged_iff memoised]
    obtain ⟨-, -, -, exactA, exactB, explicitA, explicitB⟩ := memoised
    simp [exactA, exactB, explicitA, explicitB]
  · have result : ((run ops).union a b).1 = DecisionSet.union (Ledger.run ops).bound a b := by
      rw [union_of_direct memoised, represents.1]
    rw [result, union_eq_merged_iff (interner.interned a a.2) (interner.interned b b.2) alike memoised]
    by_cases special : a.1.isTop ∨ b.1.isTop ∨ a.1.isCollapsing ∨ b.1.isCollapsing
    · tauto
    · have nested : a.1.ids ⊆ b.1.ids ∨ b.1.ids ⊆ a.1.ids := by
        by_contra apart
        push Not at special
        exact memoised (memoised_of_apart apart (by simpa using special))
      rw [if_pos nested]

/-- A process that only ever sets one bound, before any union, unions as the two sets alone do: this is
the union the rules of a single run see. -/
theorem union_eq_of_one_bound {k : Nat} {ops : List (Op interner)}
    (oneBound : ∀ op ∈ ops, op = .setWidenBound k ∨ ∃ a b, op = .union a b) (a b : interner.Handle) :
    ((run (.setWidenBound k :: ops)).union a b).1 = DecisionSet.union k a b := by
  have represents := Ledger.represents_run (.setWidenBound k :: ops)
  have one := Ledger.run_of_one_bound oneBound
  by_cases memoised : Memoised a.1 b.1
  · rw [represents.union_fst memoised, one.boundOf]
    obtain ⟨differ, nonemptyA, nonemptyB, exactA, exactB, explicitA, explicitB⟩ := memoised
    simp [DecisionSet.union, differ, nonemptyA, nonemptyB, exactA, exactB, explicitA, explicitB]
  · rw [union_of_direct memoised, represents.1, one.1]

/-- Two decisions on the same formal, and a process that has interned their singletons. -/
private def twoSingletons : Interner where
  sets := {.singleton ⟨0, .empty, .functionId 1⟩ false, .singleton ⟨0, .empty, .functionId 2⟩ false}
  raw ds := if ds = .singleton ⟨0, .empty, .functionId 1⟩ false then 256 else 257
  interned := by decide
  raw_ne_zero := by decide
  raw_inj := by decide

private def one : twoSingletons.Handle := ⟨.singleton ⟨0, .empty, .functionId 1⟩ false, by decide⟩

private def two : twoSingletons.Handle := ⟨.singleton ⟨0, .empty, .functionId 2⟩ false, by decide⟩

theorem union_eq_merged_first :
    ((run [(.setWidenBound 1 : Op twoSingletons)]).union one two).1 =
        merged (run [(.setWidenBound 1 : Op twoSingletons)]).widenBound one two ↔
      (Ledger.run [(.setWidenBound 1 : Op twoSingletons)]).Agrees one two :=
  union_eq_merged_iff_agrees _ one two (by decide)

/-- A union widened in a run bounded by one is returned again in the unbounded run after it. -/
theorem union_stale :
    Alike one.1 two.1 ∧
      ((run [.setWidenBound 1, .union one two, .setWidenBound 0]).union one two).1 = .top false ∧
      merged (run [.setWidenBound 1, .union one two, .setWidenBound 0]).widenBound one two =
        .explicit {⟨0, .empty, .functionId 1⟩, ⟨0, .empty, .functionId 2⟩} false := by
  decide +kernel

end Process

end Ctadl.Index
