import Mathlib.Data.List.Pairwise
import Mathlib.Order.Lattice

/-! # Ordered maps

A map as the list of its entries by ascending key. The order is part of the type, so two maps that
answer every lookup alike are equal, and a walk over the entries meets them in the order of the keys.
-/

namespace Ctadl.Collections

variable {K A : Type*}

structure SortedMap (K A : Type*) [LT K] where
  entries : List (K × A)
  sorted : entries.Pairwise fun e f => e.1 < f.1

namespace SortedMap

instance [LT K] [DecidableEq K] [DecidableEq A] : DecidableEq (SortedMap K A) := fun m m' =>
  decidable_of_iff (m.entries = m'.entries) ⟨fun same => by cases m; cases m'; simpa using same, fun same => same ▸ rfl⟩

variable [LinearOrder K] {m m' : SortedMap K A} {k k' : K} {a b : A}

def empty : SortedMap K A := ⟨[], .nil⟩

def get (m : SortedMap K A) (k : K) : Option A := (m.entries.find? fun e => e.1 = k).map (·.2)

/-- Put an entry where its key belongs, in place of the entry with that key. -/
def insertEntry (k : K) (a : A) : List (K × A) → List (K × A)
  | [] => [(k, a)]
  | (x, b) :: rest =>
    if k < x then (k, a) :: (x, b) :: rest
    else if k = x then (k, a) :: rest
    else (x, b) :: insertEntry k a rest

theorem insertEntry_key {e : K × A} {entries : List (K × A)} (mem : e ∈ insertEntry k a entries) :
    e.1 = k ∨ ∃ f ∈ entries, f.1 = e.1 := by
  induction entries with
  | nil =>
    obtain rfl := List.mem_singleton.mp mem
    exact .inl rfl
  | cons head rest ih =>
    obtain ⟨x, b⟩ := head
    rw [insertEntry] at mem
    split_ifs at mem
    · rcases List.mem_cons.mp mem with rfl | old
      exacts [.inl rfl, .inr ⟨e, old, rfl⟩]
    · rcases List.mem_cons.mp mem with rfl | old
      exacts [.inl rfl, .inr ⟨e, .tail _ old, rfl⟩]
    · rcases List.mem_cons.mp mem with rfl | old
      · exact .inr ⟨(x, b), .head _, rfl⟩
      · exact (ih old).imp_right fun ⟨f, kept, same⟩ => ⟨f, .tail _ kept, same⟩

theorem insertEntry_sorted {entries : List (K × A)} (sorted : entries.Pairwise fun e f => e.1 < f.1) :
    (insertEntry k a entries).Pairwise fun e f => e.1 < f.1 := by
  induction entries with
  | nil => exact List.pairwise_singleton _ _
  | cons head rest ih =>
    obtain ⟨x, b⟩ := head
    obtain ⟨first, later⟩ := List.pairwise_cons.mp sorted
    rw [insertEntry]
    split_ifs with lt same
    · refine List.pairwise_cons.mpr ⟨fun e mem => ?_, sorted⟩
      rcases List.mem_cons.mp mem with rfl | mem
      exacts [lt, lt.trans (first e mem)]
    · subst same
      exact List.pairwise_cons.mpr ⟨first, later⟩
    · refine List.pairwise_cons.mpr ⟨fun e mem => ?_, ih later⟩
      rcases insertEntry_key mem with same' | ⟨f, old, same'⟩
      · exact same' ▸ lt_of_le_of_ne (not_lt.mp lt) (Ne.symm same)
      · exact same' ▸ first f old

def insert (m : SortedMap K A) (k : K) (a : A) : SortedMap K A :=
  ⟨insertEntry k a m.entries, insertEntry_sorted m.sorted⟩

def erase (m : SortedMap K A) (k : K) : SortedMap K A :=
  ⟨m.entries.filter fun e => e.1 ≠ k, m.sorted.filter _⟩

/-- The entries are the lookups. -/
theorem mem_entries : (k, a) ∈ m.entries ↔ m.get k = some a := by
  constructor
  · intro mem
    obtain ⟨entries, sorted⟩ := m
    induction entries with
    | nil => cases mem
    | cons head rest ih =>
      obtain ⟨first, later⟩ := List.pairwise_cons.mp sorted
      rcases List.mem_cons.mp mem with rfl | old
      · simp [get]
      · have other : head.1 ≠ k := (first _ old).ne
        simpa [get, other] using ih later old
  · intro found
    obtain ⟨⟨x, b⟩, isFirst, rfl⟩ := Option.map_eq_some_iff.mp found
    obtain rfl : x = k := by simpa using List.find?_some isFirst
    exact List.mem_of_find?_eq_some isFirst

@[simp] theorem get_empty : (empty : SortedMap K A).get k = none := rfl

theorem ext_get (same : ∀ k, m.get k = m'.get k) : m = m' := by
  have entries : m.entries = m'.entries := by
    have strict : ∀ {l : SortedMap K A}, l.entries.Nodup := fun {l} => l.sorted.imp fun lt => by
      rintro rfl
      exact lt_irrefl _ lt
    have perm : m.entries.Perm m'.entries := (List.perm_ext_iff_of_nodup strict strict).mpr fun ⟨k, a⟩ => by
      rw [mem_entries, mem_entries, same]
    refine perm.eq_of_pairwise ?_ m.sorted m'.sorted
    intro e f _ _ first second
    exact absurd (first.trans second) (lt_irrefl _)
  cases m
  cases m'
  simpa using entries

theorem get_insert : (m.insert k a).get k' = if k' = k then some a else m.get k' := by
  obtain ⟨entries, sorted⟩ := m
  change ((insertEntry k a entries).find? fun e => e.1 = k').map (·.2) =
    if k' = k then some a else (entries.find? fun e => e.1 = k').map (·.2)
  induction entries with
  | nil => by_cases same : k' = k <;> simp [insertEntry, same, eq_comm]
  | cons head rest ih =>
    obtain ⟨x, b⟩ := head
    have tail := ih (List.pairwise_cons.mp sorted).2
    rcases lt_trichotomy k x with lt | rfl | gt
    · by_cases same : k = k'
      · subst same
        simp [insertEntry, lt]
      · simp [insertEntry, lt, same, Ne.symm same]
    · by_cases same : k = k'
      · simp [insertEntry, same]
      · simp [insertEntry, same, Ne.symm same]
    · by_cases here : x = k'
      · subst here
        simp [insertEntry, gt.not_gt, gt.ne', gt.ne]
      · simpa [insertEntry, gt.not_gt, gt.ne', here] using tail

@[simp] theorem get_insert_self : (m.insert k a).get k = some a := by rw [get_insert, if_pos rfl]

theorem get_insert_of_ne (other : k' ≠ k) : (m.insert k a).get k' = m.get k' := by rw [get_insert, if_neg other]

theorem get_erase : (m.erase k).get k' = if k' = k then none else m.get k' := by
  apply Option.ext
  intro a
  rw [← mem_entries]
  split_ifs with same
  · subst same
    simp [erase]
  · simp [erase, same, mem_entries]

theorem entries_eq_nil : m.entries = [] ↔ ∀ k, m.get k = none := by
  constructor
  · intro none k
    simp [get, none]
  · intro none
    apply List.eq_nil_iff_forall_not_mem.mpr
    rintro ⟨k, a⟩ mem
    exact absurd (mem_entries.mp mem) (by simp [none])

end SortedMap

end Ctadl.Collections
