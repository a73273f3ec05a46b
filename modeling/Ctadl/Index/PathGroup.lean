import Ctadl.Datalog.KeyedRows

/-! # The leaves of one group, by path

A group keeps its leaves in one flat set while they are few, and in a set for each path once they are
many. Nothing outside sees which: the leaves it lists, those it lists at a path, its length and its
membership test all speak of one set.
-/

namespace Ctadl.Index

open Std Datalog

/-- A set of at most this many elements is a probe table, and a group of at most this many is flat. -/
def SMALL_THRESHOLD : Nat := 64

variable {P A B : Type} [DecidableEq P] [Hashable P] [DecidableEq A] [Hashable A] [DecidableEq B] [Hashable B]

inductive PathGroup (P A B : Type) [DecidableEq P] [Hashable P] [DecidableEq A] [Hashable A] [DecidableEq B]
    [Hashable B] where
  | flat (set : HashSet (P × A × B))
  | byPath (map : HashMap P (HashSet (A × B))) (len : Nat)

namespace PathGroup

def empty : PathGroup P A B := flat ∅

def len : PathGroup P A B → Nat
  | flat set => set.size
  | byPath _ len => len

def contains : PathGroup P A B → P → A → B → Bool
  | flat set, p, a, b => set.contains (p, a, b)
  | byPath map _, p, a, b => map[p]?.any (·.contains (a, b))

/-- The by-path regime's insertion: the sets and their length after it, and whether the leaf was new. -/
def insertAt (map : HashMap P (HashSet (A × B))) (len : Nat) (leaf : P × A × B) :
    (HashMap P (HashSet (A × B)) × Nat) × Bool :=
  let set := map.getD leaf.1 ∅
  let added := !set.contains leaf.2
  ((map.insert leaf.1 (set.insert leaf.2), if added then len + 1 else len), added)

/-- A flat group's leaves, moved into the by-path regime. -/
def promote (set : HashSet (P × A × B)) : HashMap P (HashSet (A × B)) × Nat :=
  set.toList.foldl (fun moved leaf => (insertAt moved.1 moved.2 leaf).1) (∅, 0)

def ofPaths (paths : HashMap P (HashSet (A × B)) × Nat) : PathGroup P A B := byPath paths.1 paths.2

/-- Inserts a leaf; whether it was new to the group. -/
def insert (g : PathGroup P A B) (leaf : P × A × B) : PathGroup P A B × Bool :=
  match g with
  | flat set =>
    if set.size < SMALL_THRESHOLD then (flat (set.insert leaf), !set.contains leaf)
    else
      let moved := promote set
      let inserted := insertAt moved.1 moved.2 leaf
      (ofPaths inserted.1, inserted.2)
  | byPath map len =>
    let inserted := insertAt map len leaf
    (ofPaths inserted.1, inserted.2)

/-- Every leaf. -/
def iter : PathGroup P A B → List (P × A × B)
  | flat set => set.toList
  | byPath map _ => keyedRows map HashSet.toList

/-- One leaf of a merge. -/
def mergeLeaf (merged : PathGroup P A B × Nat) (leaf : P × A × B) : PathGroup P A B × Nat :=
  let inserted := merged.1.insert leaf
  (inserted.1, if inserted.2 then merged.2 + 1 else merged.2)

/-- Takes the union with `other`, with how many leaves were new. -/
def merge (g other : PathGroup P A B) : PathGroup P A B × Nat :=
  if other.len = 0 then (g, 0)
  else if g.len = 0 then (other, other.len)
  else other.iter.foldl mergeLeaf (g, 0)

/-- The leaves at exactly path `p`, or `none` if there are none. -/
def get (g : PathGroup P A B) (p : P) : Option (List (A × B)) :=
  match g with
  | flat set =>
    if set.toList.any fun leaf => leaf.1 = p then
      some ((set.toList.filter fun leaf => leaf.1 = p).map Prod.snd)
    else none
  | byPath map _ => map[p]?.map HashSet.toList

/-- The length is that of the listing, and no path is kept without a leaf. -/
def Wf : PathGroup P A B → Prop
  | flat _ => True
  | byPath map len => len = (keyedRows map HashSet.toList).length ∧ ∀ (p : P) s, map[p]? = some s → ∃ x, x ∈ s

variable {g : PathGroup P A B} {leaf leaf' : P × A × B}

@[simp] theorem wf_empty : (empty : PathGroup P A B).Wf := trivial

@[simp] theorem contains_empty {p : P} {a : A} {b : B} : (empty : PathGroup P A B).contains p a b = false := by
  simp [empty, contains]

theorem mem_iter {p : P} {a : A} {b : B} : (p, a, b) ∈ g.iter ↔ g.contains p a b = true := by
  cases g with
  | flat set => simp [iter, contains]
  | byPath map len =>
    simp only [iter, contains, mem_keyedRows, Option.any_eq_true]
    exact exists_congr fun set => and_congr_right fun _ => by simp

theorem nodup_iter : g.iter.Nodup := by
  cases g with
  | flat set => exact nodup_toList set
  | byPath map len => exact nodup_keyedRows fun _ set _ => nodup_toList set

theorem len_eq (wf : g.Wf) : g.len = g.iter.length := by
  cases g with
  | flat set => exact HashSet.length_toList.symm
  | byPath map len => exact wf.1

/-- What an insertion does to a group. -/
structure Inserted (g : PathGroup P A B) (leaf : P × A × B) (after : PathGroup P A B) (added : Bool) : Prop where
  wf : after.Wf
  contains (p : P) (a : A) (b : B) : after.contains p a b = true ↔ (p, a, b) = leaf ∨ g.contains p a b = true
  added : added = !g.contains leaf.1 leaf.2.1 leaf.2.2

theorem insertAt_spec (leaf : P × A × B) {map : HashMap P (HashSet (A × B))} {len : Nat} (wf : (byPath map len).Wf) :
    Inserted (byPath map len) leaf (ofPaths (insertAt map len leaf).1) (insertAt map len leaf).2 := by
  obtain ⟨p, a, b⟩ := leaf
  obtain ⟨length, nonempty⟩ := wf
  have contains : ∀ p' a' b', (ofPaths (insertAt map len (p, a, b)).1).contains p' a' b' = true ↔
      (p', a', b') = (p, a, b) ∨ (byPath map len).contains p' a' b' = true := fun p' a' b' => by
    by_cases here : p = p'
    · subst here
      cases found : map[p]? <;> simp [ofPaths, insertAt, PathGroup.contains, HashMap.getD_eq_getD_getElem?, found,
        @eq_comm _ a a', @eq_comm _ b b']
    · simp [ofPaths, insertAt, PathGroup.contains, HashMap.getElem?_insert, here, Ne.symm here]
  have added : (insertAt map len (p, a, b)).2 = !(byPath map len).contains p a b := by
    cases found : map[p]? <;> simp [insertAt, PathGroup.contains, HashMap.getD_eq_getD_getElem?, found]
  refine ⟨⟨?_, fun p' set found => ?_⟩, contains, added⟩
  · have mem : ∀ y, y ∈ (ofPaths (insertAt map len (p, a, b)).1).iter ↔
        y = (p, a, b) ∨ y ∈ (byPath map len).iter := fun y => by
      rw [mem_iter, contains, mem_iter]
    change (if (insertAt map len (p, a, b)).2 then len + 1 else len) = (ofPaths (insertAt map len (p, a, b)).1).iter.length
    have before : len = (byPath map len).iter.length := length
    rw [added]
    cases old : (byPath map len).contains p a b with
    | false =>
      have fresh : (p, a, b) ∉ (byPath map len).iter := fun member => by simp [mem_iter.mp member] at old
      have after := length_of_mem_iff nodup_iter nodup_iter fresh mem
      simp only [Bool.not_false, if_true]
      omega
    | true =>
      have after : (ofPaths (insertAt map len (p, a, b)).1).iter.length = (byPath map len).iter.length :=
        length_eq_of_mem_iff nodup_iter nodup_iter fun y =>
          (mem y).trans (or_iff_right_of_imp fun eq => eq ▸ mem_iter.mpr old)
      simp only [Bool.not_true, Bool.false_eq_true, if_false]
      omega
  · by_cases here : p = p'
    · subst here
      obtain rfl : (map.getD p ∅).insert (a, b) = set := by simpa [insertAt] using found
      exact ⟨(a, b), by simp⟩
    · exact nonempty p' set (by simpa [insertAt, HashMap.getElem?_insert, here] using found)

/-- Moving a flat group's leaves keeps them. -/
theorem promote_spec (set : HashSet (P × A × B)) : (ofPaths (promote set)).Wf ∧
    ∀ p a b, (ofPaths (promote set)).contains p a b = true ↔ (p, a, b) ∈ set := by
  have moves : ∀ (leaves : List (P × A × B)) (moved : HashMap P (HashSet (A × B)) × Nat), (ofPaths moved).Wf →
      (ofPaths (leaves.foldl (fun moved leaf => (insertAt moved.1 moved.2 leaf).1) moved)).Wf ∧
      ∀ p a b, (ofPaths (leaves.foldl (fun moved leaf => (insertAt moved.1 moved.2 leaf).1) moved)).contains p a b =
        true ↔ (p, a, b) ∈ leaves ∨ (ofPaths moved).contains p a b = true := by
    intro leaves
    induction leaves with
    | nil => exact fun moved wf => ⟨wf, by simp⟩
    | cons leaf leaves ih =>
      intro moved wf
      have one := insertAt_spec leaf wf
      obtain ⟨wf', contains⟩ := ih _ one.wf
      refine ⟨wf', fun p a b => (contains p a b).trans ?_⟩
      rw [one.contains, List.mem_cons]
      change _ ∨ _ ∨ (ofPaths moved).contains p a b = true ↔ _
      tauto
  have start : (ofPaths ((∅ : HashMap P (HashSet (A × B))), 0)).Wf := ⟨by simp [keyedRows], by simp⟩
  obtain ⟨wf, contains⟩ := moves set.toList (∅, 0) start
  refine ⟨wf, fun p a b => (contains p a b).trans ?_⟩
  simp [ofPaths, PathGroup.contains]

theorem insert_spec (leaf : P × A × B) (wf : g.Wf) : Inserted g leaf (g.insert leaf).1 (g.insert leaf).2 := by
  cases g with
  | byPath map len => exact insertAt_spec leaf wf
  | flat set =>
    unfold insert
    dsimp only
    split_ifs with small
    · refine ⟨trivial, fun p a b => ?_, by simp [PathGroup.contains]⟩
      rw [PathGroup.contains, HashSet.contains_insert, Bool.or_eq_true, beq_iff_eq]
      exact or_congr_left eq_comm
    · obtain ⟨wf', moved⟩ := promote_spec set
      have one := insertAt_spec leaf wf'
      have same : ∀ p a b, (ofPaths (promote set)).contains p a b = (flat set).contains p a b := fun p a b => by
        rw [Bool.eq_iff_iff, moved]
        simp [PathGroup.contains]
      exact ⟨one.wf, fun p a b => (one.contains p a b).trans (by rw [← same]; rfl), one.added.trans (by rw [← same]; rfl)⟩

theorem Inserted.len {after : PathGroup P A B} {added : Bool} (inserted : Inserted g leaf after added) (wf : g.Wf) :
    after.len = if added then g.len + 1 else g.len := by
  have mem : ∀ y, y ∈ after.iter ↔ y = leaf ∨ y ∈ g.iter := fun y => by rw [mem_iter, inserted.contains, mem_iter]
  rw [len_eq inserted.wf, len_eq wf, inserted.added]
  cases old : g.contains leaf.1 leaf.2.1 leaf.2.2 with
  | false =>
    have fresh : leaf ∉ g.iter := fun member => by simp [mem_iter.mp member] at old
    exact length_of_mem_iff nodup_iter nodup_iter fresh mem
  | true =>
    refine length_eq_of_mem_iff nodup_iter nodup_iter fun y => (mem y).trans ?_
    exact or_iff_right_of_imp fun eq => eq ▸ mem_iter.mpr old

theorem contains_of_len_zero (wf : g.Wf) (zero : g.len = 0) (p : P) (a : A) (b : B) : g.contains p a b = false := by
  have none : g.iter = [] := List.eq_nil_of_length_eq_zero ((len_eq wf).symm.trans zero)
  rw [Bool.eq_false_iff]
  intro has
  have member := mem_iter.mpr has
  rw [none] at member
  cases member

/-- Inserting leaves one by one. -/
theorem foldl_insert_spec (leaves : List (P × A × B)) (at' : PathGroup P A B × Nat) (wf : at'.1.Wf) :
    let after := leaves.foldl mergeLeaf at'
    after.1.Wf ∧ (∀ p a b, after.1.contains p a b = true ↔ at'.1.contains p a b = true ∨ (p, a, b) ∈ leaves) ∧
      after.1.len + at'.2 = at'.1.len + after.2 := by
  induction leaves generalizing at' with
  | nil => exact ⟨wf, by simp, rfl⟩
  | cons leaf leaves ih =>
    have one := insert_spec leaf wf
    have len := one.len wf
    obtain ⟨wf', contains, count⟩ := ih (mergeLeaf at' leaf) one.wf
    refine ⟨wf', fun p a b => (contains p a b).trans ?_, ?_⟩
    · simp only [mergeLeaf, one.contains, List.mem_cons]
      tauto
    · have step : (mergeLeaf at' leaf).1.len + at'.2 = at'.1.len + (mergeLeaf at' leaf).2 := by
        simp only [mergeLeaf, len]
        split_ifs <;> omega
      rw [List.foldl_cons]
      omega

/-- A merge is the union, and counts the leaves that were new. -/
theorem merge_spec {other : PathGroup P A B} (wf : g.Wf) (wf' : other.Wf) : (g.merge other).1.Wf ∧
    (∀ p a b, (g.merge other).1.contains p a b = true ↔ g.contains p a b = true ∨ other.contains p a b = true) ∧
    (g.merge other).1.len = g.len + (g.merge other).2 := by
  unfold merge
  split_ifs with nothing first
  · exact ⟨wf, fun p a b => by simp [contains_of_len_zero wf' nothing], rfl⟩
  · exact ⟨wf', fun p a b => by simp [contains_of_len_zero wf first], by simp [first]⟩
  · obtain ⟨done, contains, count⟩ := foldl_insert_spec other.iter (g, 0) wf
    exact ⟨done, fun p a b => (contains p a b).trans (or_congr_right mem_iter), by simpa using count⟩

/-- The leaves at a path: some exactly when the group has one there. -/
theorem get_spec (wf : g.Wf) (p : P) : match g.get p with
    | none => ∀ a b, g.contains p a b = false
    | some leaves => leaves ≠ [] ∧ leaves.Nodup ∧ ∀ a b, (a, b) ∈ leaves ↔ g.contains p a b = true := by
  cases g with
  | flat set =>
    have listed : ∀ a b, (a, b) ∈ (set.toList.filter fun leaf => leaf.1 = p).map Prod.snd ↔
        (flat set).contains p a b = true := fun a b => by
      simp [PathGroup.contains]
    unfold get
    dsimp only
    split_ifs with some
    · obtain ⟨leaf, member, path⟩ := List.any_eq_true.mp some
      refine ⟨List.ne_nil_of_mem (List.mem_map_of_mem (List.mem_filter.mpr ⟨member, path⟩)), ?_, listed⟩
      refine List.Nodup.map_on (fun x left y right same => ?_) ((nodup_toList set).filter _)
      simp only [List.mem_filter, decide_eq_true_eq] at left right
      exact Prod.ext (left.2.trans right.2.symm) same
    · intro a b
      rw [Bool.eq_false_iff]
      intro has
      refine some (List.any_eq_true.mpr ⟨(p, a, b), ?_, by simp⟩)
      simpa [PathGroup.contains] using has
  | byPath map len =>
    unfold get
    cases found : map[p]? with
    | none => simp [PathGroup.contains, found]
    | some set =>
      obtain ⟨x, member⟩ := wf.2 p set found
      simp only [found, Option.map_some]
      exact ⟨List.ne_nil_of_mem (HashSet.mem_toList.mpr member), nodup_toList set,
        fun a b => by simp [PathGroup.contains, found]⟩

/-! ### Scripts

A group is what insertions and merges make of an empty one. Its meaning is the set of the pairs inserted,
whatever regime the group and the groups merged into it are in.
-/

/-- Number of distinct paths in the group. -/
def numPaths : PathGroup P A B → Nat
  | flat set =>
    (set.toList.foldl (fun seen leaf => if leaf.1 ∈ seen then seen else seen ++ [leaf.1]) ([] : List P)).length
  | byPath map _ => map.size

/-- A sequence of operations; what is merged in has a sequence of its own. -/
inductive Script (P A B : Type) where
  | new
  | insert (before : Script P A B) (leaf : P × A × B)
  | merge (before other : Script P A B)

/-- The group after the operations. -/
def Script.run : Script P A B → PathGroup P A B
  | .new => empty
  | .insert before leaf => (before.run.insert leaf).1
  | .merge before other => (before.run.merge other.run).1

/-- The pairs inserted by the operations. -/
def Script.pairs : Script P A B → Finset (P × A × B)
  | .new => ∅
  | .insert before leaf => Insert.insert leaf before.pairs
  | .merge before other => before.pairs ∪ other.pairs

/-- Everything a group answers is about one set of pairs. -/
structure Agrees (g : PathGroup P A B) (pairs : Finset (P × A × B)) : Prop where
  contains : ∀ p a b, g.contains p a b = true ↔ (p, a, b) ∈ pairs
  get_none : ∀ p, g.get p = none ↔ ∀ a b, (p, a, b) ∉ pairs
  get_some : ∀ p leaves, g.get p = some leaves → leaves.Nodup ∧ ∀ a b, (a, b) ∈ leaves ↔ (p, a, b) ∈ pairs
  numPaths : g.numPaths = (pairs.image Prod.fst).card
  len : g.len = pairs.card
  iter_nodup : g.iter.Nodup
  mem_iter : ∀ leaf, leaf ∈ g.iter ↔ leaf ∈ pairs

omit [Hashable P] in
/-- Collecting what was not seen yet repeats nothing and misses nothing. -/
theorem foldl_seen {L : Type} (path : L → P) (leaves : List L) (seen : List P) (nodup : seen.Nodup) :
    let all := leaves.foldl (fun seen leaf => if path leaf ∈ seen then seen else seen ++ [path leaf]) seen
    all.Nodup ∧ ∀ p, p ∈ all ↔ p ∈ seen ∨ p ∈ leaves.map path := by
  induction leaves generalizing seen with
  | nil => exact ⟨nodup, by simp⟩
  | cons leaf leaves ih =>
    rw [List.foldl_cons]
    split_ifs with old
    · obtain ⟨nodup', mem⟩ := ih seen nodup
      refine ⟨nodup', fun p => (mem p).trans ?_⟩
      rw [List.map_cons, List.mem_cons]
      constructor
      · exact fun found => found.imp_right .inr
      · rintro (found | rfl | found)
        exacts [.inl found, .inl old, .inr found]
    · have nodup' : (seen ++ [path leaf]).Nodup := by
        refine List.nodup_append.mpr ⟨nodup, List.nodup_singleton _, ?_⟩
        rintro p found _ same rfl
        exact old (List.mem_singleton.mp same ▸ found)
      obtain ⟨nodup', mem⟩ := ih _ nodup'
      refine ⟨nodup', fun p => (mem p).trans ?_⟩
      rw [List.map_cons, List.mem_cons, List.mem_append, List.mem_singleton, or_assoc]

/-- The paths counted are those of the leaves listed. -/
theorem numPaths_eq (wf : g.Wf) : g.numPaths = (g.iter.toFinset.image Prod.fst).card := by
  cases g with
  | flat set =>
    obtain ⟨nodup, mem⟩ := foldl_seen Prod.fst set.toList [] List.nodup_nil
    rw [numPaths, ← List.toFinset_card_of_nodup nodup]
    congr 1
    ext p
    rw [List.mem_toFinset, mem, Finset.mem_image]
    simp [iter]
  | byPath map len =>
    rw [numPaths, ← HashMap.length_keys, ← List.toFinset_card_of_nodup HashMap.nodup_keys]
    congr 1
    ext p
    simp only [List.mem_toFinset, HashMap.mem_keys, Finset.mem_image, iter, Prod.exists, exists_and_right,
      exists_eq_right, mem_keyedRows]
    constructor
    · intro kept
      obtain ⟨set, found⟩ := HashMap.mem_iff_isSome_getElem?.mp kept |> Option.isSome_iff_exists.mp
      obtain ⟨⟨a, b⟩, member⟩ := wf.2 p set found
      exact ⟨a, b, set, found, HashSet.mem_toList.mpr member⟩
    · rintro ⟨a, b, set, found, -⟩
      exact HashMap.mem_iff_isSome_getElem?.mpr (by rw [found]; rfl)

/-- A well-formed group agrees with the set of the leaves it contains. -/
theorem agrees_of_contains (wf : g.Wf) {pairs : Finset (P × A × B)}
    (contains : ∀ p a b, g.contains p a b = true ↔ (p, a, b) ∈ pairs) : Agrees g pairs := by
  have listed : ∀ leaf, leaf ∈ g.iter ↔ leaf ∈ pairs := fun leaf => mem_iter.trans (contains _ _ _)
  have same : g.iter.toFinset = pairs := Finset.ext fun leaf => List.mem_toFinset.trans (listed leaf)
  refine ⟨contains, fun p => ?_, fun p leaves found => ?_, ?_, ?_, nodup_iter, listed⟩
  · have spec := get_spec wf p
    cases found : g.get p with
    | none =>
      rw [found] at spec
      refine iff_of_true rfl fun a b member => ?_
      exact absurd ((contains p a b).mpr member) (by simp [spec a b])
    | some leaves =>
      rw [found] at spec
      obtain ⟨⟨a, b⟩, member⟩ := List.exists_mem_of_ne_nil leaves spec.1
      exact iff_of_false (by simp) fun none => none a b ((contains p a b).mp ((spec.2.2 a b).mp member))
  · have spec := get_spec wf p
    rw [found] at spec
    exact ⟨spec.2.1, fun a b => (spec.2.2 a b).trans (contains p a b)⟩
  · rw [numPaths_eq wf, same]
  · rw [len_eq wf, ← List.toFinset_card_of_nodup nodup_iter, same]

theorem Script.run_spec (script : Script P A B) :
    script.run.Wf ∧ ∀ p a b, script.run.contains p a b = true ↔ (p, a, b) ∈ script.pairs := by
  induction script with
  | new => exact ⟨wf_empty, by simp [run, pairs]⟩
  | insert before leaf ih =>
    have inserted := insert_spec leaf ih.1
    refine ⟨inserted.wf, fun p a b => (inserted.contains p a b).trans ?_⟩
    rw [pairs, Finset.mem_insert, ih.2]
  | merge before other ih ih' =>
    obtain ⟨wf, contains, -⟩ := merge_spec ih.1 ih'.1
    refine ⟨wf, fun p a b => (contains p a b).trans ?_⟩
    rw [pairs, Finset.mem_union, ih.2, ih'.2]

/-- After any operations a group is the set of the pairs inserted, and the next operation counts exactly what
is new to that set. -/
theorem run_refines_set (script : Script P A B) : Agrees script.run script.pairs ∧
    (∀ leaf, (script.run.insert leaf).2 = decide (leaf ∉ script.pairs)) ∧
    ∀ other : Script P A B, (script.run.merge other.run).2 = (other.pairs \ script.pairs).card := by
  obtain ⟨wf, contains⟩ := script.run_spec
  refine ⟨agrees_of_contains wf contains, fun leaf => ?_, fun other => ?_⟩
  · rw [(insert_spec leaf wf).added, Bool.eq_iff_iff, Bool.not_eq_true', decide_eq_true_eq, ← contains]
    exact Bool.eq_false_iff
  · obtain ⟨wf', contains'⟩ := other.run_spec
    obtain ⟨wfMerged, containsMerged, count⟩ := merge_spec wf wf'
    have merged : Agrees (script.run.merge other.run).1 (script.pairs ∪ other.pairs) :=
      agrees_of_contains wfMerged fun p a b => by
        rw [containsMerged, Finset.mem_union, contains, contains']
    rw [merged.len, (agrees_of_contains wf contains).len, ← Finset.union_sdiff_self_eq_union,
      Finset.card_union_of_disjoint Finset.disjoint_sdiff] at count
    omega

end PathGroup

end Ctadl.Index
