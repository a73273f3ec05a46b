import Ctadl.Index.Condition
import Ctadl.Index.LocalsTrie
import Ctadl.Datalog.LatticeRelation

/-! # A relation kept as a lattice on its condition

A row is a fact and the condition it holds under. Nearly every row is unconditional, and those live in a
store of facts; the others live beside it in a map with a condition at each leaf. A store reads as one
condition for each fact, `held`; between merges a fact may be in both halves, and the first one counts.
-/

namespace Ctadl.Index

open Std Datalog

variable {h : HybridContext} {K1 K2 P A B : Type} [DecidableEq K1] [Hashable K1] [DecidableEq K2] [Hashable K2]
  [DecidableEq P] [Hashable P] [DecidableEq A] [Hashable A] [DecidableEq B] [Hashable B]

/-- A condition is unconditional. -/
def CondOf.isAlways (c : CondOf h) : Bool := c.val.isAlways

theorem CondOf.isAlways_iff {c : CondOf h} : c.isAlways = true ↔ c = ⊤ := by
  change decide (c.val = .always) = true ↔ _
  rw [decide_eq_true_eq]
  exact ⟨fun eq => Subtype.ext eq, fun eq => congrArg Subtype.val eq⟩

/-- Whether a fact held under `held` already holds under `c`: joining `c` changes nothing. -/
def covers (held c : CondOf h) : Bool :=
  if held.isAlways then true
  else if c.isAlways then false
  else decide (held ⊔ c = held)

theorem covers_iff {held c : CondOf h} : covers held c = true ↔ c ≤ held := by
  unfold covers
  split_ifs with first second
  · obtain rfl := CondOf.isAlways_iff.mp first
    simp
  · obtain rfl := CondOf.isAlways_iff.mp second
    rw [top_le_iff, ← CondOf.isAlways_iff]
    simp [first]
  · rw [decide_eq_true_eq, sup_eq_left]

/-- The conditional leaves, by group and path. -/
abbrev CondLeaves (h : HybridContext) (K1 K2 P A B : Type) [DecidableEq K1] [Hashable K1] [DecidableEq K2]
    [Hashable K2] [DecidableEq P] [Hashable P] [DecidableEq A] [Hashable A] [DecidableEq B] [Hashable B] :=
  HashMap (K1 × K2) (HashMap P (HashMap (A × B) (CondOf h)))

namespace CondLeaves

def at' (m : CondLeaves h K1 K2 P A B) (f : Fact K1 K2 P A B) : Option (CondOf h) :=
  (m[f.1]?.bind (·[f.2.1]?)).bind (·[f.2.2]?)

/-- The map with the fact's leaf set. -/
def set (m : CondLeaves h K1 K2 P A B) (f : Fact K1 K2 P A B) (c : CondOf h) : CondLeaves h K1 K2 P A B :=
  let leaves := m.getD f.1 ∅
  m.insert f.1 (leaves.insert f.2.1 ((leaves.getD f.2.1 ∅).insert f.2.2 c))

/-- The map without the fact's leaf, and without the maps that leaves empty. -/
def remove (m : CondLeaves h K1 K2 P A B) (f : Fact K1 K2 P A B) : CondLeaves h K1 K2 P A B :=
  match m[f.1]? with
  | none => m
  | some leaves =>
    match leaves[f.2.1]? with
    | none => m
    | some abs =>
      let abs := abs.erase f.2.2
      if abs.isEmpty then
        let leaves := leaves.erase f.2.1
        if leaves.isEmpty then m.erase f.1 else m.insert f.1 leaves
      else m.insert f.1 (leaves.insert f.2.1 abs)

/-- A map, unless it is empty. -/
def nonempty {K V : Type} [BEq K] [Hashable K] (m : HashMap K V) : Option (HashMap K V) :=
  if m.isEmpty then none else some m

/-- Keeps the leaves `keep` has a condition for, under that condition. -/
def retain (m : CondLeaves h K1 K2 P A B) (keep : Fact K1 K2 P A B → CondOf h → Option (CondOf h)) :
    CondLeaves h K1 K2 P A B :=
  m.filterMap fun k leaves => nonempty <| leaves.filterMap fun p abs => nonempty <| abs.filterMap fun ab c =>
    keep (k, p, ab) c

/-- Every conditional row. -/
def rows (m : CondLeaves h K1 K2 P A B) : List (Fact K1 K2 P A B × CondOf h) :=
  (keyedRows m fun leaves => keyedRows leaves HashMap.toList).map fun row => ((row.1, row.2.1, row.2.2.1), row.2.2.2)

/-- Every group kept has a path, and every path a leaf. -/
def Full (m : CondLeaves h K1 K2 P A B) : Prop :=
  ∀ (k : K1 × K2) leaves, m[k]? = some leaves → leaves.isEmpty = false ∧
    ∀ (p : P) abs, leaves[p]? = some abs → abs.isEmpty = false

variable {m : CondLeaves h K1 K2 P A B} {f f' : Fact K1 K2 P A B} {c : CondOf h}

/-- An empty map has nothing to look up. -/
theorem getElem?_of_isEmpty {K V : Type} [BEq K] [LawfulBEq K] [Hashable K] {m : HashMap K V} {k : K}
    (empty : m.isEmpty = true) : m[k]? = none :=
  HashMap.getElem?_eq_none (HashMap.isEmpty_iff_forall_not_mem.mp empty k)

theorem at'_of_isEmpty (empty : m.isEmpty = true) : at' m f = none := by
  rw [at', getElem?_of_isEmpty empty]
  rfl

theorem at'_set : at' (set m f c) f' = if f' = f then some c else at' m f' := by
  obtain ⟨k, p, ab⟩ := f
  obtain ⟨k', p', ab'⟩ := f'
  by_cases group : k = k'
  · subst group
    by_cases path : p = p'
    · subst path
      by_cases leaf : ab = ab'
      · simp [at', set, leaf]
      · cases found : m[k]? with
        | none => simp [at', set, HashMap.getD_eq_getD_getElem?, found, leaf, Ne.symm leaf]
        | some leaves =>
          cases found' : leaves[p]? <;>
            simp [at', set, HashMap.getElem?_insert, HashMap.getD_eq_getD_getElem?, found, found', leaf, Ne.symm leaf]
    · cases found : m[k]? <;>
        simp [at', set, HashMap.getElem?_insert, HashMap.getD_eq_getD_getElem?, found, path, Ne.symm path]
  · simp [at', set, HashMap.getElem?_insert, group, Ne.symm group]

/-- A group with a path, and every path a leaf, replaces the one at a key. -/
theorem full_insert {k : K1 × K2} {leaves : HashMap P (HashMap (A × B) (CondOf h))} (full : Full m)
    (held : leaves.isEmpty = false) (paths : ∀ (p : P) abs, leaves[p]? = some abs → abs.isEmpty = false) :
    Full (m.insert k leaves) := by
  intro k' leaves' found
  by_cases group : k = k'
  · subst group
    obtain rfl := Option.some.inj (HashMap.getElem?_insert_self.symm.trans found)
    exact ⟨held, paths⟩
  · exact full k' leaves' (by simpa [HashMap.getElem?_insert, group] using found)

/-- The paths of the group at a key, when there is one. -/
theorem Full.paths {k : K1 × K2} {p : P} {abs} (full : Full m) (found : (m.getD k ∅)[p]? = some abs) :
    abs.isEmpty = false := by
  rw [HashMap.getD_eq_getD_getElem?] at found
  cases old : m[k]? with
  | none => simp [old] at found
  | some leaves => exact (full k leaves old).2 p abs (by simpa [old] using found)

theorem full_set (full : Full m) : Full (set m f c) := by
  refine full_insert full HashMap.isEmpty_insert fun p abs found => ?_
  by_cases path : f.2.1 = p
  · subst path
    obtain rfl := Option.some.inj (HashMap.getElem?_insert_self.symm.trans found)
    exact HashMap.isEmpty_insert
  · exact full.paths (k := f.1) (by simpa [HashMap.getElem?_insert, path] using found)

theorem nonempty_eq_some {K V : Type} [BEq K] [Hashable K] {m m' : HashMap K V} :
    nonempty m = some m' ↔ m.isEmpty = false ∧ m = m' := by
  unfold nonempty
  split_ifs with empty <;> simp [empty]

/-- What `nonempty` drops has nothing to look up. -/
theorem nonempty_bind {K V : Type} [BEq K] [LawfulBEq K] [Hashable K] (m : HashMap K V) (k : K) :
    (nonempty m).bind (·[k]?) = m[k]? := by
  unfold nonempty
  split_ifs with empty
  · rw [Option.bind_none, getElem?_of_isEmpty empty]
  · rfl

theorem at'_retain {keep : Fact K1 K2 P A B → CondOf h → Option (CondOf h)} :
    at' (retain m keep) f = (at' m f).bind (keep f) := by
  obtain ⟨k, p, ab⟩ := f
  unfold at' retain
  dsimp only
  rw [HashMap.getElem?_filterMap']
  cases m[k]? with
  | none => rfl
  | some leaves =>
    rw [Option.bind_some, Option.bind_some, nonempty_bind, HashMap.getElem?_filterMap']
    cases leaves[p]? with
    | none => rfl
    | some abs => rw [Option.bind_some, Option.bind_some, nonempty_bind, HashMap.getElem?_filterMap']

theorem full_retain {keep : Fact K1 K2 P A B → CondOf h → Option (CondOf h)} : Full (retain m keep) := by
  intro k leaves found
  rw [retain, HashMap.getElem?_filterMap'] at found
  obtain ⟨old, -, found⟩ := Option.bind_eq_some_iff.mp found
  obtain ⟨some, rfl⟩ := nonempty_eq_some.mp found
  refine ⟨some, fun p abs found' => ?_⟩
  rw [HashMap.getElem?_filterMap'] at found'
  obtain ⟨_, -, found'⟩ := Option.bind_eq_some_iff.mp found'
  obtain ⟨some', rfl⟩ := nonempty_eq_some.mp found'
  exact some'

/-- Erasing a key of a map that is then dropped if empty. -/
theorem getElem?_erase_of_isEmpty {K V : Type} [BEq K] [LawfulBEq K] [Hashable K] {m : HashMap K V} {k k' : K}
    (empty : (m.erase k).isEmpty = true) (other : k ≠ k') : m[k']? = none := by
  have gone : (m.erase k)[k']? = none := getElem?_of_isEmpty empty
  rwa [HashMap.getElem?_erase, if_neg (by simpa using other)] at gone

theorem at'_remove : at' (remove m f) f' = if f' = f then none else at' m f' := by
  obtain ⟨k, p, ab⟩ := f
  obtain ⟨k', p', ab'⟩ := f'
  have missing : at' m (k, p, ab) = none → at' m (k', p', ab') =
      if (k', p', ab') = (k, p, ab) then none else at' m (k', p', ab') := fun none => by
    split_ifs with same
    · rw [same, none]
    · rfl
  unfold remove
  dsimp only
  cases found : m[k]? with
  | none => exact missing (by simp [at', found])
  | some leaves =>
    dsimp only
    cases found' : leaves[p]? with
    | none => exact missing (by simp [at', found, found'])
    | some abs =>
      dsimp only
      by_cases group : k = k'
      · subst group
        by_cases path : p = p'
        · subst path
          have here : at' m (k, p, ab') = abs[ab']? := by simp [at', found, found']
          have leaf : (abs.erase ab)[ab']? = if (k, p, ab') = (k, p, ab) then none else at' m (k, p, ab') := by
            rw [HashMap.getElem?_erase, here]
            by_cases same : ab = ab'
            · simp [same]
            · simp [same, Ne.symm same]
          rw [← leaf]
          split_ifs with empty empty' <;> simp [at', getElem?_of_isEmpty, empty]
        · have here : at' m (k, p', ab') = leaves[p']?.bind (·[ab']?) := by simp [at', found]
          have other : ¬(k, p', ab') = (k, p, ab) := by simp [Ne.symm path]
          rw [if_neg other, here]
          split_ifs with empty empty'
          · rw [getElem?_erase_of_isEmpty empty' path]
            simp [at']
          · simp [at', HashMap.getElem?_erase, path]
          · simp [at', HashMap.getElem?_insert, path]
      · have other : ¬(k', p', ab') = (k, p, ab) := by simp [Ne.symm group]
        rw [if_neg other]
        split_ifs <;> simp [at', HashMap.getElem?_erase, HashMap.getElem?_insert, group]

theorem full_remove (full : Full m) : Full (remove m f) := by
  unfold remove
  cases found : m[f.1]? with
  | none => exact full
  | some leaves =>
    dsimp only
    cases found' : leaves[f.2.1]? with
    | none => exact full
    | some abs =>
      dsimp only
      have paths := (full f.1 leaves found).2
      split_ifs with empty empty'
      · intro k leaves' kept
        rw [HashMap.getElem?_erase] at kept
        split_ifs at kept
        exact full k leaves' kept
      · refine full_insert full (Bool.not_eq_true _ ▸ empty') fun p abs' kept => ?_
        rw [HashMap.getElem?_erase] at kept
        split_ifs at kept
        exact paths p abs' kept
      · refine full_insert full HashMap.isEmpty_insert fun p abs' kept => ?_
        rw [HashMap.getElem?_insert] at kept
        split_ifs at kept with path
        · obtain rfl := Option.some.inj kept
          exact Bool.not_eq_true _ ▸ empty
        · exact paths p abs' kept

theorem mem_rows : (f, c) ∈ rows m ↔ at' m f = some c := by
  obtain ⟨k, p, ab⟩ := f
  simp only [rows, List.mem_map, Prod.mk.injEq, at', Option.bind_eq_some_iff]
  constructor
  · rintro ⟨⟨k', p', ab', c'⟩, member, ⟨rfl, rfl, rfl⟩, rfl⟩
    obtain ⟨leaves, group, member⟩ := mem_keyedRows.mp member
    obtain ⟨abs, path, member⟩ := mem_keyedRows.mp member
    exact ⟨abs, ⟨leaves, group, path⟩, HashMap.mem_toList_iff_getElem?_eq_some.mp member⟩
  · rintro ⟨abs, ⟨leaves, group, path⟩, leaf⟩
    exact ⟨(k, p, ab, c), mem_keyedRows.mpr ⟨leaves, group, mem_keyedRows.mpr
      ⟨abs, path, HashMap.mem_toList_iff_getElem?_eq_some.mpr leaf⟩⟩, ⟨rfl, rfl, rfl⟩, rfl⟩

theorem nodup_rows : (rows m).Nodup := by
  refine List.Nodup.map ?_ (nodup_keyedRows fun _ leaves _ => nodup_keyedRows fun _ abs _ => ?_)
  · rintro ⟨k, p, ab, c⟩ ⟨k', p', ab', c'⟩ same
    simpa [and_assoc] using same
  · exact (nodup_keys_toList abs).of_map

/-- No two rows are of one fact. -/
theorem nodup_rows_fst : ((rows m).map Prod.fst).Nodup := by
  refine List.Nodup.map_on ?_ nodup_rows
  rintro ⟨f, c⟩ member ⟨_, c'⟩ member' rfl
  rw [mem_rows] at member member'
  rw [Option.some.inj (member.symm.trans member')]

/-- The facts of the conditional rows. -/
theorem mem_facts : f ∈ (rows m).map Prod.fst ↔ (at' m f).isSome = true := by
  rw [List.mem_map, Option.isSome_iff_exists]
  constructor
  · rintro ⟨⟨f, c⟩, member, rfl⟩
    exact ⟨c, mem_rows.mp member⟩
  · rintro ⟨c, found⟩
    exact ⟨(f, c), mem_rows.mpr found, rfl⟩

/-- Two maps with leaves for the same facts have as many rows. -/
theorem length_rows_congr (m' : CondLeaves h K1 K2 P A B) (same : ∀ f, (at' m' f).isSome = (at' m f).isSome) :
    (rows m').length = (rows m).length := by
  have length := length_eq_of_mem_iff (nodup_rows_fst (m := m)) (nodup_rows_fst (m := m'))
    fun f => by rw [mem_facts, mem_facts, same]
  simpa using length

theorem length_rows_set (fresh : at' m f = none) : (rows (set m f c)).length = (rows m).length + 1 := by
  have length := length_of_mem_iff (nodup_rows_fst (m := m)) (nodup_rows_fst (m := set m f c))
    (by simp [mem_facts, fresh] : f ∉ _) fun f' => by
      rw [mem_facts, mem_facts, at'_set]
      split_ifs with here <;> simp [here]
  simpa using length

theorem length_rows_remove {held : CondOf h} (found : at' m f = some held) :
    (rows (remove m f)).length + 1 = (rows m).length := by
  have length := length_of_mem_iff (nodup_rows_fst (m := remove m f)) (nodup_rows_fst (m := m))
    (by simp [mem_facts, at'_remove] : f ∉ _) fun f' => by
      rw [mem_facts, mem_facts, at'_remove]
      split_ifs with here <;> simp [here, found]
  simpa using length.symm

theorem length_rows_retain (keep : Fact K1 K2 P A B → CondOf h → Option (CondOf h)) :
    (rows (retain m keep)).length + ((rows m).filter fun row => (keep row.1 row.2).isNone).length =
      (rows m).length := by
  let stays := fun row : Fact K1 K2 P A B × CondOf h => (keep row.1 row.2).isSome
  have kept : (rows (retain m keep)).length = ((rows m).filter stays).length := by
    have nodup : (((rows m).filter stays).map Prod.fst).Nodup :=
      nodup_rows_fst.sublist (List.filter_sublist.map Prod.fst)
    have length := length_eq_of_mem_iff nodup (nodup_rows_fst (m := retain m keep)) fun f => by
      rw [mem_facts, at'_retain, List.mem_map]
      constructor
      · intro some
        obtain ⟨c', found⟩ := Option.isSome_iff_exists.mp some
        obtain ⟨c, leaf, keeps⟩ := Option.bind_eq_some_iff.mp found
        exact ⟨(f, c), List.mem_filter.mpr ⟨mem_rows.mpr leaf, by simp [stays, keeps]⟩, rfl⟩
      · rintro ⟨⟨f, c⟩, member, rfl⟩
        obtain ⟨member, keeps⟩ := List.mem_filter.mp member
        simpa [mem_rows.mp member] using keeps
    simpa using length
  have split := List.length_eq_length_filter_add (l := rows m) stays
  have gone : ∀ row : Fact K1 K2 P A B × CondOf h, (!stays row) = (keep row.1 row.2).isNone := fun row => by
    simp [stays]
  simp only [gone] at split
  omega

end CondLeaves

open CondLeaves (at' at'_of_isEmpty at'_remove at'_retain at'_set full_retain full_set length_rows_congr length_rows_retain mem_rows remove)

/-- The store. -/
structure CondTrie (h : HybridContext) (K1 K2 P A B : Type) [DecidableEq K1] [Hashable K1] [DecidableEq K2]
    [Hashable K2] [DecidableEq P] [Hashable P] [DecidableEq A] [Hashable A] [DecidableEq B] [Hashable B] where
  always : LocalsIndCommon K1 K2 P A B := {}
  cond : CondLeaves h K1 K2 P A B := ∅
  condLen : Nat := 0

namespace CondTrie

def len (s : CondTrie h K1 K2 P A B) : Nat := s.always.len + s.condLen

/-- The condition a fact holds under here, if any. -/
def condAt (s : CondTrie h K1 K2 P A B) (f : Fact K1 K2 P A B) : Option (CondOf h) :=
  if s.always.contains f then some ⊤
  else if s.cond.isEmpty then none
  else CondLeaves.at' s.cond f

/-- The existence test: the condition already held covers `c`. -/
def containsKey (s : CondTrie h K1 K2 P A B) (f : Fact K1 K2 P A B) (c : CondOf h) : Bool :=
  (s.condAt f).any (covers · c)

def removeCond (s : CondTrie h K1 K2 P A B) (f : Fact K1 K2 P A B) : CondTrie h K1 K2 P A B :=
  { s with cond := CondLeaves.remove s.cond f,
           condLen := if (CondLeaves.at' s.cond f).isSome then s.condLen - 1 else s.condLen }

/-- Joins `c` into the condition of the fact; whether this store's condition for it grew. -/
def insert (s : CondTrie h K1 K2 P A B) (f : Fact K1 K2 P A B) (c : CondOf h) : CondTrie h K1 K2 P A B × Bool :=
  if c.isAlways then
    -- A conditional row for the fact, if any, is dropped at the next merge.
    let inserted := s.always.insert f
    ({ s with always := inserted.1 }, inserted.2)
  else if s.always.contains f then (s, false)
  else match CondLeaves.at' s.cond f with
    | none => ({ s with cond := CondLeaves.set s.cond f c, condLen := s.condLen + 1 }, true)
    | some held =>
      let joined := held ⊔ c
      if joined = held then (s, false)
      else
        let s := { s with cond := CondLeaves.set s.cond f joined }
        if joined.isAlways then
          -- A join that spills moves the fact into the trie.
          ({ s.removeCond f with always := (s.always.insert f).1 }, true)
        else (s, true)

/-- Drops the conditional rows that `other` makes unconditional. -/
def clear (s other : CondTrie h K1 K2 P A B) : CondTrie h K1 K2 P A B :=
  if s.cond.isEmpty ∨ other.always.len = 0 then s
  else
    let gone := fun f : Fact K1 K2 P A B => other.always.contains f
    { s with cond := CondLeaves.retain s.cond fun f c => if gone f then none else some c,
             condLen := s.condLen - ((CondLeaves.rows s.cond).filter fun row => gone row.1).length }

/-- Joins `other` into `s`. -/
def absorb (s other : CondTrie h K1 K2 P A B) : CondTrie h K1 K2 P A B :=
  let cleared := s.clear other
  (CondLeaves.rows other.cond).foldl (fun s row => (s.insert row.1 row.2).1)
    { cleared with always := cleared.always.absorb other.always }

/-- What becomes of a conditional row of `s` against `total`: nothing where it is covered, else its join. -/
def refined (s total : CondTrie h K1 K2 P A B) (f : Fact K1 K2 P A B) (c : CondOf h) : Option (CondOf h) :=
  match if s.always.contains f then some ⊤ else total.condAt f with
  | some held => if covers held c then none else some (c ⊔ held)
  | none => some c

/-- The row that is left of a conditional row of `s`: a join that spills leaves none. -/
def kept (s total : CondTrie h K1 K2 P A B) (f : Fact K1 K2 P A B) (c : CondOf h) : Option (CondOf h) :=
  (s.refined total f c).filter (!·.isAlways)

/-- The conditional rows whose join spills. -/
def spilled (s total : CondTrie h K1 K2 P A B) : List (Fact K1 K2 P A B × CondOf h) :=
  (CondLeaves.rows s.cond).filter fun row => (s.refined total row.1 row.2).any (·.isAlways)

/-- Makes `s`, the rows found this iteration, the next `delta` against `total`. -/
def refine (s total : CondTrie h K1 K2 P A B) : CondTrie h K1 K2 P A B :=
  if s.cond.isEmpty then s
  else
    let removed := (CondLeaves.rows s.cond).filter fun row => (s.kept total row.1 row.2).isNone
    { always := (s.spilled total).foldl (fun always row => (always.insert row.1).1) s.always,
      cond := CondLeaves.retain s.cond (s.kept total),
      condLen := s.condLen - removed.length }

/-- Every row. -/
def rows (s : CondTrie h K1 K2 P A B) : List (Fact K1 K2 P A B × CondOf h) :=
  s.always.rows.map (·, ⊤) ++ CondLeaves.rows s.cond

/-- The rows of a group; `none` if it has none. -/
def group (s : CondTrie h K1 K2 P A B) (k : K1 × K2) : Option (List ((P × A × B) × CondOf h)) :=
  let always := s.always.fwd[k]?
  let cond := if s.cond.isEmpty then none else s.cond[k]?
  if always.isNone && cond.isNone then none
  else some ((always.toList.flatMap fun g => g.iter.map (·, ⊤)) ++
    cond.toList.flatMap fun leaves => (keyedRows leaves HashMap.toList).map fun row => ((row.1, row.2.1), row.2.2))

/-- The rows at a path of a group; `none` if there are none. -/
def get (s : CondTrie h K1 K2 P A B) (k : K1 × K2) (p : P) : Option (List ((A × B) × CondOf h)) :=
  let always := s.always.fwd[k]?.bind (·.get p)
  let cond := if s.cond.isEmpty then none else s.cond[k]?.bind (·[p]?)
  if always.isNone && cond.isNone then none
  else some ((always.toList.flatMap fun leaves => leaves.map (·, ⊤)) ++ cond.toList.flatMap HashMap.toList)

/-- The condition a fact holds under, with `⊥` for none. -/
def held (s : CondTrie h K1 K2 P A B) (f : Fact K1 K2 P A B) : WithBot (CondOf h) :=
  (s.condAt f).elim ⊥ (↑)

/-- What holds of a store at any time: the count of the conditional rows, none of which is unconditional. -/
structure Wf (s : CondTrie h K1 K2 P A B) : Prop where
  always : s.always.Wf
  full : CondLeaves.Full s.cond
  conditional : ∀ (f : Fact K1 K2 P A B) c, CondLeaves.at' s.cond f = some c → c ≠ ⊤
  len : s.condLen = (CondLeaves.rows s.cond).length

/-- What holds of a store after a merge: no fact is in both halves. -/
structure Exact (s : CondTrie h K1 K2 P A B) : Prop extends s.Wf where
  apart : ∀ f : Fact K1 K2 P A B, s.always.contains f = true → CondLeaves.at' s.cond f = none

variable {s total other : CondTrie h K1 K2 P A B} {f f' : Fact K1 K2 P A B} {c : CondOf h}

theorem condAt_eq : s.condAt f = if s.always.contains f then some ⊤ else at' s.cond f := by
  unfold condAt
  split_ifs with always empty
  · rfl
  · rw [at'_of_isEmpty empty]
  · rfl

theorem held_eq : s.held f = if s.always.contains f then ⊤
    else (at' s.cond f).elim ⊥ (↑) := by
  rw [held, condAt_eq]
  split_ifs <;> rfl

theorem held_eq_coe : s.held f = c ↔ s.condAt f = some c := by
  unfold held
  cases s.condAt f <;> simp

/-- Only a fact of the trie holds unconditionally. -/
theorem Wf.held_eq_top (wf : s.Wf) : s.held f = ⊤ ↔ s.always.contains f = true := by
  rw [← WithBot.coe_top, held_eq_coe, condAt_eq]
  split_ifs with always
  · simp [always]
  · simp only [always, Bool.false_eq_true, iff_false]
    exact fun found => wf.conditional f ⊤ found rfl

theorem containsKey_iff : s.containsKey f c = true ↔ (c : WithBot (CondOf h)) ≤ s.held f := by
  unfold containsKey held
  cases s.condAt f with
  | none => simp
  | some held => simp [covers_iff]

theorem wf_empty : ({} : CondTrie h K1 K2 P A B).Wf := by
  refine ⟨LocalsIndCommon.wf_empty, ?_, ?_, ?_⟩
  · simp [CondLeaves.Full]
  · simp [at']
  · simp [CondLeaves.rows, keyedRows]

theorem exact_empty : ({} : CondTrie h K1 K2 P A B).Exact := ⟨wf_empty, by simp⟩

@[simp] theorem held_empty : ({} : CondTrie h K1 K2 P A B).held f = ⊥ := by
  simp [held_eq, at']

/-- The store with a row added to its trie. -/
theorem held_always (wf : s.Wf) {cond : CondLeaves h K1 K2 P A B} {condLen : Nat} :
    (⟨(s.always.insert f).1, cond, condLen⟩ : CondTrie h K1 K2 P A B).held f' =
      if f' = f then ⊤ else (⟨s.always, cond, condLen⟩ : CondTrie h K1 K2 P A B).held f' := by
  have contains := (LocalsIndCommon.insert_spec (f := f) wf.always).2.2 f'
  rw [held_eq, held_eq]
  dsimp only
  by_cases here : f' = f
  · simp [here, (LocalsIndCommon.insert_spec (f := f) wf.always).2.2]
  · have same : (s.always.insert f).1.contains f' = s.always.contains f' := by
      rw [Bool.eq_iff_iff, contains]
      simp [here]
    rw [same, if_neg here]

/-- The store with a leaf of a fact that is not in its trie set. -/
theorem held_set {condLen : Nat} (absent : s.always.contains f = false) :
    (⟨s.always, CondLeaves.set s.cond f c, condLen⟩ : CondTrie h K1 K2 P A B).held f' =
      if f' = f then (c : WithBot (CondOf h)) else s.held f' := by
  rw [held_eq, held_eq]
  dsimp only
  rw [at'_set]
  by_cases here : f' = f
  · simp [here, absent]
  · simp [here]

theorem Wf.set (wf : s.Wf) (bounded : c ≠ ⊤) : (⟨s.always, CondLeaves.set s.cond f c,
    if (at' s.cond f).isSome then s.condLen else s.condLen + 1⟩ : CondTrie h K1 K2 P A B).Wf := by
  refine ⟨wf.always, full_set wf.full, fun f' c' found => ?_, ?_⟩
  · rw [at'_set] at found
    split_ifs at found
    · exact Option.some.inj found ▸ bounded
    · exact wf.conditional f' c' found
  · dsimp only
    cases leaf : at' s.cond f with
    | none => simp [CondLeaves.length_rows_set leaf, wf.len]
    | some old =>
      have same := length_rows_congr (CondLeaves.set s.cond f c) (m := s.cond) fun f' => by
        rw [at'_set]
        split_ifs with here <;> simp [here, leaf]
      simp [same, wf.len]

/-- A fact whose leaf is dropped as it joins the trie. -/
theorem Wf.spill (joined : CondOf h) (wf : s.Wf) {old : CondOf h} (leaf : at' s.cond f = some old) :
    (⟨(s.always.insert f).1, remove (CondLeaves.set s.cond f joined) f, s.condLen - 1⟩ :
      CondTrie h K1 K2 P A B).Wf := by
  refine ⟨(LocalsIndCommon.insert_spec wf.always).1, CondLeaves.full_remove (full_set wf.full),
    fun f' c' found => ?_, ?_⟩
  · rw [at'_remove, at'_set] at found
    split_ifs at found
    exact wf.conditional f' c' found
  · have now : at' (CondLeaves.set s.cond f joined) f = some joined := by simp [at'_set]
    have removed := CondLeaves.length_rows_remove now
    have same := length_rows_congr (CondLeaves.set s.cond f joined) (m := s.cond) fun f' => by
      rw [at'_set]
      split_ifs with here <;> simp [here, leaf]
    have len := wf.len
    dsimp only
    omega

/-- What an insertion does: it joins the condition into what the fact holds under, and moves no other. -/
theorem insert_spec (wf : s.Wf) : (s.insert f c).1.Wf ∧
    (∀ f', (s.insert f c).1.held f' = if f' = f then s.held f ⊔ (c : WithBot (CondOf h)) else s.held f') ∧
    ((s.insert f c).2 = true ↔ ¬(c : WithBot (CondOf h)) ≤ s.held f) ∧
    (s.Exact → c ≠ ⊤ → (s.insert f c).1.Exact) := by
  have keeps : (c : WithBot (CondOf h)) ≤ s.held f → ∀ f', s.held f' =
      if f' = f then s.held f ⊔ (c : WithBot (CondOf h)) else s.held f' := fun below f' => by
    split_ifs with here
    · rw [here, sup_eq_left.mpr below]
    · rfl
  obtain ⟨added, fresh, contains⟩ := LocalsIndCommon.insert_spec (f := f) wf.always
  unfold insert
  split_ifs with unconditional always
  · obtain rfl := CondOf.isAlways_iff.mp unconditional
    refine ⟨⟨added, wf.full, wf.conditional, wf.len⟩, fun f' => ?_, ?_, fun _ other => absurd rfl other⟩
    · rw [held_always wf]
      split_ifs
      · exact (sup_eq_right.mpr le_top).symm
      · rfl
    · dsimp only
      rw [fresh, WithBot.coe_top, top_le_iff, wf.held_eq_top]
      simp
  · have below : (c : WithBot (CondOf h)) ≤ s.held f := by
      rw [wf.held_eq_top.mpr always]
      exact le_top
    exact ⟨wf, keeps below, by simpa using below, fun exact _ => exact⟩
  · have absent : s.always.contains f = false := Bool.not_eq_true _ ▸ always
    have bounded : c ≠ ⊤ := fun top => unconditional (CondOf.isAlways_iff.mpr top)
    -- a leaf is set only for a fact that is not in the trie
    have apart : s.Exact → ∀ c' f', s.always.contains f' = true →
        at' (CondLeaves.set s.cond f c') f' = none := fun exact c' f' inside => by
      have other : f' ≠ f := fun same => by simp [same, absent] at inside
      rw [at'_set, if_neg other]
      exact exact.apart f' inside
    cases leaf : at' s.cond f with
    | none =>
      have nothing : s.held f = ⊥ := by rw [held_eq, absent, leaf]; rfl
      have wf' := wf.set (f := f) bounded
      simp only [leaf, Option.isSome_none, Bool.false_eq_true, if_false] at wf'
      refine ⟨wf', fun f' => ?_, by simp [nothing], fun exact _ => ⟨wf', apart exact c⟩⟩
      rw [held_set absent, nothing, bot_sup_eq]
    | some old =>
      have now : s.held f = old := by rw [held_eq, absent, leaf]; rfl
      dsimp only
      rw [now, ← WithBot.coe_sup, WithBot.coe_le_coe]
      split_ifs with same spilled
      · rw [sup_eq_left] at same
        refine ⟨wf, ?_, by simpa using same, fun exact _ => exact⟩
        rw [WithBot.coe_sup, ← now]
        exact keeps (now ▸ WithBot.coe_le_coe.mpr same)
      · have wf' := wf.spill (old ⊔ c) leaf
        have count : (⟨s.always, CondLeaves.set s.cond f (old ⊔ c), s.condLen⟩ : CondTrie h K1 K2 P A B).removeCond f =
            ⟨s.always, remove (CondLeaves.set s.cond f (old ⊔ c)) f, s.condLen - 1⟩ := by
          simp [removeCond, at'_set]
        rw [count]
        refine ⟨wf', fun f' => ?_, by simpa [sup_eq_left] using same, fun exact _ => ⟨wf', fun f' inside => ?_⟩⟩
        · rw [CondOf.isAlways_iff.mp spilled, held_eq, held_eq]
          dsimp only
          rw [at'_remove, at'_set]
          by_cases here : f' = f
          · simp [here, (contains f).mpr (.inl rfl)]
          · have kept : (s.always.insert f).1.contains f' = s.always.contains f' := by
              rw [Bool.eq_iff_iff, contains]
              simp [here]
            simp [here, kept]
        · dsimp only
          rw [at'_remove]
          split_ifs with here
          · rfl
          · exact apart exact _ f' (((contains f').mp inside).resolve_left here)
      · have wf' := wf.set (f := f) (c := old ⊔ c) fun top => spilled (CondOf.isAlways_iff.mpr top)
        simp only [leaf, Option.isSome_some, if_true] at wf'
        refine ⟨wf', fun f' => held_set absent, by simpa [sup_eq_left] using same,
          fun exact _ => ⟨wf', apart exact _⟩⟩

/-- The rows of the map as joins. -/
theorem joined_leaves {m : CondLeaves h K1 K2 P A B} : joined (CondLeaves.rows m) f = (at' m f).elim ⊥ (↑) := by
  refine LE.le.antisymm ?_ ?_
  · refine joined_le_iff.mpr ?_
    rintro ⟨f, c⟩ member rfl
    rw [mem_rows.mp member]
    exact le_rfl
  · cases found : at' m f with
    | none => exact bot_le
    | some c => exact le_joined (mem_rows.mpr found)

/-- Rows inserted one after another are joined in. -/
theorem insertAll_spec (rows : List (Fact K1 K2 P A B × CondOf h)) (wf : s.Wf) :
    (rows.foldl (fun s row => (s.insert row.1 row.2).1) s).Wf ∧
    (∀ f, (rows.foldl (fun s row => (s.insert row.1 row.2).1) s).held f = s.held f ⊔ joined rows f) ∧
    (s.Exact → (∀ row ∈ rows, row.2 ≠ ⊤) → (rows.foldl (fun s row => (s.insert row.1 row.2).1) s).Exact) := by
  induction rows generalizing s with
  | nil => exact ⟨wf, by simp, fun exact _ => exact⟩
  | cons row rows ih =>
    obtain ⟨wf', held, -, exact⟩ := insert_spec (f := row.1) (c := row.2) wf
    obtain ⟨done, later, exact'⟩ := ih wf'
    refine ⟨done, fun f => (later f).trans ?_, fun now all => ?_⟩
    · rw [held, joined_cons]
      by_cases here : row.1 = f
      · subst here
        simp [sup_assoc]
      · simp [here, Ne.symm here]
    · obtain ⟨this, others⟩ := List.forall_mem_cons.mp all
      exact exact' (exact now this) others

theorem clear_always : (s.clear other).always = s.always := by
  unfold clear
  split_ifs <;> rfl

theorem at'_clear (exact' : other.Exact) :
    at' (s.clear other).cond f = if other.always.contains f then none else at' s.cond f := by
  unfold clear
  split_ifs with skip goes goes
  · rcases skip with empty | none
    · exact at'_of_isEmpty empty
    · have member := LocalsIndCommon.mem_rows.mpr goes
      rw [exact'.always.len, List.length_eq_zero_iff] at none
      simp [none] at member
  · rfl
  · dsimp only
    rw [at'_retain]
    cases at' s.cond f <;> simp [goes]
  · dsimp only
    rw [at'_retain]
    cases at' s.cond f <;> simp [goes]

theorem Wf.clear (other : CondTrie h K1 K2 P A B) (wf : s.Wf) : (s.clear other).Wf := by
  unfold CondTrie.clear
  split_ifs with skip
  · exact wf
  · refine ⟨wf.always, ?_, fun f c found => ?_, ?_⟩
    · dsimp only
      exact full_retain
    · rw [at'_retain] at found
      obtain ⟨c', old, keeps⟩ := Option.bind_eq_some_iff.mp found
      split_ifs at keeps
      exact Option.some.inj keeps ▸ wf.conditional f c' old
    · have count := length_rows_retain (m := s.cond)
        fun f c => if other.always.contains f then none else some c
      have same : (fun row : Fact K1 K2 P A B × CondOf h =>
          (if other.always.contains row.1 then none else some row.2).isNone) = fun row => other.always.contains row.1 :=
        funext fun row => by split_ifs with goes <;> simp [goes]
      rw [same] at count
      have len := wf.len
      dsimp only
      omega

/-- A merge joins the two stores. -/
theorem absorb_spec (exact : s.Exact) (exact' : other.Exact) :
    (s.absorb other).Exact ∧ ∀ f, (s.absorb other).held f = s.held f ⊔ other.held f := by
  have cleared := exact.toWf.clear other
  obtain ⟨union, contains⟩ := LocalsIndCommon.absorb_spec cleared.always exact'.always
  have merged : (⟨(s.clear other).always.absorb other.always, (s.clear other).cond, (s.clear other).condLen⟩ :
      CondTrie h K1 K2 P A B).Exact := by
    refine ⟨⟨union, cleared.full, cleared.conditional, cleared.len⟩, fun f inside => ?_⟩
    dsimp only
    rw [at'_clear exact']
    split_ifs with goes
    · rfl
    · exact exact.apart f (clear_always (s := s) ▸ ((contains f).mp inside).resolve_right goes)
  obtain ⟨-, held, done⟩ := insertAll_spec (CondLeaves.rows other.cond) merged.toWf
  have bounded : ∀ row ∈ CondLeaves.rows other.cond, row.2 ≠ ⊤ := fun row member =>
    exact'.conditional row.1 row.2 (mem_rows.mp member)
  refine ⟨done merged bounded, fun f => (held f).trans ?_⟩
  rw [joined_leaves, held_eq (s := other)]
  cases goes : other.always.contains f with
  | true =>
    have inside : ((s.clear other).always.absorb other.always).contains f = true := (contains f).mpr (.inr goes)
    rw [held_eq, if_pos inside]
    simp
  | false =>
    have same : ((s.clear other).always.absorb other.always).contains f = s.always.contains f := by
      rw [Bool.eq_iff_iff, contains, clear_always]
      simp [goes]
    rw [held_eq, held_eq]
    dsimp only
    rw [same, at'_clear exact']
    simp [goes]

/-- A conditional row is dropped where it is covered. -/
theorem refined_none (covered : s.always.contains f = true ∨ (c : WithBot (CondOf h)) ≤ total.held f) :
    s.refined total f c = none := by
  unfold refined
  cases inside : s.always.contains f with
  | true => simp [covers_iff]
  | false =>
    have below : (c : WithBot (CondOf h)) ≤ total.held f := covered.resolve_left (by simp [inside])
    unfold held at below
    simp only [Bool.false_eq_true, if_false]
    cases found : total.condAt f with
    | none => simp [found] at below
    | some old =>
      rw [found, Option.elim_some, WithBot.coe_le_coe, ← covers_iff] at below
      simp [below]

/-- Any other one is joined with what `total` holds. -/
theorem refined_some (outside : s.always.contains f = false) (new : ¬(c : WithBot (CondOf h)) ≤ total.held f) :
    ∃ v, s.refined total f c = some v ∧ (v : WithBot (CondOf h)) = (c : WithBot (CondOf h)) ⊔ total.held f := by
  unfold refined
  unfold held at new ⊢
  simp only [outside, Bool.false_eq_true, if_false]
  cases found : total.condAt f with
  | none => exact ⟨c, rfl, by simp⟩
  | some old =>
    rw [found, Option.elim_some, WithBot.coe_le_coe, ← covers_iff] at new
    exact ⟨c ⊔ old, by simp [new], rfl⟩

/-- The facts whose join spills, each added to the trie. -/
theorem addAll_spec (rows : List (Fact K1 K2 P A B × CondOf h)) {always : LocalsIndCommon K1 K2 P A B} (wf : always.Wf) :
    (rows.foldl (fun always row => (always.insert row.1).1) always).Wf ∧ ∀ f,
      (rows.foldl (fun always row => (always.insert row.1).1) always).contains f = true ↔
        always.contains f = true ∨ ∃ c, (f, c) ∈ rows := by
  induction rows generalizing always with
  | nil => exact ⟨wf, by simp⟩
  | cons row rows ih =>
    obtain ⟨wf', -, contains⟩ := LocalsIndCommon.insert_spec (f := row.1) wf
    obtain ⟨done, later⟩ := ih wf'
    refine ⟨done, fun f => (later f).trans ?_⟩
    rw [contains]
    constructor
    · rintro ((rfl | old) | ⟨c, member⟩)
      · exact .inr ⟨row.2, List.mem_cons_self⟩
      · exact .inl old
      · exact .inr ⟨c, List.mem_cons_of_mem row member⟩
    · rintro (old | ⟨c, member⟩)
      · exact .inl (.inr old)
      · rcases List.mem_cons.mp member with same | member
        · exact .inl (.inl (congrArg Prod.fst same))
        · exact .inr ⟨c, member⟩

theorem kept_eq_some {v : CondOf h} : s.kept total f c = some v ↔ s.refined total f c = some v ∧ v ≠ ⊤ := by
  simp [kept, Option.filter_eq_some_iff, CondOf.isAlways_iff, ← Bool.not_eq_true]

theorem mem_spilled : (f, c) ∈ s.spilled total ↔ at' s.cond f = some c ∧ s.refined total f c = some ⊤ := by
  simp only [spilled, List.mem_filter, mem_rows, Option.any_eq_true, CondOf.isAlways_iff]
  exact and_congr_right fun _ => ⟨fun ⟨_, found, top⟩ => top ▸ found, fun found => ⟨⊤, found, rfl⟩⟩

theorem refine_exact (wf : s.Wf) : (s.refine total).Exact := by
  unfold refine
  split_ifs with empty
  · exact ⟨wf, fun f _ => at'_of_isEmpty empty⟩
  · obtain ⟨added, contains⟩ := addAll_spec (s.spilled total) wf.always
    refine ⟨⟨added, ?_, fun f v found => ?_, ?_⟩, fun f inside => ?_⟩
    · dsimp only
      exact full_retain
    · rw [at'_retain] at found
      obtain ⟨c, -, found⟩ := Option.bind_eq_some_iff.mp found
      exact (kept_eq_some.mp found).2
    · have count := length_rows_retain (m := s.cond) (s.kept total)
      have len := wf.len
      dsimp only
      omega
    · dsimp only
      rw [at'_retain, Option.bind_eq_none_iff]
      intro c leaf
      cases found : s.kept total f c with
      | none => rfl
      | some v =>
        obtain ⟨value, bounded⟩ := kept_eq_some.mp found
        rcases (contains f).mp inside with old | ⟨c', member⟩
        · simp [refined_none (.inl old)] at value
        · obtain ⟨leaf', top⟩ := mem_spilled.mp member
          obtain rfl := Option.some.inj (leaf.symm.trans leaf')
          exact absurd (Option.some.inj (value.symm.trans top)) bounded

/-- A fact outside the trie holds under what is left of its conditional row. -/
theorem held_refine_of_outside (wf : s.Wf) (outside : s.always.contains f = false) :
    (s.refine total).held f = ((at' s.cond f).bind (s.refined total f)).elim ⊥ (↑) := by
  unfold refine
  split_ifs with empty
  · rw [held_eq, outside, at'_of_isEmpty empty]
    rfl
  · have contains := (addAll_spec (s.spilled total) wf.always).2 f
    simp only [outside, Bool.false_eq_true, false_or, mem_spilled] at contains
    rw [held_eq]
    dsimp only
    rw [at'_retain]
    cases leaf : at' s.cond f with
    | none => simp [contains, leaf]
    | some c =>
      simp only [leaf, Option.some.injEq] at contains
      rw [Option.bind_some, Option.bind_some]
      cases value : s.refined total f c with
      | none => simp [contains, kept, value]
      | some v =>
        by_cases top : v = ⊤
        · simp [contains, value, top]
        · simp [contains, value, top, kept_eq_some.mpr ⟨value, top⟩]

/-- What becomes of the rows found this iteration against `total`: a fact that is covered is dropped, and any
other one holds under its join with what `total` holds. -/
theorem held_refine (wf : s.Wf) :
    (s.held f ≤ total.held f → s.held f ≠ ⊤ → (s.refine total).held f = ⊥) ∧
    (¬s.held f ≤ total.held f → (s.refine total).held f = s.held f ⊔ total.held f) := by
  cases inside : s.always.contains f with
  | true =>
    have top : s.held f = ⊤ := wf.held_eq_top.mpr inside
    refine ⟨fun _ other => absurd top other, fun _ => ?_⟩
    rw [top, top_sup_eq, (refine_exact wf).toWf.held_eq_top]
    unfold refine
    split_ifs
    · exact inside
    · exact ((addAll_spec _ wf.always).2 f).mpr (.inl inside)
  | false =>
    have now : s.held f = (at' s.cond f).elim ⊥ (↑) := by rw [held_eq, inside]; rfl
    rw [held_refine_of_outside wf inside, now]
    cases leaf : at' s.cond f with
    | none => simp
    | some c =>
      rw [Option.elim_some, Option.bind_some]
      constructor
      · intro covered _
        rw [refined_none (.inr covered)]
        rfl
      · intro new
        obtain ⟨v, value, join⟩ := refined_some inside new
        rw [value, ← join]
        rfl

end CondTrie

end Ctadl.Index
