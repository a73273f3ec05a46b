import Ctadl.Trie.Pointwise

/-! # The order of tries

A trie is a subset of another if its map is included in the other's. The comparison walks the children,
so it takes an empty child for a sequence: it is inclusion exactly where no empty trie has been wrapped,
and there `partialCmp` is the order that inclusion gives. With it every operation that remains acts on
the map as it is documented to.
-/

namespace Ctadl.Trie

open Collections Function Interner

variable {T V : Type} [LinearOrder T] [DecidableEq V] {hash : Node T V → ℕ} {P : Prop}
  {st st' : Interner T V} {trie other a b c : ℕ} {item : T}

namespace Interner

/-- All sequences are present in the other trie with equal values. -/
def isSubsetFrom (st : Interner T V) : ℕ → ℕ → ℕ → Bool
  | 0, _, _ => false
  | fuel + 1, trie, other =>
    if trie = other then true
    else if (st.node trie).value.isSome && (st.node other).value ≠ (st.node trie).value then false
    else
      (st.node trie).children.entries.all fun (item, child) =>
        ((st.node other).children.get item).any fun otherChild => isSubsetFrom st fuel child otherChild

def isSubset (st : Interner T V) (trie other : ℕ) : Bool := st.isSubsetFrom (trie + 1) trie other

def partialCmp (st : Interner T V) (trie other : ℕ) : Option Ordering :=
  if trie = other then some .eq
  else if st.isSubset trie other then some .lt
  else if st.isSubset other trie then some .gt
  else none

/-- The map of a trie is included in the map of another. -/
def Included (st : Interner T V) (trie other : ℕ) : Prop :=
  ∀ k v, st.get trie k = some v → st.get other k = some v

theorem isSubsetFrom_iff (good : st.Good hash True) {fuel : ℕ} (has : st.Has trie) (hasOther : st.Has other)
    (lt : trie < fuel) : st.isSubsetFrom fuel trie other = true ↔ st.Included trie other := by
  induction fuel generalizing trie other with
  | zero => exact absurd lt (Nat.not_lt_zero _)
  | succ fuel ih =>
    rw [isSubsetFrom]
    split_ifs with same value
    · exact iff_of_true rfl fun k v isVal => same ▸ isVal
    · refine iff_of_false id fun included => ?_
      rw [Bool.and_eq_true, decide_eq_true_eq] at value
      obtain ⟨v, isVal⟩ := Option.isSome_iff_exists.mp value.1
      exact value.2 ((included [] v isVal).trans isVal.symm)
    · rw [List.all_eq_true]
      constructor
      · intro children k v isVal
        cases k with
        | nil =>
          by_contra differs
          refine value (Bool.and_eq_true_iff.mpr ⟨Option.isSome_iff_exists.mpr ⟨v, isVal⟩, decide_eq_true ?_⟩)
          exact fun equal => differs (equal.trans isVal)
        | cons item k =>
          rw [get_cons] at isVal ⊢
          obtain ⟨child, found, isVal⟩ := Option.bind_eq_some_iff.mp isVal
          obtain ⟨otherChild, found', below⟩ :=
            (Option.any_eq_true _ _).mp (children (item, child) (SortedMap.mem_entries.mpr found))
          have included := (ih (good.sound has item child found).1 (good.sound hasOther item otherChild found').1
            (by have := good.below trie has item child found; omega)).mp below
          rw [found', Option.bind_some]
          exact included k v isVal
      · rintro included ⟨item, child⟩ mem
        have found := SortedMap.mem_entries.mp mem
        obtain ⟨hasChild, clean⟩ := good.sound has item child found
        obtain ⟨sequence, value, isVal⟩ := good.exists_get hasChild (clean trivial)
        have through (k : List T) (v : V) (isVal : st.get child k = some v) :
            ((st.node other).children.get item).bind (fun d => st.get d k) = some v := by
          have inOther := included (item :: k) v (by rw [get_cons, found, Option.bind_some, isVal])
          rwa [get_cons] at inOther
        obtain ⟨otherChild, found', -⟩ := Option.bind_eq_some_iff.mp (through sequence value isVal)
        refine (Option.any_eq_true _ _).mpr ⟨otherChild, found', ?_⟩
        refine (ih hasChild (good.sound hasOther item otherChild found').1
          (by have := good.below trie has item child found; omega)).mpr fun k v isVal => ?_
        have below := through k v isVal
        rwa [found', Option.bind_some] at below

theorem isSubset_iff (good : st.Good hash True) (has : st.Has trie) (hasOther : st.Has other) :
    st.isSubset trie other = true ↔ st.Included trie other :=
  isSubsetFrom_iff good has hasOther (Nat.lt_succ_self _)

theorem Good.eq_of_included (good : st.Good hash True) (has : st.Has trie) (hasOther : st.Has other)
    (first : st.Included trie other) (second : st.Included other trie) : trie = other := by
  apply good.eq_of_get has hasOther
  intro k
  apply Option.ext
  exact fun v => ⟨first k v, second k v⟩

/-- A trie whose one child is empty is no subset of the empty trie. -/
theorem isSubset_isEmpty {child : ℕ} (found : (st.node trie).children.get item = some child)
    (empty : st.isEmpty other = true) : st.isSubset trie other = false := by
  obtain ⟨children, -⟩ := isEmpty_iff.mp empty
  have differs : trie ≠ other := by
    rintro rfl
    exact Option.some_ne_none child (found.symm.trans (children item))
  rw [isSubset, isSubsetFrom, if_neg differs]
  split_ifs
  · rfl
  · rw [List.all_eq_false]
    refine ⟨(item, child), SortedMap.mem_entries.mpr found, ?_⟩
    simp [children]

end Interner

namespace Session

variable {session session' : Session T V} {op : Op T V} {ops : List (Op T V)}

/-- The operations on the tries of a session act on their maps, and tries are ordered by inclusion. -/
structure Pointwise (hash : Node T V → ℕ) (session : Session T V) : Prop where
  getSubtrie_some : ∀ trie ∈ session.tries, ∀ sequence c, session.interner.getSubtrie trie sequence = some c →
    ∀ k, session.interner.get c k = session.interner.get trie (sequence ++ k)
  getSubtrie_none : ∀ trie ∈ session.tries, ∀ sequence, session.interner.getSubtrie trie sequence = none ↔
    sequence ≠ [] ∧ ∀ k, session.interner.get trie (sequence ++ k) = none
  removePrefix : ∀ trie ∈ session.tries, ∀ sequence, ∃ st' result modified,
    session.interner.removePrefix hash trie sequence = (st', result, modified) ∧
      ∀ k, st'.get result k = if sequence <+: k then none else session.interner.get trie k
  substitutePrefix : ∀ trie ∈ session.tries, ∀ oldPrefix newPrefix, ∃ st' result,
    session.interner.substitutePrefix hash trie oldPrefix newPrefix = some (st', result) ∧
      match result with
      | some result => ∀ k, st'.get result k = substitutedAt session.interner trie oldPrefix newPrefix k
      | none => session.interner.getSubtrie trie oldPrefix = none
  filter : ∀ trie ∈ session.tries, ∀ predicate : List T → V → Bool, ∃ st' result,
    session.interner.filter hash (fun _ => predicate) trie = some (st', result) ∧
      ∀ k, st'.get result k = (session.interner.get trie k).filter (predicate k)
  intersection : ∀ trie ∈ session.tries, ∀ other ∈ session.tries, ∃ st' result,
    session.interner.intersection hash trie other = some (st', result) ∧
      ∀ k, st'.get result k = intersectedAt session.interner trie other k
  isSubset_iff : ∀ trie ∈ session.tries, ∀ other ∈ session.tries,
    session.interner.isSubset trie other = true ↔ session.interner.Included trie other
  partialCmp_eq : ∀ trie ∈ session.tries, ∀ other ∈ session.tries,
    session.interner.partialCmp trie other = some .eq ↔
      session.interner.Included trie other ∧ session.interner.Included other trie
  partialCmp_lt : ∀ trie ∈ session.tries, ∀ other ∈ session.tries,
    session.interner.partialCmp trie other = some .lt ↔
      session.interner.Included trie other ∧ ¬ session.interner.Included other trie
  partialCmp_gt : ∀ trie ∈ session.tries, ∀ other ∈ session.tries,
    session.interner.partialCmp trie other = some .gt ↔
      session.interner.Included other trie ∧ ¬ session.interner.Included trie other
  antisymm : ∀ trie ∈ session.tries, ∀ other ∈ session.tries,
    session.interner.Included trie other → session.interner.Included other trie → trie = other

theorem Good.partialCmp_eq_some_iff (good : session.Good hash True) (mem : trie ∈ session.tries)
    (mem' : other ∈ session.tries) (ordering : Ordering) :
    session.interner.partialCmp trie other = some ordering ↔
      match ordering with
      | .eq => session.interner.Included trie other ∧ session.interner.Included other trie
      | .lt => session.interner.Included trie other ∧ ¬ session.interner.Included other trie
      | .gt => session.interner.Included other trie ∧ ¬ session.interner.Included trie other := by
  have has := good.has trie mem
  have hasOther := good.has other mem'
  have same_iff : trie = other ↔ session.interner.Included trie other ∧ session.interner.Included other trie := by
    constructor
    · rintro rfl
      exact ⟨fun _ _ => id, fun _ _ => id⟩
    · exact fun both => good.interner.eq_of_included has hasOther both.1 both.2
  have below := Interner.isSubset_iff good.interner has hasOther
  have above := Interner.isSubset_iff good.interner hasOther has
  rw [partialCmp]
  by_cases first : session.interner.Included trie other
  · by_cases second : session.interner.Included other trie
    · rw [if_pos (same_iff.mpr ⟨first, second⟩)]
      cases ordering <;> simp [first, second]
    · rw [if_neg fun same => second (same_iff.mp same).2, if_pos (below.mpr first)]
      cases ordering <;> simp [first, second]
  · rw [if_neg fun same => first (same_iff.mp same).1, if_neg fun subset => first (below.mp subset)]
    by_cases second : session.interner.Included other trie
    · rw [if_pos (above.mpr second)]
      cases ordering <;> simp [first, second]
    · rw [if_neg fun subset => second (above.mp subset)]
      cases ordering <;> simp [first, second]

theorem Good.pointwise (good : session.Good hash True) : session.Pointwise hash := by
  have weak : session.interner.Good hash False := good.interner.weaken
  refine ⟨fun trie mem sequence c found k => get_of_getSubtrie found k, fun trie mem sequence => ?_,
    fun trie mem sequence => ?_, fun trie mem oldPrefix newPrefix => ?_, fun trie mem predicate => ?_,
    fun trie mem other mem' => ?_,
    fun trie mem other mem' => Interner.isSubset_iff good.interner (good.has trie mem) (good.has other mem'),
    fun trie mem other mem' => good.partialCmp_eq_some_iff mem mem' .eq,
    fun trie mem other mem' => good.partialCmp_eq_some_iff mem mem' .lt,
    fun trie mem other mem' => good.partialCmp_eq_some_iff mem mem' .gt,
    fun trie mem other mem' => good.interner.eq_of_included (good.has trie mem) (good.has other mem')⟩
  · constructor
    · intro missing
      refine ⟨?_, get_of_getSubtrie_none missing⟩
      rintro rfl
      cases missing
    · rintro ⟨nonempty, bare⟩
      cases found : session.interner.getSubtrie trie sequence with
      | none => rfl
      | some c =>
        obtain ⟨has, clean⟩ := getSubtrie_spec good.interner (good.has trie mem) found
        obtain ⟨k, v, isVal⟩ := good.interner.exists_get has (clean trivial nonempty)
        rw [get_of_getSubtrie found, bare] at isVal
        cases isVal
  · obtain ⟨st', result, modified, ran, -⟩ := removePrefix_spec weak (good.has trie mem) sequence
    exact ⟨st', result, modified, ran, removePrefix_get weak (good.has trie mem) ran⟩
  · obtain ⟨st', result, ran, -⟩ := substitutePrefix_spec weak (good.has trie mem) oldPrefix newPrefix False.elim
    refine ⟨st', result, ran, ?_⟩
    cases result with
    | none => exact substitutePrefix_eq_none ran
    | some result => exact substitutePrefix_get weak (good.has trie mem) ran
  · obtain ⟨st', result, ran, -⟩ := filter_spec (fun _ => predicate) weak (good.has trie mem)
    exact ⟨st', result, ran, filter_get predicate weak (good.has trie mem) ran⟩
  · obtain ⟨st', result, ran, -⟩ := intersection_spec weak (good.has trie mem) (good.has other mem')
    exact ⟨st', result, ran, intersection_get weak (good.has trie mem) (good.has other mem') ran⟩

/-- An empty trie, and a trie that denotes the empty map and has a child. -/
def Misordered (session : Session T V) : Prop :=
  ∃ other ∈ session.tries, ∃ trie ∈ session.tries, session.interner.isEmpty other = true ∧
    (∃ item child, (session.interner.node trie).children.get item = some child) ∧
      ∀ k, session.interner.get trie k = none

theorem step_misordered (good : session.Good hash True) (wraps : session.WrapsEmpty op)
    (ran : session.step hash op = some session') : session'.Misordered := by
  cases op with
  | substitutePrefix i oldPrefix newPrefix =>
    obtain ⟨rfl, nonempty, trie, found, empty⟩ := wraps
    have mem := List.mem_of_getElem? found
    obtain ⟨st', result, substituted, sequence, child, some_item, below, -⟩ :=
      substitutePrefix_wrapsEmpty good.interner (good.has trie mem) empty nonempty
    obtain ⟨st'', result', again, grows, -⟩ :=
      substitutePrefix_spec good.interner.weaken (good.has trie mem) [] newPrefix False.elim
    cases substituted.symm.trans again
    obtain rfl : session.give (st', result) = session' := by
      simpa [step, found, substituted] using ran
    refine ⟨trie, List.mem_append_left _ mem, result, List.mem_append_right _ (.head _), ?_, ?_, fun k => ?_⟩
    · exact (grows.isEmpty (good.has trie mem)).trans empty
    · obtain ⟨item, sequence, rfl⟩ := List.exists_cons_of_ne_nil some_item
      obtain ⟨next, isChild, -⟩ := Option.bind_eq_some_iff.mp below
      exact ⟨item, next, isChild⟩
    · have denoted := substitutePrefix_get good.interner.weaken (good.has trie mem) substituted k
      refine denoted.trans ?_
      simp [substitutedAt, get_of_isEmpty empty]
  | _ => exact wraps.elim

theorem run_misordered (good : session.Good hash True) (wraps : ¬ NeverWrapsEmpty hash session ops)
    (ran : session.run hash ops = some session') : session'.Misordered := by
  refine run_of_wraps Misordered good
    (fun session op session' good wrapped stepped => step_misordered good wrapped stepped) ?_ wraps ran
  rintro session session' good further ⟨other, mem', trie, mem, empty, ⟨item, child, found⟩, bare⟩
  refine ⟨other, further.tries.subset mem', trie, further.tries.subset mem, ?_, ⟨item, child, ?_⟩, fun k => ?_⟩
  · rw [further.grows.isEmpty (good.has other mem'), empty]
  · rw [further.grows.node (good.has trie mem), found]
  · rw [further.grows.get good.interner (good.has trie mem), bare]

/-- In every run, the operations act on the maps, and tries are ordered by inclusion, exactly if the run
never wraps an empty trie. -/
theorem pointwise_iff_neverWrapsEmpty (hash : Node T V → ℕ) (ops : List (Op T V)) :
    ∃ session, run hash start ops = some session ∧ (session.Pointwise hash ↔ NeverWrapsEmpty hash start ops) := by
  obtain ⟨session, ran, -⟩ : ∃ session, run hash start ops = some session ∧ start.Extends hash False session :=
    run_extends start_good False.elim
  refine ⟨session, ran, fun pointwise => ?_, fun never => ?_⟩
  · by_contra wraps
    obtain ⟨other, mem', trie, mem, empty, ⟨item, child, found⟩, bare⟩ := run_misordered start_good wraps ran
    have subset := (pointwise.isSubset_iff trie mem other mem').mpr fun k v isVal => by
      rw [bare] at isVal
      cases isVal
    rw [isSubset_isEmpty found empty] at subset
    exact Bool.false_ne_true subset
  · obtain ⟨session', ran', extends_⟩ : ∃ session, run hash start ops = some session ∧
        start.Extends hash True session := run_extends start_good fun _ => never
    obtain rfl := Option.some.inj (ran.symm.trans ran')
    exact extends_.good.pointwise

/-- The empty trie under a new prefix denotes the empty map and is no subset of the empty trie. -/
theorem wrapped_not_subset : ∃ session, run (fun _ => 0)
      (start : Session ℕ ℕ) [.new, .substitutePrefix 0 [] [7]] = some session ∧
    session.tries = [0, 1] ∧ session.interner.isSubset 1 0 = false ∧ session.interner.partialCmp 1 0 = some .gt ∧
    session.interner.Included 1 0 ∧ ¬ session.Pointwise (fun _ => 0) := by
  have final : (run (fun _ => 0) (start : Session ℕ ℕ) [.new, .substitutePrefix 0 [] [7]]).map
      (fun session => (session.tries, session.interner.leaked, session.interner.isSubset 1 0,
        session.interner.partialCmp 1 0)) =
      some ([0, 1], [emptyNode, { children := SortedMap.empty.insert 7 0, value := none }], false, some .gt) := by decide
  obtain ⟨session, ran, observed⟩ := Option.map_eq_some_iff.mp final
  obtain ⟨tries, leaked, noSubset, compared⟩ : _ ∧ _ ∧ _ ∧ _ := by simpa only [Prod.mk.injEq] using observed
  have included : session.interner.Included 1 0 := fun k v isVal => by
    rw [(get_wrapped leaked k).2] at isVal
    cases isVal
  refine ⟨session, ran, tries, noSubset, compared, included, fun pointwise => ?_⟩
  have subset := (pointwise.isSubset_iff 1 (by simp [tries]) 0 (by simp [tries])).mpr included
  rw [noSubset] at subset
  exact Bool.false_ne_true subset

end Session

end Ctadl.Trie
