import Ctadl.Trie.Canonical

/-! # What the operations do to the map

A trie denotes a finite map, and growing the interner does not change it. Removal, filtering and
intersection act on the map key by key. So does the union, except below a prefix at which both tries
have the same sub-trie: there its values are not merged.
-/

set_option linter.unusedSectionVars false

namespace Ctadl.Trie

open Collections Function Interner
open SortedMap (empty erase ext_get get_erase get_insert get_insert_of_ne get_insert_self mem_entries)

variable {T V : Type} [LinearOrder T] [DecidableEq V] {hash : Node T V → ℕ} {P : Prop}
  {st st' : Interner T V} {trie other a b c : ℕ} {item : T}

namespace Interner

section Get

theorem get_nil : st.get trie [] = (st.node trie).value := rfl

theorem get_cons (k : List T) :
    st.get trie (item :: k) = ((st.node trie).children.get item).bind fun child => st.get child k := by
  rw [get, getSubtrie_cons, Option.bind_assoc]
  rfl

/-- Below a sub-trie are the keys that go through it. -/
theorem get_of_getSubtrie {sequence : List T} (found : st.getSubtrie trie sequence = some c) (k : List T) :
    st.get c k = st.get trie (sequence ++ k) := by
  induction sequence generalizing trie with
  | nil =>
    cases found
    rfl
  | cons item sequence ih =>
    obtain ⟨child, isChild, found⟩ := Option.bind_eq_some_iff.mp found
    rw [ih found, List.cons_append, get_cons, isChild, Option.bind_some]

theorem get_of_getSubtrie_none {sequence : List T} (missing : st.getSubtrie trie sequence = none) (k : List T) :
    st.get trie (sequence ++ k) = none := by
  induction sequence generalizing trie with
  | nil => cases missing
  | cons item sequence ih =>
    rw [List.cons_append, get_cons]
    cases isChild : (st.node trie).children.get item with
    | none => rfl
    | some child =>
      rw [getSubtrie_cons, isChild, Option.bind_some] at missing
      exact ih missing

theorem get_of_isEmpty (empty : st.isEmpty trie = true) (k : List T) : st.get trie k = none := by
  obtain ⟨children, value⟩ := isEmpty_iff.mp empty
  cases k with
  | nil => exact value
  | cons item k => rw [get_cons, children, Option.bind_none]

/-- Growing does not change what a trie denotes. -/
theorem Grows.get (grows : Grows hash P st st') (good : st.Good hash P) (has : st.Has trie) (k : List T) :
    st'.get trie k = st.get trie k := by
  rw [Interner.get, Interner.get, grows.getSubtrie good has]
  cases found : st.getSubtrie trie k with
  | none => rfl
  | some current => rw [Option.bind_some, Option.bind_some, grows.node (getSubtrie_spec good has found).1]

end Get

section RemovePrefix

theorem removePrefix_unmodified {sequence : List T} {result : ℕ}
    (ran : st.removePrefix hash trie sequence = (st', result, false)) : result = trie := by
  cases sequence with
  | nil =>
    rw [removePrefix] at ran
    dsimp only at ran
    split_ifs at ran
    · cases congrArg (fun out => out.2.2) ran
    · exact (congrArg (fun out => out.2.1) ran).symm
  | cons item sequence =>
    rw [removePrefix] at ran
    dsimp only at ran
    split at ran
    · exact (congrArg (fun out => out.2.1) ran).symm
    · split at ran
      · exact (congrArg (fun out => out.2.1) ran).symm
      · cases congrArg (fun out => out.2.2) ran

theorem removePrefix_get (good : st.Good hash False) (has : st.Has trie) {sequence : List T} {result : ℕ} {modified : Bool}
    (ran : st.removePrefix hash trie sequence = (st', result, modified)) (k : List T) :
    st'.get result k = if sequence <+: k then none else st.get trie k := by
  induction sequence generalizing st trie st' result modified k with
  | nil =>
    obtain ⟨st₁, empty, isNew, grows, hasEmpty, isNode⟩ := new_spec good
    have bare : st₁.get empty k = none :=
      get_of_isEmpty (isEmpty_iff.mpr (by rw [isNode]; exact ⟨fun _ => rfl, rfl⟩)) k
    rw [if_pos List.nil_prefix]
    rw [removePrefix, isNew] at ran
    dsimp only at ran
    split_ifs at ran with same
    · cases ran
      exact bare
    · cases ran
      rw [not_not.mp same]
      exact bare
  | cons item sequence ih =>
    rw [removePrefix] at ran
    dsimp only at ran
    cases found : (st.node trie).children.get item with
    | none =>
      rw [found] at ran
      cases ran
      have missing (k : List T) : st.get trie (item :: k) = none := by rw [get_cons, found, Option.bind_none]
      split_ifs with inside
      · obtain ⟨rest, rfl⟩ := inside
        exact missing _
      · rfl
    | some child =>
      rw [found] at ran
      dsimp only at ran
      have hasChild := (good.sound has item child found).1
      obtain ⟨st₁, child₁, modified₁, ran₁, grows₁, has₁⟩ := removePrefix_spec good hasChild sequence
      have below (k : List T) := ih good hasChild ran₁ k
      rw [ran₁] at ran
      have split (k : List T) : (if item :: sequence <+: item :: k then none else st.get trie (item :: k)) =
          st₁.get child₁ k := by
        rw [below, get_cons, found, Option.bind_some]
        simp only [List.cons_prefix_cons, true_and]
      cases modified₁ with
      | false =>
        cases ran
        obtain rfl := removePrefix_unmodified ran₁
        cases k with
        | nil => rw [if_neg (by simp), grows₁.get good has]
        | cons other k =>
          by_cases same : other = item
          · subst same
            rw [split, get_cons, grows₁.node has, found, Option.bind_some]
          · rw [if_neg (by simp [Ne.symm same]), grows₁.get good has]
      | true =>
        obtain ⟨children, isChildren⟩ : ∃ children : SortedMap T ℕ, children =
          if st₁.isEmpty child₁ then (st.node trie).children.erase item
          else (st.node trie).children.insert item child₁ := ⟨_, rfl⟩
        have before := grows₁.sound (good.sound has)
        have sound : Sound False st₁ children := by
          rw [isChildren]
          split_ifs
          · exact before.erase
          · exact before.insert has₁ False.elim
        obtain ⟨st₂, result₂, ran₂, grows₂, has₂, isNode⟩ :=
          intern_spec grows₁.good { st.node trie with children } sound
        dsimp only at ran
        rw [← isChildren, ran₂] at ran
        cases ran
        cases k with
        | nil => rw [if_neg (by simp), get_nil, isNode, get_nil]
        | cons other k =>
          rw [get_cons, isNode]
          dsimp only
          by_cases same : other = item
          · subst same
            rw [split, isChildren]
            split_ifs with empty
            · rw [get_erase, if_pos rfl, Option.bind_none, get_of_isEmpty empty]
            · rw [get_insert_self, Option.bind_some, grows₂.get grows₁.good has₁]
          · have kept : children.get other = (st.node trie).children.get other := by
              rw [isChildren]
              split_ifs
              · rw [get_erase, if_neg same]
              · rw [get_insert_of_ne same]
            rw [kept, if_neg (by simp [Ne.symm same]), get_cons]
            cases isChild : (st.node trie).children.get other with
            | none => rfl
            | some d =>
              have hasD := (good.sound has other d isChild).1
              rw [Option.bind_some, Option.bind_some, (grows₁.trans grows₂).get good hasD]

end RemovePrefix

end Interner

section Union

variable (m : V → V → V)

/-- The value of a key in the union of two tries: equal sub-tries are taken over as they are. -/
def unionAt (st : Interner T V) : ℕ → ℕ → List T → Option V
  | trie, other, [] => if trie = other then st.get trie [] else Option.merge m (st.get trie []) (st.get other [])
  | trie, other, item :: k =>
    if trie = other then st.get trie (item :: k)
    else
      match (st.node trie).children.get item, (st.node other).children.get item with
      | some child, some otherChild => unionAt st child otherChild k
      | some child, none => st.get child k
      | none, some otherChild => st.get otherChild k
      | none, none => none

theorem Interner.Grows.unionAt (grows : Grows hash P st st') (good : st.Good hash P) (has : st.Has a) (hasB : st.Has b)
    (k : List T) : unionAt m st' a b k = unionAt m st a b k := by
  induction k generalizing a b with
  | nil => rw [Trie.unionAt, Trie.unionAt, grows.get good has, grows.get good hasB]
  | cons item k ih =>
    rw [Trie.unionAt, Trie.unionAt, grows.get good has, grows.node has, grows.node hasB]
    split_ifs
    · rfl
    · cases found : (st.node a).children.get item with
      | none =>
        cases found' : (st.node b).children.get item with
        | none => rfl
        | some d => exact grows.get good (good.sound hasB item d found').1 k
      | some c =>
        have hasC := (good.sound has item c found).1
        cases found' : (st.node b).children.get item with
        | none => exact grows.get good hasC k
        | some d => exact ih hasC (good.sound hasB item d found').1

/-- What the union of two tries denotes, where the second one was leaked before `bound`. -/
def UnionGets (hash : Node T V → ℕ) (bound : ℕ) (union : Unioning T V → ℕ → ℕ → Option (Unioning T V × ℕ)) : Prop :=
  ∀ (state : Unioning T V) (trie other : ℕ), state.interner.Good hash False → state.interner.Has trie →
    state.interner.Has other → other < bound → ∀ state' result, union state trie other = some (state', result) →
    ∀ k, state'.interner.get result k = unionAt m state.interner trie other k

/-- What is found through the children of a union, item by item. -/
def childAt (st : Interner T V) (k : List T) : Option ℕ → Option ℕ → Option V
  | some child, some otherChild => unionAt m st child otherChild k
  | some child, none => st.get child k
  | none, some otherChild => st.get otherChild k
  | none, none => none

theorem unionChild_gets {bound : ℕ} {union : Unioning T V → ℕ → ℕ → Option (Unioning T V × ℕ)}
    (spec : UnionSpec hash False bound union) (gets : UnionGets m hash bound union) {entries : List (T × ℕ)}
    (distinct : (entries.map Prod.fst).Nodup) (loop : UnionLoop T V) {last : UnionLoop T V}
    (good : loop.state.interner.Good hash False) (sound : Sound False loop.state.interner loop.children)
    (others : ∀ e ∈ entries, e.2 < bound ∧ loop.state.interner.Has e.2)
    (ran : entries.foldlM (unionChild union) loop = some last) :
    Grows hash False loop.state.interner last.state.interner ∧ Sound False last.state.interner last.children ∧
      (last.modified = false → loop.modified = false ∧ last.children = loop.children) ∧
      ∀ item k, (last.children.get item).bind (fun c => last.state.interner.get c k) =
        childAt m loop.state.interner k (loop.children.get item) ((entries.find? fun e => e.1 = item).map (·.2)) := by
  induction entries generalizing loop with
  | nil =>
    cases ran
    refine ⟨.refl good, sound, fun still => ⟨still, rfl⟩, fun item k => ?_⟩
    cases last.children.get item <;> rfl
  | cons entry entries ih =>
    obtain ⟨key, otherChild⟩ := entry
    rw [List.map_cons, List.nodup_cons] at distinct
    obtain ⟨lt, hasOther⟩ := others _ (.head _)
    have gone : entries.find? (fun e => e.1 = key) = none := by
      rw [List.find?_eq_none]
      intro e mem same
      exact distinct.1 (List.mem_map.mpr ⟨e, mem, by simpa using same⟩)
    rw [List.foldlM_cons] at ran
    obtain ⟨next, first, rest⟩ := Option.bind_eq_some_iff.mp ran
    rw [unionChild] at first
    cases found : loop.children.get key with
    | none =>
      rw [found] at first
      cases first
      obtain ⟨grows, soundLast, kept, through⟩ := ih distinct.2
        { loop with children := loop.children.insert key otherChild, modified := true } good
        (sound.insert hasOther False.elim) (fun e mem => others e (.tail _ mem)) rest
      refine ⟨grows, soundLast, fun still => absurd (kept still).1 (by simp), fun item k => ?_⟩
      rw [through]
      by_cases same : item = key
      · subst same
        rw [gone, get_insert_self, found, List.find?_cons_of_pos (by simp)]
        rfl
      · rw [get_insert_of_ne same, List.find?_cons_of_neg (by simp [Ne.symm same])]
    | some child =>
      rw [found] at first
      have hasChild := (sound key child found).1
      obtain ⟨state, result, ran₁, grows₁, hasResult, -⟩ := spec loop.state child otherChild good hasChild hasOther lt
      have below := gets loop.state child otherChild good hasChild hasOther lt state result ran₁
      simp only [ran₁, Option.bind_eq_bind, Option.bind_some, Option.some.injEq] at first
      subst first
      obtain ⟨grows, soundLast, kept, through⟩ := ih distinct.2 _ grows₁.good ((grows₁.sound sound).insert hasResult False.elim)
        (fun e mem => ⟨(others e (.tail _ mem)).1, grows₁.has (others e (.tail _ mem)).2⟩) rest
      refine ⟨grows₁.trans grows, soundLast, fun still => ?_, fun item k => ?_⟩
      · obtain ⟨unmodified, same⟩ := kept still
        simp only [Bool.or_eq_false_iff, ne_eq, decide_not, Bool.not_eq_eq_eq_not, Bool.not_false, decide_eq_true_eq]
          at unmodified
        refine ⟨unmodified.1, same.trans (ext_get fun item => ?_)⟩
        rw [get_insert]
        split_ifs with here
        · rw [here, found, unmodified.2]
        · rfl
      · rw [through]
        by_cases same : item = key
        · subst same
          rw [gone, get_insert_self, found, List.find?_cons_of_pos (by simp)]
          exact below k
        · rw [get_insert_of_ne same, List.find?_cons_of_neg (by simp [Ne.symm same])]
          cases isChild : loop.children.get item with
          | none =>
            cases isOther : entries.find? fun e => e.1 = item with
            | none => rfl
            | some e =>
              exact grows₁.get good (others e (.tail _ (List.mem_of_find?_eq_some isOther))).2 k
          | some c =>
            have hasC := (sound item c isChild).1
            cases isOther : entries.find? fun e => e.1 = item with
            | none => exact grows₁.get good hasC k
            | some e =>
              exact grows₁.unionAt m good hasC (others e (.tail _ (List.mem_of_find?_eq_some isOther))).2 k

/-- The value at the root of a union, and that it is the trie's own where nothing is reported modified. -/
theorem unionValue_eq (merged : List (V × V)) (value otherValue : Option V) :
    (unionValue (fun _ => m) merged value otherValue).2.1 = Option.merge m value otherValue ∧
      ((unionValue (fun _ => m) merged value otherValue).2.2 = false → Option.merge m value otherValue = value) := by
  cases value with
  | none => cases otherValue <;> simp [unionValue]
  | some x =>
    cases otherValue with
    | none => simp [unionValue]
    | some y =>
      by_cases same : m x y = x
      · simp [unionValue, same]
      · simp [unionValue, same]

theorem keys_nodup (children : SortedMap T ℕ) : (children.entries.map Prod.fst).Nodup := by
  rw [List.Nodup, List.pairwise_map]
  exact children.sorted.imp ne_of_lt

theorem unionWithInternal_gets (fuel : ℕ) : UnionGets m hash fuel (unionWithInternal hash (fun _ => m) fuel) := by
  induction fuel with
  | zero => exact fun _ _ _ _ _ _ lt => absurd lt (Nat.not_lt_zero _)
  | succ fuel ih =>
    intro state trie other good has hasOther lt state' result ran k
    rw [unionWithInternal] at ran
    split_ifs at ran with same
    · cases ran
      cases k <;> rw [unionAt, if_pos same]
    · obtain ⟨merged, value, modified, values⟩ : ∃ merged value modified, unionValue (fun _ => m) state.merged
          (state.interner.node trie).value (state.interner.node other).value = (merged, value, modified) := ⟨_, _, _, rfl⟩
      obtain ⟨isValue, unmodified⟩ := unionValue_eq m state.merged (state.interner.node trie).value
        (state.interner.node other).value
      dsimp only at ran
      rw [values] at ran isValue unmodified
      obtain ⟨loop, folded, ran⟩ := Option.bind_eq_some_iff.mp ran
      obtain ⟨grows, sound, kept, through⟩ := unionChild_gets m (unionWithInternal_spec _ fuel) ih
        (keys_nodup (state.interner.node other).children)
        { state := { state with merged }, children := (state.interner.node trie).children, modified } good
        (good.sound has) (by
          rintro ⟨item, child⟩ mem
          have found := mem_entries.mp mem
          have below := good.below other hasOther item child found
          exact ⟨by omega, (good.sound hasOther item child found).1⟩) folded
      obtain ⟨grown, isNode⟩ : Grows hash False loop.state.interner state'.interner ∧
          state'.interner.node result = { children := loop.children, value } := by
        split_ifs at ran with changed
        · obtain ⟨st', result', interned, grows', -, isNode⟩ :=
            intern_spec grows.good { children := loop.children, value } sound
          rw [interned] at ran
          cases ran
          exact ⟨grows', isNode⟩
        · cases ran
          obtain ⟨still, children⟩ := kept (by simpa using changed)
          refine ⟨.refl grows.good, ?_⟩
          have own : value = (state.interner.node trie).value := isValue.trans (unmodified still)
          rw [grows.node has, children, own]
      cases k with
      | nil =>
        rw [unionAt, if_neg same, get_nil, isNode]
        exact isValue
      | cons item k =>
        have stays : (loop.children.get item).bind (fun c => state'.interner.get c k) =
            (loop.children.get item).bind fun c => loop.state.interner.get c k := by
          cases found : loop.children.get item with
          | none => rfl
          | some c => exact grown.get grows.good (sound item c found).1 k
        rw [unionAt, if_neg same, get_cons, isNode, stays, through, SortedMap.get, SortedMap.get]
        rfl

/-- The union of two tries denotes their merge, but for the sub-tries they have in common. -/
theorem Interner.unionWith_get (good : st.Good hash False) (has : st.Has trie) (hasOther : st.Has other) {result : ℕ}
    (ran : st.unionWith hash (fun _ => m) trie other = some (st', result)) (k : List T) :
    st'.get result k = unionAt m st trie other k := by
  obtain ⟨⟨state, result'⟩, ran, same⟩ := Option.bind_eq_some_iff.mp ran
  cases same
  exact unionWithInternal_gets m (other + 1) { interner := st, merged := [] } trie other good has hasOther
    (Nat.lt_succ_self _) _ _ ran k

theorem unionAt_self (k : List T) : unionAt m st trie trie k = st.get trie k := by
  cases k <;> rw [unionAt, if_pos rfl]

/-- Below a common sub-trie the union is that sub-trie. -/
theorem unionAt_of_common {sequence : List T} (inA : st.getSubtrie a sequence = some c)
    (inB : st.getSubtrie b sequence = some c) (k : List T) : unionAt m st a b (sequence ++ k) = st.get c k := by
  induction sequence generalizing a b with
  | nil =>
    cases inA
    cases inB
    exact unionAt_self m k
  | cons item sequence ih =>
    have through := get_of_getSubtrie inA k
    obtain ⟨childA, isChildA, inA⟩ := Option.bind_eq_some_iff.mp inA
    obtain ⟨childB, isChildB, inB⟩ := Option.bind_eq_some_iff.mp inB
    rw [List.cons_append, unionAt, isChildA, isChildB]
    split_ifs
    · exact through.symm
    · exact ih inA inB

/-- Where the tries have no sub-trie in common on the way, the values are merged. -/
theorem unionAt_of_apart {k : List T}
    (apart : ∀ sequence c, sequence <+: k → st.getSubtrie a sequence = some c → st.getSubtrie b sequence ≠ some c) :
    unionAt m st a b k = Option.merge m (st.get a k) (st.get b k) := by
  have other : a ≠ b := fun same => apart [] a List.nil_prefix rfl (congrArg some same.symm)
  induction k generalizing a b with
  | nil => rw [unionAt, if_neg other]
  | cons item k ih =>
    rw [unionAt, if_neg other, get_cons, get_cons]
    cases isChildA : (st.node a).children.get item with
    | none =>
      cases isChildB : (st.node b).children.get item with
      | none => rfl
      | some childB => exact (Option.merge_none_left).symm
    | some childA =>
      cases isChildB : (st.node b).children.get item with
      | none => exact (Option.merge_none_right).symm
      | some childB =>
        have below (sequence : List T) (c : ℕ) (inside : sequence <+: k) (inA : st.getSubtrie childA sequence = some c) :
            st.getSubtrie childB sequence ≠ some c := by
          have above := apart (item :: sequence) c (List.cons_prefix_cons.mpr ⟨rfl, inside⟩)
          rw [getSubtrie_cons, getSubtrie_cons, isChildA, isChildB] at above
          exact above inA
        exact ih below fun same => below [] childA List.nil_prefix rfl (congrArg some same.symm)

/-- The union merges key by key exactly when the merge keeps every value of the common sub-tries. -/
theorem unionAt_eq_merge_iff : (∀ k, unionAt m st a b k = Option.merge m (st.get a k) (st.get b k)) ↔
    ∀ sequence c, st.getSubtrie a sequence = some c → st.getSubtrie b sequence = some c →
      ∀ k v, st.get c k = some v → m v v = v := by
  constructor
  · intro pointwise sequence c inA inB k v isVal
    have merged := pointwise (sequence ++ k)
    rw [unionAt_of_common m inA inB, ← get_of_getSubtrie inA, ← get_of_getSubtrie inB, isVal] at merged
    exact (Option.some.inj merged).symm
  · intro keeps k
    by_cases common : ∃ sequence c, sequence <+: k ∧ st.getSubtrie a sequence = some c ∧ st.getSubtrie b sequence = some c
    · obtain ⟨sequence, c, ⟨k, rfl⟩, inA, inB⟩ := common
      rw [unionAt_of_common m inA inB, ← get_of_getSubtrie inA, ← get_of_getSubtrie inB]
      cases isVal : st.get c k with
      | none => rfl
      | some v => exact congrArg some (keeps sequence c inA inB k v isVal).symm
    · exact unionAt_of_apart m fun sequence c inside inA inB => common ⟨sequence, c, inside, inA, inB⟩

end Union

section SubstitutePrefix

theorem Interner.wrap_cons (items : List T) : st.wrap hash trie (item :: items) =
    (st.wrap hash trie items).1.intern hash
      { children := empty.insert item (st.wrap hash trie items).2, value := none } := by
  rw [wrap, List.reverse_cons, List.foldl_append]
  rfl

/-- Wrapping puts every key below the prefix. -/
theorem Interner.wrap_get (good : st.Good hash False) (has : st.Has trie) {items : List T} {result : ℕ}
    (ran : st.wrap hash trie items = (st', result)) (k : List T) :
    st'.get result k = if items <+: k then st.get trie (k.drop items.length) else none := by
  induction items generalizing st' result k with
  | nil =>
    cases ran
    rw [if_pos List.nil_prefix]
    rfl
  | cons item items ih =>
    obtain ⟨st₁, wrapped, ran₁, grows₁, has₁⟩ := wrap_spec good has items False.elim
    have bare : Sound False st₁ empty := fun _ _ found => by simp at found
    obtain ⟨st₂, result₂, ran₂, grows₂, -, isNode⟩ := intern_spec grows₁.good
      { children := empty.insert item wrapped, value := none } (bare.insert has₁ False.elim)
    rw [wrap_cons, ran₁, ran₂] at ran
    cases ran
    cases k with
    | nil => rw [get_nil, isNode, if_neg (by simp)]
    | cons other k =>
      rw [get_cons, isNode, get_insert, SortedMap.get_empty]
      by_cases same : other = item
      · subst same
        rw [if_pos rfl, Option.bind_some, grows₂.get grows₁.good has₁, ih ran₁]
        simp only [List.cons_prefix_cons, true_and, List.length_cons, List.drop_succ_cons]
      · rw [if_neg same, if_neg (by simp [Ne.symm same]), Option.bind_none]

/-- What is under the old prefix is found under the new one, over what was there; the rest is as it was. -/
def substitutedAt (st : Interner T V) (trie : ℕ) (oldPrefix newPrefix k : List T) : Option V :=
  (if newPrefix <+: k then st.get trie (oldPrefix ++ k.drop newPrefix.length) else none).or
    (if oldPrefix <+: k then none else st.get trie k)

theorem Interner.union_get (good : st.Good hash False) (has : st.Has trie) (hasOther : st.Has other) {result : ℕ}
    (ran : st.union hash trie other = some (st', result)) (k : List T) :
    st'.get result k = (st.get other k).or (st.get trie k) := by
  have merged : unionAt (fun _ otherVal => otherVal) st trie other k =
      Option.merge (fun _ otherVal => otherVal) (st.get trie k) (st.get other k) :=
    (unionAt_eq_merge_iff _).mpr (fun _ _ _ _ _ _ _ => rfl) k
  rw [unionWith_get (fun _ otherVal => otherVal) good has hasOther ran, merged]
  cases st.get trie k <;> cases st.get other k <;> rfl

theorem Interner.substitutePrefix_get (good : st.Good hash False) (has : st.Has trie) {oldPrefix newPrefix : List T}
    {result : ℕ} (ran : st.substitutePrefix hash trie oldPrefix newPrefix = some (st', some result)) (k : List T) :
    st'.get result k = substitutedAt st trie oldPrefix newPrefix k := by
  rw [substitutePrefix] at ran
  cases found : st.getSubtrie trie oldPrefix with
  | none =>
    rw [found] at ran
    cases Option.some.inj ran
  | some substituted =>
    obtain ⟨hasSub, -⟩ := getSubtrie_spec good has found
    obtain ⟨st₁, removed, modified, ran₁, grows₁, has₁⟩ := removePrefix_spec good has oldPrefix
    obtain ⟨st₂, wrapped, ran₂, grows₂, has₂⟩ := wrap_spec grows₁.good (grows₁.has hasSub) newPrefix False.elim
    rw [found] at ran
    dsimp only at ran
    rw [ran₁] at ran
    dsimp only at ran
    rw [ran₂] at ran
    obtain ⟨⟨st₃, result₃⟩, ran₃, same⟩ := Option.bind_eq_some_iff.mp ran
    cases same
    rw [union_get grows₂.good (grows₂.has has₁) has₂ ran₃, wrap_get grows₁.good (grows₁.has hasSub) ran₂,
      grows₂.get grows₁.good has₁, removePrefix_get good has ran₁, grows₁.get good hasSub, get_of_getSubtrie found,
      substitutedAt]

/-- Only a prefix that is no path from the root is not substituted. -/
theorem Interner.substitutePrefix_eq_none {oldPrefix newPrefix : List T}
    (ran : st.substitutePrefix hash trie oldPrefix newPrefix = some (st', none)) :
    st.getSubtrie trie oldPrefix = none := by
  rw [substitutePrefix] at ran
  cases found : st.getSubtrie trie oldPrefix with
  | none => rfl
  | some substituted =>
    rw [found] at ran
    obtain ⟨⟨st₃, result₃⟩, -, same⟩ := Option.bind_eq_some_iff.mp ran
    cases same

end SubstitutePrefix

section Filter

variable (predicate : List T → V → Bool)

/-- What the filter of a trie denotes that was leaked before `bound`. -/
def FilterGets (hash : Node T V → ℕ) (bound : ℕ) (filter : Filtering T V → ℕ → List T → Option (Filtering T V × ℕ)) :
    Prop :=
  ∀ (state : Filtering T V) (trie : ℕ) (current : List T), state.interner.Good hash False → state.interner.Has trie →
    trie < bound → ∀ state' result, filter state trie current = some (state', result) →
    ∀ k, state'.interner.get result k = (state.interner.get trie k).filter (predicate (current ++ k))

theorem filterChild_gets {bound : ℕ} {filter : Filtering T V → ℕ → List T → Option (Filtering T V × ℕ)}
    (spec : FilterSpec hash False bound filter) (gets : FilterGets predicate hash bound filter) (current : List T)
    {entries : List (T × ℕ)} (distinct : (entries.map Prod.fst).Nodup) (loop : Filtering T V × SortedMap T ℕ)
    {last : Filtering T V × SortedMap T ℕ} (good : loop.1.interner.Good hash False)
    (sound : Sound False loop.1.interner loop.2) (bounded : ∀ e ∈ entries, e.2 < bound ∧ loop.1.interner.Has e.2)
    (fresh : ∀ e ∈ entries, loop.2.get e.1 = none) (ran : entries.foldlM (filterChild filter current) loop = some last) :
    Grows hash False loop.1.interner last.1.interner ∧ Sound False last.1.interner last.2 ∧
      ∀ item k, (last.2.get item).bind (fun c => last.1.interner.get c k) =
        match entries.find? fun e => e.1 = item with
        | some e => (loop.1.interner.get e.2 k).filter (predicate (current ++ item :: k))
        | none => (loop.2.get item).bind fun c => loop.1.interner.get c k := by
  induction entries generalizing loop with
  | nil =>
    cases ran
    exact ⟨.refl good, sound, fun item k => rfl⟩
  | cons entry entries ih =>
    obtain ⟨key, child⟩ := entry
    rw [List.map_cons, List.nodup_cons] at distinct
    obtain ⟨lt, has⟩ := bounded _ (.head _)
    have other (e : T × ℕ) (mem : e ∈ entries) : e.1 ≠ key := fun same =>
      distinct.1 (List.mem_map.mpr ⟨e, mem, same⟩)
    have gone : entries.find? (fun e => e.1 = key) = none := by
      rw [List.find?_eq_none]
      exact fun e mem same => other e mem (by simpa using same)
    rw [List.foldlM_cons] at ran
    obtain ⟨next, first, rest⟩ := Option.bind_eq_some_iff.mp ran
    obtain ⟨state, filtered, ran₁, grows₁, hasFiltered⟩ := spec loop.1 child (current ++ [key]) good has lt
    have below := gets loop.1 child (current ++ [key]) good has lt state filtered ran₁
    obtain ⟨children, isChildren⟩ : ∃ children : SortedMap T ℕ, children =
      if state.interner.isEmpty filtered then loop.2 else loop.2.insert key filtered := ⟨_, rfl⟩
    rw [filterChild, ran₁] at first
    dsimp only [Option.bind_eq_bind, Option.bind_some] at first
    rw [← isChildren] at first
    cases first
    have soundNext : Sound False state.interner children := by
      rw [isChildren]
      split_ifs
      · exact grows₁.sound sound
      · exact (grows₁.sound sound).insert hasFiltered False.elim
    have kept (item : T) (differs : item ≠ key) : children.get item = loop.2.get item := by
      rw [isChildren]
      split_ifs
      · rfl
      · exact get_insert_of_ne differs
    obtain ⟨grows, soundLast, through⟩ := ih distinct.2 (state, children) grows₁.good soundNext
      (fun e mem => ⟨(bounded e (.tail _ mem)).1, grows₁.has (bounded e (.tail _ mem)).2⟩)
      (fun e mem => (kept e.1 (other e mem)).trans (fresh e (.tail _ mem))) rest
    refine ⟨grows₁.trans grows, soundLast, fun item k => ?_⟩
    rw [through]
    by_cases same : item = key
    · subst same
      rw [gone, List.find?_cons_of_pos (by simp)]
      dsimp only
      rw [isChildren]
      have path : current ++ [item] ++ k = current ++ item :: k := by simp
      rw [← path, ← below]
      split_ifs with empty
      · rw [fresh _ (.head _), Option.bind_none, get_of_isEmpty empty]
      · rw [get_insert_self, Option.bind_some]
    · rw [List.find?_cons_of_neg (by simp [Ne.symm same])]
      cases isEntry : entries.find? fun e => e.1 = item with
      | some e =>
        have hasE := (bounded e (.tail _ (List.mem_of_find?_eq_some isEntry))).2
        dsimp only
        rw [grows₁.get good hasE]
      | none =>
        dsimp only
        rw [kept item same]
        cases isChild : loop.2.get item with
        | none => rfl
        | some c => exact grows₁.get good (sound item c isChild).1 k

theorem filterRecursive_gets (fuel : ℕ) :
    FilterGets predicate hash fuel (filterRecursive hash (fun _ => predicate) fuel) := by
  induction fuel with
  | zero => exact fun _ _ _ _ _ lt => absurd lt (Nat.not_lt_zero _)
  | succ fuel ih =>
    intro state trie current good has lt state' result ran k
    rw [filterRecursive] at ran
    dsimp only at ran
    obtain ⟨⟨next, children⟩, folded, ran⟩ := Option.bind_eq_some_iff.mp ran
    obtain ⟨grows, sound, through⟩ := filterChild_gets predicate (filterRecursive_spec _ fuel) ih current
      (keys_nodup (state.interner.node trie).children) _ good (fun _ _ found => by simp at found) (by
        rintro ⟨item, child⟩ mem
        have found := mem_entries.mp mem
        have below := good.below trie has item child found
        exact ⟨by omega, (good.sound has item child found).1⟩) (fun _ _ => rfl) folded
    obtain ⟨st', result', interned, grows', -, isNode⟩ := intern_spec grows.good
      { children, value := (state.interner.node trie).value.filter (predicate current) } sound
    dsimp only at ran
    rw [interned] at ran
    cases ran
    cases k with
    | nil => rw [get_nil, isNode, get_nil, List.append_nil]
    | cons item k =>
      have stays : (children.get item).bind (fun c => st'.get c k) =
          (children.get item).bind fun c => next.interner.get c k := by
        cases found : children.get item with
        | none => rfl
        | some c => exact grows'.get grows.good (sound item c found).1 k
      have lookup : (state.interner.node trie).children.get item =
          ((state.interner.node trie).children.entries.find? fun e => e.1 = item).map (·.2) := rfl
      rw [get_cons, isNode, stays, through, get_cons, lookup]
      cases (state.interner.node trie).children.entries.find? fun e => e.1 = item <;> rfl

theorem Interner.filter_get (good : st.Good hash False) (has : st.Has trie) {result : ℕ}
    (ran : st.filter hash (fun _ => predicate) trie = some (st', result)) (k : List T) :
    st'.get result k = (st.get trie k).filter (predicate k) := by
  obtain ⟨⟨state, result'⟩, ran, same⟩ := Option.bind_eq_some_iff.mp ran
  cases same
  exact filterRecursive_gets predicate (trie + 1) { interner := st, asked := [] } trie [] good has (Nat.lt_succ_self _)
    _ _ ran k

end Filter

section Intersection

/-- The part of a trie's map whose keys the other one has. -/
def intersectedAt (st : Interner T V) (trie other : ℕ) (k : List T) : Option V :=
  if (st.get other k).isSome then st.get trie k else none

/-- What is found below an item once the listed keys are removed. -/
def keptAt (st : Interner T V) (children : SortedMap T ℕ) (keys : List T) (item : T) (k : List T) : Option V :=
  if item ∈ keys then none else (children.get item).bind fun c => st.get c k

theorem get_foldl_erase (keys : List T) (children : SortedMap T ℕ) :
    (keys.foldl erase children).get item = if item ∈ keys then none else children.get item := by
  induction keys generalizing children with
  | nil => rfl
  | cons key keys ih =>
    rw [List.foldl_cons, ih, get_erase]
    by_cases same : item = key
    · simp [same]
    · simp [same]

/-- What the intersection of two tries denotes, the first one leaked before `bound`. -/
def IntersectGets (hash : Node T V → ℕ) (bound : ℕ)
    (intersection : Interner T V → ℕ → ℕ → Option (Interner T V × ℕ)) : Prop :=
  ∀ (st : Interner T V) (trie other : ℕ), st.Good hash False → st.Has trie → st.Has other → trie < bound →
    ∀ st' result, intersection st trie other = some (st', result) → ∀ k, st'.get result k = intersectedAt st trie other k

theorem Interner.Grows.intersectedAt (grows : Grows hash P st st') (good : st.Good hash P) (has : st.Has a)
    (hasB : st.Has b) (k : List T) : intersectedAt st' a b k = intersectedAt st a b k := by
  rw [Trie.intersectedAt, Trie.intersectedAt, grows.get good has, grows.get good hasB]

theorem Interner.Grows.keptAt (grows : Grows hash P st st') (good : st.Good hash P) {children : SortedMap T ℕ}
    (sound : Sound P st children) (keys : List T) (k : List T) :
    keptAt st' children keys item k = keptAt st children keys item k := by
  rw [Trie.keptAt, Trie.keptAt]
  cases found : children.get item with
  | none => rfl
  | some c => rw [Option.bind_some, Option.bind_some, grows.get good (sound item c found).1]

theorem intersectChild_gets {bound : ℕ} {intersection : Interner T V → ℕ → ℕ → Option (Interner T V × ℕ)}
    (spec : IntersectSpec hash False bound intersection) (gets : IntersectGets hash bound intersection)
    (others : SortedMap T ℕ) {entries : List (T × ℕ)} (distinct : (entries.map Prod.fst).Nodup)
    (loop : IntersectLoop T V) {last : IntersectLoop T V} (good : loop.interner.Good hash False)
    (sound : Sound False loop.interner loop.children)
    (hasOthers : ∀ item child, others.get item = some child → loop.interner.Has child)
    (bounded : ∀ e ∈ entries, e.2 < bound ∧ loop.interner.Has e.2 ∧ loop.children.get e.1 = some e.2)
    (fresh : ∀ e ∈ entries, e.1 ∉ loop.keysToRemove)
    (ran : entries.foldlM (intersectChild intersection others) loop = some last) :
    Grows hash False loop.interner last.interner ∧ Sound False last.interner last.children ∧
      (last.modified = false →
        loop.modified = false ∧ last.children = loop.children ∧ last.keysToRemove = loop.keysToRemove) ∧
      ∀ item k, keptAt last.interner last.children last.keysToRemove item k =
        match entries.find? fun e => e.1 = item with
        | some e => (others.get item).bind fun d => intersectedAt loop.interner e.2 d k
        | none => keptAt loop.interner loop.children loop.keysToRemove item k := by
  induction entries generalizing loop with
  | nil =>
    cases ran
    exact ⟨.refl good, sound, fun still => ⟨still, rfl, rfl⟩, fun item k => rfl⟩
  | cons entry entries ih =>
    obtain ⟨key, child⟩ := entry
    rw [List.map_cons, List.nodup_cons] at distinct
    obtain ⟨lt, has, isChild⟩ := bounded _ (.head _)
    have other (e : T × ℕ) (mem : e ∈ entries) : e.1 ≠ key := fun same =>
      distinct.1 (List.mem_map.mpr ⟨e, mem, same⟩)
    have gone : entries.find? (fun e => e.1 = key) = none := by
      rw [List.find?_eq_none]
      exact fun e mem same => other e mem (by simpa using same)
    rw [List.foldlM_cons] at ran
    obtain ⟨next, first, rest⟩ := Option.bind_eq_some_iff.mp ran
    rw [intersectChild] at first
    cases found : others.get key with
    | none =>
      rw [found] at first
      cases first
      obtain ⟨grows, soundLast, kept, through⟩ := ih distinct.2
        { loop with keysToRemove := loop.keysToRemove ++ [key], modified := true } good sound hasOthers
        (fun e mem => bounded e (.tail _ mem)) (fun e mem => by simp [fresh e (.tail _ mem), other e mem]) rest
      refine ⟨grows, soundLast, fun still => absurd (kept still).1 (by simp), fun item k => ?_⟩
      rw [through]
      by_cases same : item = key
      · subst same
        rw [gone, List.find?_cons_of_pos (by simp), found]
        simp [keptAt]
      · rw [List.find?_cons_of_neg (by simp [Ne.symm same])]
        simp only [keptAt, List.mem_append, List.mem_singleton, same, or_false]
    | some otherChild =>
      have hasOther := hasOthers key otherChild found
      obtain ⟨st₁, result, ran₁, grows₁, hasResult⟩ := spec loop.interner child otherChild good has hasOther lt
      have below := gets loop.interner child otherChild good has hasOther lt st₁ result ran₁
      obtain ⟨next', isNext, interner, children, removed, unmodified⟩ : ∃ next' : IntersectLoop T V, next = next' ∧
          next'.interner = st₁ ∧ next'.children = loop.children.insert key result ∧
          next'.keysToRemove = (if st₁.isEmpty result then loop.keysToRemove ++ [key] else loop.keysToRemove) ∧
          (next'.modified = false → loop.modified = false ∧ result = child ∧ st₁.isEmpty result = false) := by
        rw [found] at first
        simp only [ran₁, Option.bind_eq_bind, Option.bind_some] at first
        split_ifs at first with empty
        · cases first
          exact ⟨_, rfl, rfl, rfl, by rw [if_pos empty], by simp⟩
        · cases first
          exact ⟨_, rfl, rfl, rfl, by rw [if_neg empty], by simp [empty]⟩
      subst isNext
      obtain ⟨grows, soundLast, kept, through⟩ := ih distinct.2 next (interner ▸ grows₁.good)
        (by rw [interner, children]; exact (grows₁.sound sound).insert hasResult False.elim)
        (fun item d isOther => interner ▸ grows₁.has (hasOthers item d isOther))
        (fun e mem => by
          obtain ⟨ltE, hasE, isE⟩ := bounded e (.tail _ mem)
          refine ⟨ltE, interner ▸ grows₁.has hasE, ?_⟩
          rw [children, get_insert_of_ne (other e mem), isE])
        (fun e mem => by
          rw [removed]
          split_ifs
          · simp [fresh e (.tail _ mem), other e mem]
          · exact fresh e (.tail _ mem)) rest
      rw [interner] at grows
      refine ⟨grows₁.trans grows, soundLast, fun still => ?_, fun item k => ?_⟩
      · obtain ⟨before, sameChildren, sameKeys⟩ := kept still
        obtain ⟨unchanged, rfl, nonempty⟩ := unmodified before
        refine ⟨unchanged, sameChildren.trans (ext_get fun item => ?_), ?_⟩
        · rw [children, get_insert]
          split_ifs with here
          · rw [here, isChild]
          · rfl
        · rw [sameKeys, removed, if_neg (by simp [nonempty])]
      · rw [through]
        by_cases same : item = key
        · subst same
          rw [gone, List.find?_cons_of_pos (by simp), found]
          dsimp only
          rw [Option.bind_some, ← below, keptAt, children, interner, get_insert_self, Option.bind_some]
          cases empty : st₁.isEmpty result with
          | true =>
            have keys : next.keysToRemove = loop.keysToRemove ++ [item] := by rw [removed, if_pos empty]
            rw [keys, if_pos (List.mem_append_right _ (.head _)), get_of_isEmpty empty]
          | false =>
            have keys : next.keysToRemove = loop.keysToRemove := by rw [removed, if_neg (Bool.eq_false_iff.mp empty)]
            rw [keys, if_neg (fresh _ (.head _))]
        · rw [List.find?_cons_of_neg (by simp [Ne.symm same])]
          cases isEntry : entries.find? fun e => e.1 = item with
          | some e =>
            have hasE := (bounded e (.tail _ (List.mem_of_find?_eq_some isEntry))).2.1
            dsimp only
            cases isOther : others.get item with
            | none => rfl
            | some d =>
              rw [Option.bind_some, Option.bind_some, interner]
              exact grows₁.intersectedAt good hasE (hasOthers item d isOther) k
          | none =>
            have same_keys : item ∈ next.keysToRemove ↔ item ∈ loop.keysToRemove := by
              rw [removed]
              split_ifs
              · simp [same]
              · rfl
            dsimp only
            rw [← grows₁.keptAt good sound, keptAt, keptAt, interner, children, get_insert_of_ne same]
            simp only [same_keys]

theorem intersectionFrom_gets (fuel : ℕ) :
    IntersectGets (T := T) (V := V) hash fuel (intersectionFrom hash fuel) := by
  induction fuel with
  | zero => exact fun _ _ _ _ _ _ lt => absurd lt (Nat.not_lt_zero _)
  | succ fuel ih =>
    intro st trie other good has hasOther lt st' result ran k
    rw [intersectionFrom] at ran
    split_ifs at ran with same
    · cases ran
      subst same
      rw [intersectedAt]
      cases st.get trie k <;> rfl
    · dsimp only at ran
      obtain ⟨dropped, isDropped⟩ : ∃ dropped,
          ((st.node trie).value.isSome && (st.node other).value.isNone) = dropped := ⟨_, rfl⟩
      rw [isDropped] at ran
      obtain ⟨loop, folded, ran⟩ := Option.bind_eq_some_iff.mp ran
      obtain ⟨grows, sound, kept, through⟩ := intersectChild_gets (intersectionFrom_spec fuel) ih
        (st.node other).children (keys_nodup (st.node trie).children) _ good (good.sound has)
        (fun item child found => (good.sound hasOther item child found).1) (by
          rintro ⟨item, child⟩ mem
          have found := mem_entries.mp mem
          have below := good.below trie has item child found
          exact ⟨by omega, (good.sound has item child found).1, found⟩) (fun _ _ => List.not_mem_nil) folded
      have value : intersectedAt st trie other [] = if dropped then none else (st.node trie).value := by
        rw [intersectedAt, get_nil, get_nil, ← isDropped]
        cases (st.node trie).value <;> cases (st.node other).value <;> rfl
      obtain ⟨children, isChildren⟩ : ∃ children, loop.keysToRemove.foldl erase loop.children = children :=
        ⟨_, rfl⟩
      rw [isChildren] at ran
      have soundChildren : Sound False loop.interner children := by
        intro item c found
        rw [← isChildren, get_foldl_erase] at found
        split_ifs at found
        exact sound item c found
      obtain ⟨grown, isNode⟩ : Grows hash False loop.interner st' ∧
          st'.node result = { children, value := if dropped then none else (st.node trie).value } := by
        cases changed : loop.modified with
        | true =>
          rw [changed, if_pos rfl] at ran
          obtain ⟨st₁, result₁, interned, grows₁, -, isNode⟩ := intern_spec grows.good
            { children, value := if dropped then none else (st.node trie).value } soundChildren
          rw [interned] at ran
          cases ran
          exact ⟨grows₁, isNode⟩
        | false =>
          rw [changed, if_neg Bool.false_ne_true] at ran
          cases ran
          obtain ⟨undropped, sameChildren, noKeys⟩ := kept changed
          dsimp only at undropped sameChildren noKeys
          refine ⟨.refl grows.good, ?_⟩
          rw [grows.node has, ← isChildren, noKeys, sameChildren, undropped, if_neg Bool.false_ne_true]
          rfl
      cases k with
      | nil => rw [get_nil, isNode, value]
      | cons item k =>
        have below : (children.get item).bind (fun c => st'.get c k) =
            keptAt loop.interner loop.children loop.keysToRemove item k := by
          rw [← isChildren, get_foldl_erase, keptAt]
          split_ifs with removed
          · rfl
          · cases found : loop.children.get item with
            | none => rfl
            | some c => exact grown.get grows.good (sound item c found).1 k
        have lookup : (st.node trie).children.get item =
            ((st.node trie).children.entries.find? fun e => e.1 = item).map (·.2) := rfl
        rw [get_cons, isNode, below, through, intersectedAt, get_cons, get_cons, lookup]
        cases isEntry : (st.node trie).children.entries.find? fun e => e.1 = item with
        | some e =>
          dsimp only
          rw [Option.map_some, Option.bind_some]
          cases (st.node other).children.get item <;> rfl
        | none =>
          dsimp only
          rw [keptAt, if_neg List.not_mem_nil, lookup, isEntry, Option.map_none, Option.bind_none]
          exact (ite_self none).symm

theorem Interner.intersection_get (good : st.Good hash False) (has : st.Has trie) (hasOther : st.Has other) {result : ℕ}
    (ran : st.intersection hash trie other = some (st', result)) (k : List T) :
    st'.get result k = intersectedAt st trie other k :=
  intersectionFrom_gets (trie + 1) st trie other good has hasOther (Nat.lt_succ_self _) _ _ ran k

end Intersection

namespace Session

/-- In every run, the union of two tries is their merge key by key exactly when the merge function keeps
every value of the sub-tries they have in common. -/
theorem unionWith_pointwise_iff (hash : Node T V → ℕ) (ops : List (Op T V)) :
    ∃ session, run hash start ops = some session ∧
      ∀ trie ∈ session.tries, ∀ other ∈ session.tries, ∀ m : V → V → V, ∃ st' result,
        session.interner.unionWith hash (fun _ => m) trie other = some (st', result) ∧
        ((∀ k, st'.get result k = Option.merge m (session.interner.get trie k) (session.interner.get other k)) ↔
          ∀ sequence c, session.interner.getSubtrie trie sequence = some c →
            session.interner.getSubtrie other sequence = some c →
              ∀ k v, session.interner.get c k = some v → m v v = v) := by
  obtain ⟨session, ran, extends_⟩ : ∃ session, run hash start ops = some session ∧ start.Extends hash False session :=
    run_extends start_good False.elim
  refine ⟨session, ran, fun trie mem other mem' m => ?_⟩
  have good := extends_.good.interner
  have has := extends_.good.has trie mem
  have hasOther := extends_.good.has other mem'
  obtain ⟨st', result, united, -⟩ := unionWith_spec (fun _ => m) good has hasOther
  refine ⟨st', result, united, ?_⟩
  simp only [unionWith_get m good has hasOther united]
  exact unionAt_eq_merge_iff m

/-- The value of a sub-trie that two tries share is not added to itself: it is 5 in the union, and 5 in each. -/
theorem shared_not_merged :
    (run (fun _ => 0) (start : Session ℕ ℕ) [.new, .insert 0 [1] 5, .insert 1 [2] 7]).map (fun session =>
      (session.tries,
        (session.interner.unionWith (fun _ => 0) (fun _ => (· + ·)) 2 4).map fun (st, result) => st.get result [1],
        Option.merge (· + ·) (session.interner.get 2 [1]) (session.interner.get 4 [1]))) =
      some ([0, 2, 4], some (some 5), some 10) := by
  decide

end Session

end Ctadl.Trie
