import Ctadl.Trie.Operations
import Mathlib.Data.List.Infix

/-! # What every operation does to the interner

`Good hash P st` collects what every interner satisfies: no node has two addresses, children are leaked
before their parents, and, where `P` holds, no child is empty. Taking `P` to be false shows that every
operation returns; taking it to be true shows which operations keep children from being empty. Each
operation has one lemma, which says that the interner only grows and stays good; its recursion goes
down to children leaked earlier, so the fuel is enough.
-/

set_option linter.unusedSectionVars false

namespace Ctadl.Trie

open Collections Function

variable {T V : Type} [LinearOrder T] [DecidableEq V] {hash : Node T V → ℕ} {P : Prop}
  {st st' st'' : Interner T V} {trie other a b c : ℕ} {item : T} {children : SortedMap T ℕ}

namespace Interner

/-- The address of a leaked node. -/
def Has (st : Interner T V) (trie : ℕ) : Prop := trie < st.leaked.length

theorem leaked_node (has : st.Has a) : st.leaked[a]? = some (st.node a) := by
  rw [node, List.getElem?_eq_getElem has, Option.getD_some]

theorem isEmpty_iff : st.isEmpty a = true ↔
    (∀ item, (st.node a).children.get item = none) ∧ (st.node a).value = none := by
  rw [isEmpty, Bool.and_eq_true, List.isEmpty_iff, SortedMap.entries_eq_nil, Option.isNone_iff_eq_none]

theorem isEmpty_eq_false_iff : st.isEmpty a = false ↔
    (∃ item child, (st.node a).children.get item = some child) ∨ ∃ value, (st.node a).value = some value := by
  rw [← Bool.not_eq_true, isEmpty_iff, not_and_or, not_forall]
  simp only [← ne_eq, Option.ne_none_iff_exists']

/-- What every interner satisfies, and what holds of its children under `P`. -/
structure Good (hash : Node T V → ℕ) (P : Prop) (st : Interner T V) : Prop where
  nodup : st.leaked.Nodup
  filed : ∀ a, st.Has a → a ∈ st.shards (shardFor hash (st.node a))
  below : ∀ a, st.Has a → ∀ item child, (st.node a).children.get item = some child → child < a
  full : P → ∀ a, st.Has a → ∀ item child, (st.node a).children.get item = some child → st.isEmpty child = false

/-- Children that a node to be leaked may have. -/
def Sound (P : Prop) (st : Interner T V) (children : SortedMap T ℕ) : Prop :=
  ∀ item child, children.get item = some child → st.Has child ∧ (P → st.isEmpty child = false)

/-- The interner has only grown. -/
structure Grows (hash : Node T V → ℕ) (P : Prop) (st st' : Interner T V) : Prop where
  good : st'.Good hash P
  leaked : st.leaked <+: st'.leaked

theorem Good.sound (good : st.Good hash P) (has : st.Has trie) : Sound P st (st.node trie).children :=
  fun item child found => ⟨(good.below trie has item child found).trans has, fun clean => good.full clean trie has item child found⟩

theorem Grows.refl (good : st.Good hash P) : Grows hash P st st := ⟨good, List.prefix_rfl⟩

namespace Grows

variable (grows : Grows hash P st st')
include grows

theorem trans (later : Grows hash P st' st'') : Grows hash P st st'' :=
  ⟨later.good, grows.leaked.trans later.leaked⟩

theorem has (has : st.Has a) : st'.Has a := has.trans_le grows.leaked.length_le

theorem node (has : st.Has a) : st'.node a = st.node a := by
  have same := List.prefix_iff_getElem?.mp grows.leaked a has
  rw [Interner.node, Interner.node, same, List.getElem?_eq_getElem has]

theorem isEmpty (has : st.Has a) : st'.isEmpty a = st.isEmpty a := by
  rw [Interner.isEmpty, Interner.isEmpty, grows.node has]

theorem sound (sound : Sound P st children) : Sound P st' children := by
  intro item child found
  obtain ⟨has, clean⟩ := sound item child found
  exact ⟨grows.has has, fun p => (grows.isEmpty has).trans (clean p)⟩

end Grows

theorem Sound.insert (sound : Sound P st children) (has : st.Has c) (clean : P → st.isEmpty c = false) :
    Sound P st (children.insert item c) := by
  intro key child found
  rw [SortedMap.get_insert] at found
  split_ifs at found
  · obtain rfl := Option.some.inj found
    exact ⟨has, clean⟩
  · exact sound key child found

theorem Sound.erase (sound : Sound P st children) : Sound P st (children.erase item) := by
  intro key child found
  rw [SortedMap.get_erase] at found
  split_ifs at found
  exact sound key child found

/-- Interning finds the node or leaks it. -/
theorem intern_spec (good : st.Good hash P) (node : Node T V) (sound : Sound P st node.children) :
    ∃ st' result, st.intern hash node = (st', result) ∧ Grows hash P st st' ∧ st'.Has result ∧
      st'.node result = node := by
  rw [intern]
  cases found : (st.shards (shardFor hash node)).find? fun a => st.leaked[a]? = some node with
  | some existing =>
    have here : st.leaked[existing]? = some node := by simpa using List.find?_some found
    obtain ⟨has, -⟩ := List.getElem?_eq_some_iff.mp here
    exact ⟨st, existing, rfl, .refl good, has, by rw [Interner.node, here, Option.getD_some]⟩
  | none =>
    have new : node ∉ st.leaked := by
      intro mem
      obtain ⟨a, lt, same⟩ := List.mem_iff_getElem.mp mem
      have here : st.leaked[a]? = some node := by rw [List.getElem?_eq_getElem lt, same]
      have isNode : st.node a = node := Option.some.inj ((leaked_node lt).symm.trans here)
      have waits := good.filed a lt
      rw [isNode] at waits
      simpa [here] using List.find?_eq_none.mp found a waits
    obtain ⟨st', isNew⟩ : ∃ st' : Interner T V, st' =
      { leaked := st.leaked ++ [node]
        shards := update st.shards (shardFor hash node) (st.leaked.length :: st.shards (shardFor hash node)) } := ⟨_, rfl⟩
    have leaked : st'.leaked = st.leaked ++ [node] := by rw [isNew]
    have old : ∀ {a}, st.Has a → st'.node a = st.node a := by
      intro a has
      rw [Interner.node, Interner.node, leaked, List.getElem?_append_left has]
    have last : st'.node st.leaked.length = node := by
      rw [Interner.node, leaked, List.getElem?_concat_length, Option.getD_some]
    have cases_has : ∀ {a}, st'.Has a → st.Has a ∨ a = st.leaked.length := by
      intro a has
      rw [Has, leaked, List.length_append, List.length_singleton] at has
      exact Nat.lt_succ_iff_lt_or_eq.mp has
    have oldEmpty : ∀ {a}, st.Has a → st'.isEmpty a = st.isEmpty a := by
      intro a has
      rw [isEmpty, isEmpty, old has]
    refine ⟨st', st.leaked.length, by rw [isNew], ⟨?_, leaked ▸ List.prefix_append _ _⟩, ?_, last⟩
    · constructor
      case nodup =>
        rw [leaked]
        exact List.nodup_append.mpr ⟨good.nodup, List.nodup_singleton _, by
          intro x mem y isNode
          rw [List.mem_singleton.mp isNode]
          rintro rfl
          exact new mem⟩
      case filed =>
        intro a has
        have shards : st'.shards =
            update st.shards (shardFor hash node) (st.leaked.length :: st.shards (shardFor hash node)) := by rw [isNew]
        rw [shards]
        rcases cases_has has with has | rfl
        · rw [old has]
          have waits := good.filed a has
          by_cases same : shardFor hash (st.node a) = shardFor hash node
          · rw [same] at waits ⊢
            simp [waits]
          · rwa [update_of_ne same]
        · rw [last, update_self]
          exact .head _
      case below =>
        intro a has item child found
        rcases cases_has has with has | rfl
        · rw [old has] at found
          exact good.below a has item child found
        · rw [last] at found
          exact (sound item child found).1
      case full =>
        intro clean a has item child found
        rcases cases_has has with has | rfl
        · rw [old has] at found
          have before := good.full clean a has item child found
          rwa [oldEmpty ((good.below a has item child found).trans has)]
        · rw [last] at found
          obtain ⟨has, nonempty⟩ := sound item child found
          rw [oldEmpty has]
          exact nonempty clean
    · rw [Has, leaked, List.length_append, List.length_singleton]
      exact Nat.lt_succ_self _

theorem new_spec (good : st.Good hash P) :
    ∃ st' result, st.new hash = (st', result) ∧ Grows hash P st st' ∧ st'.Has result ∧
      st'.node result = emptyNode :=
  intern_spec good emptyNode fun _ _ found => by simp [emptyNode] at found

/-- An insertion leaves a trie that is not empty. -/
theorem insert_spec (good : st.Good hash P) (has : st.Has trie) (sequence : List T) (value : V) :
    ∃ st' result, st.insert hash trie sequence value = (st', result) ∧ Grows hash P st st' ∧ st'.Has result ∧
      st'.isEmpty result = false := by
  induction sequence generalizing st trie with
  | nil =>
    obtain ⟨st', result, ran, grows, has', isNode⟩ :=
      intern_spec good { st.node trie with value := some value } (good.sound has)
    exact ⟨st', result, ran, grows, has', isEmpty_eq_false_iff.mpr (.inr ⟨value, by rw [isNode]⟩)⟩
  | cons item sequence ih =>
    obtain ⟨st₁, child, isChild, grows₁, has₁⟩ : ∃ st₁ child,
        st.childOrDefault hash (st.node trie) item = (st₁, child) ∧ Grows hash P st st₁ ∧ st₁.Has child := by
      rw [childOrDefault]
      cases found : (st.node trie).children.get item with
      | some child => exact ⟨st, child, rfl, .refl good, (good.sound has item child found).1⟩
      | none =>
        obtain ⟨st₁, child, ran, grows, has₁, -⟩ := new_spec good
        exact ⟨st₁, child, ran, grows, has₁⟩
    obtain ⟨st₂, result₂, ran₂, grows₂, has₂, nonempty₂⟩ := ih grows₁.good has₁
    have sound : Sound P st₂ ((st.node trie).children.insert item result₂) :=
      ((grows₁.trans grows₂).sound (good.sound has)).insert has₂ fun _ => nonempty₂
    obtain ⟨st₃, result₃, ran₃, grows₃, has₃, isNode⟩ :=
      intern_spec grows₂.good { st.node trie with children := (st.node trie).children.insert item result₂ } sound
    refine ⟨st₃, result₃, ?_, (grows₁.trans grows₂).trans grows₃, has₃, ?_⟩
    · simp only [insert, isChild, ran₂, ran₃]
    · exact isEmpty_eq_false_iff.mpr (.inl ⟨item, result₂, by simp [isNode]⟩)

theorem removePrefix_spec (good : st.Good hash P) (has : st.Has trie) (sequence : List T) :
    ∃ st' result modified, st.removePrefix hash trie sequence = (st', result, modified) ∧ Grows hash P st st' ∧
      st'.Has result := by
  induction sequence generalizing st trie with
  | nil =>
    obtain ⟨st', empty, ran, grows, has', -⟩ := new_spec good
    rw [removePrefix, ran]
    dsimp only
    split_ifs
    · exact ⟨st', empty, true, rfl, grows, has'⟩
    · exact ⟨st', trie, false, rfl, grows, grows.has has⟩
  | cons item sequence ih =>
    rw [removePrefix]
    cases found : (st.node trie).children.get item with
    | none => exact ⟨st, trie, false, by simp, .refl good, has⟩
    | some child =>
      obtain ⟨st₁, child₁, modified, ran₁, grows₁, has₁⟩ := ih good (good.sound has item child found).1
      cases modified with
      | false => exact ⟨st₁, trie, false, by simp [ran₁], grows₁, grows₁.has has⟩
      | true =>
        have before := grows₁.sound (good.sound has)
        have sound : Sound P st₁ (if st₁.isEmpty child₁ then (st.node trie).children.erase item
            else (st.node trie).children.insert item child₁) := by
          split_ifs with empty
          · exact before.erase
          · exact before.insert has₁ fun _ => Bool.not_eq_true _ ▸ empty
        obtain ⟨st₂, result, ran₂, grows₂, has₂, -⟩ := intern_spec grows₁.good
          { st.node trie with
            children := if st₁.isEmpty child₁ then (st.node trie).children.erase item
              else (st.node trie).children.insert item child₁ } sound
        exact ⟨st₂, result, true, by simp [ran₁, ran₂], grows₁.trans grows₂, has₂⟩

theorem getSubtrie_spec (good : st.Good hash P) (has : st.Has trie) {sequence : List T}
    (found : st.getSubtrie trie sequence = some c) :
    st.Has c ∧ (P → sequence ≠ [] → st.isEmpty c = false) := by
  induction sequence generalizing trie with
  | nil =>
    obtain rfl := Option.some.inj found
    exact ⟨has, fun _ other => absurd rfl other⟩
  | cons item sequence ih =>
    obtain ⟨child, isChild, found⟩ := Option.bind_eq_some_iff.mp found
    obtain ⟨hasChild, nonempty⟩ := good.sound has item child isChild
    obtain ⟨hasC, deeper⟩ := ih hasChild found
    refine ⟨hasC, fun clean _ => ?_⟩
    cases sequence with
    | nil =>
      obtain rfl := Option.some.inj found
      exact nonempty clean
    | cons => exact deeper clean (List.cons_ne_nil _ _)

/-- Growing does not change what is below a trie. -/
theorem Grows.getSubtrie (good : st.Good hash P) (grows : Grows hash P st st') (has : st.Has trie) (sequence : List T) :
    st'.getSubtrie trie sequence = st.getSubtrie trie sequence := by
  induction sequence generalizing trie with
  | nil => rfl
  | cons item sequence ih =>
    rw [Interner.getSubtrie, Interner.getSubtrie, grows.node has]
    cases found : (st.node trie).children.get item with
    | none => rfl
    | some child => exact ih (good.sound has item child found).1

/-- Wrapping something that is not empty, or wrapping nothing, keeps children from being empty. -/
theorem wrap_spec (good : st.Good hash P) (has : st.Has trie) (items : List T)
    (clean : P → items ≠ [] → st.isEmpty trie = false) :
    ∃ st' result, st.wrap hash trie items = (st', result) ∧ Grows hash P st st' ∧ st'.Has result := by
  have fold : ∀ (items : List T) {st : Interner T V} {trie}, st.Good hash P → st.Has trie →
      (P → items ≠ [] → st.isEmpty trie = false) →
      ∃ st' result, items.foldl (fun (state : Interner T V × ℕ) item =>
          state.1.intern hash { children := SortedMap.empty.insert item state.2, value := none }) (st, trie) =
        (st', result) ∧ Grows hash P st st' ∧ st'.Has result := by
    intro items
    induction items with
    | nil => exact fun good has _ => ⟨_, _, rfl, .refl good, has⟩
    | cons item items ih =>
      intro st trie good has clean
      have bare : Sound P st SortedMap.empty := fun _ _ found => by simp at found
      obtain ⟨st₁, result₁, ran₁, grows₁, has₁, isNode⟩ := intern_spec good
        { children := SortedMap.empty.insert item trie, value := none }
        (bare.insert has fun p => clean p (List.cons_ne_nil _ _))
      have nonempty : st₁.isEmpty result₁ = false := isEmpty_eq_false_iff.mpr (.inl ⟨item, trie, by simp [isNode]⟩)
      obtain ⟨st₂, result₂, ran₂, grows₂, has₂⟩ := ih grows₁.good has₁ fun _ _ => nonempty
      exact ⟨st₂, result₂, by rw [List.foldl_cons, ran₁, ran₂], grows₁.trans grows₂, has₂⟩
  exact fold items.reverse good has fun p other => clean p (by simpa using other)

end Interner

open Interner

section Union

variable (merge : List (V × V) → V → V → V)

theorem unionValue_isSome {merged : List (V × V)} {value otherValue : Option V} (some : value.isSome) :
    (unionValue merge merged value otherValue).2.1.isSome := by
  obtain ⟨selfVal, rfl⟩ := Option.isSome_iff_exists.mp some
  cases otherValue with
  | none => rfl
  | some => rfl

/-- What the union of two tries does, where the second one was leaked before `bound`. -/
def UnionSpec (hash : Node T V → ℕ) (P : Prop) (bound : ℕ)
    (union : Unioning T V → ℕ → ℕ → Option (Unioning T V × ℕ)) : Prop :=
  ∀ (state : Unioning T V) (trie other : ℕ), state.interner.Good hash P → state.interner.Has trie →
    state.interner.Has other → other < bound →
    ∃ state' result, union state trie other = some (state', result) ∧
      Grows hash P state.interner state'.interner ∧ state'.interner.Has result ∧
      (state.interner.isEmpty trie = false → state'.interner.isEmpty result = false)

theorem unionChild_fold {bound : ℕ} {union : Unioning T V → ℕ → ℕ → Option (Unioning T V × ℕ)}
    (spec : UnionSpec hash P bound union) (entries : List (T × ℕ)) (loop : UnionLoop T V)
    (good : loop.state.interner.Good hash P) (sound : Sound P loop.state.interner loop.children)
    (others : ∀ e ∈ entries, e.2 < bound ∧ loop.state.interner.Has e.2 ∧ (P → loop.state.interner.isEmpty e.2 = false)) :
    ∃ loop', entries.foldlM (unionChild union) loop = some loop' ∧
      Grows hash P loop.state.interner loop'.state.interner ∧ Sound P loop'.state.interner loop'.children ∧
      ∀ item child, loop.children.get item = some child → ∃ child', loop'.children.get item = some child' := by
  induction entries generalizing loop with
  | nil => exact ⟨loop, rfl, .refl good, sound, fun item child found => ⟨child, found⟩⟩
  | cons entry entries ih =>
    obtain ⟨lt, hasOther, cleanOther⟩ := others entry (.head _)
    obtain ⟨next, ran, grows, soundNext, keys⟩ : ∃ next, unionChild union loop entry = some next ∧
        Grows hash P loop.state.interner next.state.interner ∧ Sound P next.state.interner next.children ∧
        ∀ item child, loop.children.get item = some child → ∃ child', next.children.get item = some child' := by
      have kept : ∀ (c : ℕ) item child, loop.children.get item = some child →
          ∃ child', (loop.children.insert entry.1 c).get item = some child' := by
        intro c item child found
        rw [SortedMap.get_insert]
        split_ifs
        exacts [⟨c, rfl⟩, ⟨child, found⟩]
      rw [unionChild]
      cases found : loop.children.get entry.1 with
      | none => exact ⟨_, rfl, .refl good, sound.insert hasOther cleanOther, kept entry.2⟩
      | some child =>
        obtain ⟨hasChild, clean⟩ := sound entry.1 child found
        obtain ⟨state, result, ran, grows, hasResult, nonempty⟩ :=
          spec loop.state child entry.2 good hasChild hasOther lt
        exact ⟨_, by simp only [ran, Option.bind_eq_bind, Option.bind_some]; rfl, grows,
          (grows.sound sound).insert hasResult fun p => nonempty (clean p), kept result⟩
    obtain ⟨last, rest, grows', soundLast, keys'⟩ := ih next grows.good soundNext fun e mem => by
      obtain ⟨lt, has, clean⟩ := others e (.tail _ mem)
      exact ⟨lt, grows.has has, fun p => (grows.isEmpty has).trans (clean p)⟩
    refine ⟨last, ?_, grows.trans grows', soundLast, fun item child found => ?_⟩
    · rw [List.foldlM_cons, ran]
      exact rest
    · obtain ⟨child', found'⟩ := keys item child found
      exact keys' item child' found'

theorem unionWithInternal_spec (fuel : ℕ) : UnionSpec hash P fuel (unionWithInternal hash merge fuel) := by
  induction fuel with
  | zero => exact fun _ _ _ _ _ _ lt => absurd lt (Nat.not_lt_zero _)
  | succ fuel ih =>
    intro state trie other good has hasOther lt
    rw [unionWithInternal]
    split_ifs with same
    · exact ⟨state, trie, rfl, .refl good, has, id⟩
    · obtain ⟨merged, value, modified, values⟩ : ∃ merged value modified, unionValue merge state.merged
          (state.interner.node trie).value (state.interner.node other).value = (merged, value, modified) := ⟨_, _, _, rfl⟩
      obtain ⟨loop, ran, grows, sound, keys⟩ := unionChild_fold ih (state.interner.node other).children.entries
        { state := { state with merged }, children := (state.interner.node trie).children, modified } good
        (good.sound has) (by
          rintro ⟨item, child⟩ mem
          have found := SortedMap.mem_entries.mp mem
          obtain ⟨hasChild, clean⟩ := good.sound hasOther item child found
          have below := good.below other hasOther item child found
          exact ⟨by omega, hasChild, clean⟩)
      simp only [values, ran, Option.bind_eq_bind, Option.bind_some]
      split_ifs
      · obtain ⟨st', result, interned, grows', has', isNode⟩ :=
          intern_spec grows.good { children := loop.children, value } sound
        rw [interned]
        refine ⟨_, result, rfl, grows.trans grows', has', fun nonempty => ?_⟩
        rw [isEmpty_eq_false_iff] at nonempty ⊢
        rcases nonempty with ⟨item, child, found⟩ | ⟨val, isVal⟩
        · obtain ⟨child', found'⟩ := keys item child found
          exact .inl ⟨item, child', by simpa only [isNode] using found'⟩
        · have some : (unionValue merge state.merged (state.interner.node trie).value
              (state.interner.node other).value).2.1.isSome := unionValue_isSome merge (by simp [isVal])
          rw [values] at some
          obtain ⟨val', isVal'⟩ := Option.isSome_iff_exists.mp some
          exact .inr ⟨val', by simpa only [isNode] using isVal'⟩
      · exact ⟨loop.state, trie, rfl, grows, grows.has has, fun nonempty => (grows.isEmpty has).trans nonempty⟩

theorem Interner.unionWith_spec (good : st.Good hash P) (has : st.Has trie) (hasOther : st.Has other) :
    ∃ st' result, st.unionWith hash merge trie other = some (st', result) ∧ Grows hash P st st' ∧ st'.Has result := by
  obtain ⟨state, result, ran, grows, has', -⟩ := unionWithInternal_spec merge (other + 1)
    { interner := st, merged := [] } trie other good has hasOther (Nat.lt_succ_self _)
  exact ⟨state.interner, result, by simp [unionWith, ran], grows, has'⟩

end Union

section Filter

variable (predicate : List (List T × V) → List T → V → Bool)

/-- What the filter of a trie does that was leaked before `bound`. -/
def FilterSpec (hash : Node T V → ℕ) (P : Prop) (bound : ℕ)
    (filter : Filtering T V → ℕ → List T → Option (Filtering T V × ℕ)) : Prop :=
  ∀ (state : Filtering T V) (trie : ℕ) (current : List T), state.interner.Good hash P → state.interner.Has trie →
    trie < bound → ∃ state' result, filter state trie current = some (state', result) ∧
      Grows hash P state.interner state'.interner ∧ state'.interner.Has result

theorem filterChild_fold {bound : ℕ} {filter : Filtering T V → ℕ → List T → Option (Filtering T V × ℕ)}
    (spec : FilterSpec hash P bound filter) (current : List T) (entries : List (T × ℕ)) (state : Filtering T V)
    (children : SortedMap T ℕ) (good : state.interner.Good hash P) (sound : Sound P state.interner children)
    (bounded : ∀ e ∈ entries, e.2 < bound ∧ state.interner.Has e.2) :
    ∃ state' children', entries.foldlM (filterChild filter current) (state, children) = some (state', children') ∧
      Grows hash P state.interner state'.interner ∧ Sound P state'.interner children' := by
  induction entries generalizing state children with
  | nil => exact ⟨state, children, rfl, .refl good, sound⟩
  | cons entry entries ih =>
    obtain ⟨lt, has⟩ := bounded entry (.head _)
    obtain ⟨next, filtered, ran, grows, hasFiltered⟩ := spec state entry.2 (current ++ [entry.1]) good has lt
    have soundNext : Sound P next.interner
        (if next.interner.isEmpty filtered then children else children.insert entry.1 filtered) := by
      split_ifs with empty
      · exact grows.sound sound
      · exact (grows.sound sound).insert hasFiltered fun _ => Bool.not_eq_true _ ▸ empty
    obtain ⟨last, children', rest, grows', soundLast⟩ := ih next _ grows.good soundNext fun e mem => by
      obtain ⟨lt, has⟩ := bounded e (.tail _ mem)
      exact ⟨lt, grows.has has⟩
    refine ⟨last, children', ?_, grows.trans grows', soundLast⟩
    rw [List.foldlM_cons, filterChild, ran]
    exact rest

theorem filterRecursive_spec (fuel : ℕ) : FilterSpec hash P fuel (filterRecursive hash predicate fuel) := by
  induction fuel with
  | zero => exact fun _ _ _ _ _ lt => absurd lt (Nat.not_lt_zero _)
  | succ fuel ih =>
    intro state trie current good has lt
    obtain ⟨asked, isAsked⟩ : ∃ asked, asked = state.asked ++
      ((state.interner.node trie).value.map fun val => (current, val)).toList := ⟨_, rfl⟩
    obtain ⟨next, children, ran, grows, sound⟩ := filterChild_fold ih current
      (state.interner.node trie).children.entries { state with asked } .empty good
      (fun _ _ found => by simp at found) (by
        rintro ⟨item, child⟩ mem
        have found := SortedMap.mem_entries.mp mem
        have below := good.below trie has item child found
        exact ⟨by omega, (good.sound has item child found).1⟩)
    obtain ⟨st', result, interned, grows', has', -⟩ := intern_spec grows.good
      { children, value := (state.interner.node trie).value.filter (predicate state.asked current) } sound
    refine ⟨{ next with interner := st' }, result, ?_, grows.trans grows', has'⟩
    simp only [filterRecursive, ← isAsked, ran, Option.bind_eq_bind, Option.bind_some, interned]

theorem Interner.filter_spec (good : st.Good hash P) (has : st.Has trie) :
    ∃ st' result, st.filter hash predicate trie = some (st', result) ∧ Grows hash P st st' ∧ st'.Has result := by
  obtain ⟨state, result, ran, grows, has'⟩ := filterRecursive_spec predicate (trie + 1)
    { interner := st, asked := [] } trie [] good has (Nat.lt_succ_self _)
  exact ⟨state.interner, result, by simp [filter, ran], grows, has'⟩

end Filter

section Intersection

/-- What the intersection with a trie does, the first one leaked before `bound`. -/
def IntersectSpec (hash : Node T V → ℕ) (P : Prop) (bound : ℕ)
    (intersection : Interner T V → ℕ → ℕ → Option (Interner T V × ℕ)) : Prop :=
  ∀ (st : Interner T V) (trie other : ℕ), st.Good hash P → st.Has trie → st.Has other → trie < bound →
    ∃ st' result, intersection st trie other = some (st', result) ∧ Grows hash P st st' ∧ st'.Has result

/-- Children all of which are sound once the listed keys are removed. -/
def SoundBut (P : Prop) (st : Interner T V) (keys : List T) (children : SortedMap T ℕ) : Prop :=
  ∀ item child, children.get item = some child → st.Has child ∧ (P → item ∉ keys → st.isEmpty child = false)

theorem SoundBut.grows {keys : List T} (sound : SoundBut P st keys children) (grows : Grows hash P st st') :
    SoundBut P st' keys children := by
  intro item child found
  obtain ⟨has, clean⟩ := sound item child found
  exact ⟨grows.has has, fun p other => (grows.isEmpty has).trans (clean p other)⟩

theorem SoundBut.erase {keys : List T} (sound : SoundBut P st keys children) :
    Sound P st (keys.foldl SortedMap.erase children) := by
  induction keys generalizing children with
  | nil =>
    intro item child found
    obtain ⟨has, clean⟩ := sound item child found
    exact ⟨has, fun p => clean p List.not_mem_nil⟩
  | cons key keys ih =>
    apply ih
    intro item child found
    rw [SortedMap.get_erase] at found
    split_ifs at found with same
    obtain ⟨has, clean⟩ := sound item child found
    exact ⟨has, fun p other => clean p (by simp [same, other])⟩

theorem intersectChild_fold {bound : ℕ} {intersection : Interner T V → ℕ → ℕ → Option (Interner T V × ℕ)}
    (spec : IntersectSpec hash P bound intersection) (others : SortedMap T ℕ) (entries : List (T × ℕ))
    (loop : IntersectLoop T V) (good : loop.interner.Good hash P)
    (sound : SoundBut P loop.interner loop.keysToRemove loop.children)
    (hasOthers : ∀ item child, others.get item = some child → loop.interner.Has child)
    (bounded : ∀ e ∈ entries, e.2 < bound ∧ loop.interner.Has e.2) :
    ∃ loop', entries.foldlM (intersectChild intersection others) loop = some loop' ∧
      Grows hash P loop.interner loop'.interner ∧ SoundBut P loop'.interner loop'.keysToRemove loop'.children := by
  induction entries generalizing loop with
  | nil => exact ⟨loop, rfl, .refl good, sound⟩
  | cons entry entries ih =>
    obtain ⟨lt, has⟩ := bounded entry (.head _)
    obtain ⟨next, ran, grows, soundNext⟩ : ∃ next, intersectChild intersection others loop entry = some next ∧
        Grows hash P loop.interner next.interner ∧ SoundBut P next.interner next.keysToRemove next.children := by
      rw [intersectChild]
      cases found : others.get entry.1 with
      | none =>
        refine ⟨_, rfl, .refl good, fun item child isChild => ?_⟩
        obtain ⟨has, clean⟩ := sound item child isChild
        exact ⟨has, fun p other => clean p fun mem => other (List.mem_append_left _ mem)⟩
      | some otherChild =>
        obtain ⟨st', child, ran, grows, hasChild⟩ :=
          spec loop.interner entry.2 otherChild good has (hasOthers _ _ found) lt
        have before := sound.grows grows
        simp only [ran, Option.bind_eq_bind, Option.bind_some]
        split_ifs with empty
        · refine ⟨_, rfl, grows, fun item c isChild => ?_⟩
          dsimp only at isChild ⊢
          rw [SortedMap.get_insert] at isChild
          split_ifs at isChild with same
          · obtain rfl := Option.some.inj isChild
            exact ⟨hasChild, fun _ other => absurd (by simp [same]) other⟩
          · obtain ⟨has, clean⟩ := before item c isChild
            exact ⟨has, fun p other => clean p fun mem => other (List.mem_append_left _ mem)⟩
        · refine ⟨_, rfl, grows, fun item c isChild => ?_⟩
          dsimp only at isChild ⊢
          rw [SortedMap.get_insert] at isChild
          split_ifs at isChild with same
          · obtain rfl := Option.some.inj isChild
            exact ⟨hasChild, fun _ _ => Bool.not_eq_true _ ▸ empty⟩
          · exact before item c isChild
    obtain ⟨last, rest, grows', soundLast⟩ := ih next grows.good soundNext
      (fun item child found => grows.has (hasOthers item child found)) fun e mem => by
        obtain ⟨lt, has⟩ := bounded e (.tail _ mem)
        exact ⟨lt, grows.has has⟩
    refine ⟨last, ?_, grows.trans grows', soundLast⟩
    rw [List.foldlM_cons, ran]
    exact rest

theorem intersectionFrom_spec (fuel : ℕ) :
    IntersectSpec (T := T) (V := V) hash P fuel (intersectionFrom hash fuel) := by
  induction fuel with
  | zero => exact fun _ _ _ _ _ _ lt => absurd lt (Nat.not_lt_zero _)
  | succ fuel ih =>
    intro st trie other good has hasOther lt
    rw [intersectionFrom]
    split_ifs with same
    · exact ⟨st, trie, rfl, .refl good, has⟩
    · obtain ⟨dropped, isDropped⟩ : ∃ dropped,
          ((st.node trie).value.isSome && (st.node other).value.isNone) = dropped := ⟨_, rfl⟩
      obtain ⟨loop, ran, grows, sound⟩ := intersectChild_fold ih (st.node other).children
        (st.node trie).children.entries
        { interner := st, children := (st.node trie).children, keysToRemove := [], modified := dropped } good
        (fun item child found => by
          obtain ⟨has, clean⟩ := good.sound has item child found
          exact ⟨has, fun p _ => clean p⟩)
        (fun item child found => (good.sound hasOther item child found).1) (by
          rintro ⟨item, child⟩ mem
          have found := SortedMap.mem_entries.mp mem
          have below := good.below trie has item child found
          exact ⟨by omega, (good.sound has item child found).1⟩)
      simp only [isDropped, ran, Option.bind_eq_bind, Option.bind_some]
      split_ifs
      all_goals first
        | exact ⟨loop.interner, trie, rfl, grows, grows.has has⟩
        | obtain ⟨st', result, interned, grows', has', -⟩ := intern_spec grows.good
            { children := loop.keysToRemove.foldl SortedMap.erase loop.children, value := _ } sound.erase
          exact ⟨st', result, by rw [interned], grows.trans grows', has'⟩

theorem Interner.intersection_spec (good : st.Good hash P) (has : st.Has trie) (hasOther : st.Has other) :
    ∃ st' result, st.intersection hash trie other = some (st', result) ∧ Grows hash P st st' ∧ st'.Has result :=
  intersectionFrom_spec (trie + 1) st trie other good has hasOther (Nat.lt_succ_self _)

end Intersection

theorem Interner.substitutePrefix_spec (good : st.Good hash P) (has : st.Has trie) (oldPrefix newPrefix : List T)
    (clean : P → oldPrefix = [] → newPrefix ≠ [] → st.isEmpty trie = false) :
    ∃ st' result, st.substitutePrefix hash trie oldPrefix newPrefix = some (st', result) ∧ Grows hash P st st' ∧
      ∀ r, result = some r → st'.Has r := by
  rw [substitutePrefix]
  cases found : st.getSubtrie trie oldPrefix with
  | none => exact ⟨st, none, rfl, .refl good, by simp⟩
  | some substituted =>
    obtain ⟨hasSub, nonempty⟩ := getSubtrie_spec good has found
    obtain ⟨st₁, removed, modified, ran₁, grows₁, has₁⟩ := removePrefix_spec good has oldPrefix
    obtain ⟨st₂, wrapped, ran₂, grows₂, has₂⟩ := wrap_spec grows₁.good (grows₁.has hasSub) newPrefix (by
      intro p other
      rw [grows₁.isEmpty hasSub]
      cases oldPrefix with
      | nil =>
        obtain rfl := Option.some.inj found
        exact clean p rfl other
      | cons => exact nonempty p (List.cons_ne_nil _ _))
    obtain ⟨st₃, result, ran₃, grows₃, has₃⟩ :=
      unionWith_spec (fun _ _ otherVal => otherVal) grows₂.good (grows₂.has has₁) has₂
    refine ⟨st₃, some result, ?_, (grows₁.trans grows₂).trans grows₃, fun r same => Option.some.inj same ▸ has₃⟩
    simp only [ran₁, ran₂, union, ran₃, Option.bind_eq_bind, Option.bind_some]

end Ctadl.Trie
