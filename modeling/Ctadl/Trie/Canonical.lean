import Ctadl.Trie.Interning
import Mathlib.Order.Nat

/-! # Tries are canonical unless an empty one is wrapped

Without empty children a trie denotes no other trie's map (`Good.eq_of_get`). Only `substitutePrefix`
can make an empty child: it wraps whatever is at the prefix, and the empty prefix of the empty trie is
the empty trie. The union with what remains then takes the wrapped trie over unexamined.
-/

set_option linter.unusedSectionVars false

namespace Ctadl.Trie

open Collections Function Interner

variable {T V : Type} [LinearOrder T] [DecidableEq V] {hash : Node T V → ℕ} {P : Prop}
  {st st' : Interner T V} {trie a b : ℕ} {item : T}

namespace Interner

section Denotation

variable (good : st.Good hash True)
include good

/-- A trie that is not empty has a sequence. -/
theorem Good.exists_get (has : st.Has trie) (nonempty : st.isEmpty trie = false) :
    ∃ sequence value, st.get trie sequence = some value := by
  induction trie using Nat.strong_induction_on with
  | _ trie ih =>
    rcases isEmpty_eq_false_iff.mp nonempty with ⟨item, child, found⟩ | ⟨value, isVal⟩
    · obtain ⟨hasChild, clean⟩ := good.sound has item child found
      obtain ⟨sequence, value, isVal⟩ := ih child (good.below trie has item child found) hasChild (clean trivial)
      exact ⟨item :: sequence, value, by simpa [get, getSubtrie, found] using isVal⟩
    · exact ⟨[], value, by simpa [get, getSubtrie] using isVal⟩

/-- Two tries that denote the same finite map are the same trie. -/
theorem Good.eq_of_get (hasA : st.Has a) (hasB : st.Has b)
    (same : ∀ sequence, st.get a sequence = st.get b sequence) : a = b := by
  induction a using Nat.strong_induction_on generalizing b with
  | _ a ih =>
    have child_iff : ∀ {a b}, st.Has a → st.Has b → (∀ sequence, st.get a sequence = st.get b sequence) →
        ∀ {item c}, (st.node a).children.get item = some c →
          ∃ d, (st.node b).children.get item = some d ∧ ∀ sequence, st.get c sequence = st.get d sequence := by
      intro a b hasA hasB same item c found
      obtain ⟨hasC, clean⟩ := good.sound hasA item c found
      obtain ⟨sequence, value, isVal⟩ := good.exists_get hasC (clean trivial)
      have inB := same (item :: sequence)
      rw [show st.get a (item :: sequence) = st.get c sequence by simp [get, getSubtrie, found], isVal] at inB
      cases found' : (st.node b).children.get item with
      | none => simp [get, getSubtrie, found'] at inB
      | some d =>
        refine ⟨d, rfl, fun sequence => ?_⟩
        simpa [get, getSubtrie, found, found'] using same (item :: sequence)
    have children : (st.node a).children = (st.node b).children := by
      apply SortedMap.ext_get
      intro item
      cases found : (st.node a).children.get item with
      | none =>
        cases found' : (st.node b).children.get item with
        | none => rfl
        | some d =>
          obtain ⟨c, isChild, -⟩ := child_iff hasB hasA (fun sequence => (same sequence).symm) found'
          simp [found] at isChild
      | some c =>
        obtain ⟨d, found', sameChild⟩ := child_iff hasA hasB same found
        have hasD := (good.sound hasB item d found').1
        have eq := ih c (good.below a hasA item c found) (good.sound hasA item c found).1 hasD sameChild
        rw [found', eq]
    have value : (st.node a).value = (st.node b).value := by simpa [get, getSubtrie] using same []
    have nodes : st.node a = st.node b := by
      cases isA : st.node a
      cases isB : st.node b
      simp_all
    apply (List.getElem?_inj hasA good.nodup).mp
    rw [leaked_node hasA, leaked_node hasB, nodes]

end Denotation

section Len

variable (good : st.Good hash P)
include good

private theorem Good.lenFrom_eq (has : st.Has trie) {fuel fuel' : ℕ} (enough : trie < fuel) (enough' : trie < fuel') :
    st.lenFrom fuel trie = st.lenFrom fuel' trie := by
  induction fuel generalizing trie fuel' with
  | zero => exact absurd enough (Nat.not_lt_zero _)
  | succ fuel ih =>
    cases fuel' with
    | zero => exact absurd enough' (Nat.not_lt_zero _)
    | succ fuel' =>
      rw [lenFrom, lenFrom]
      congr 2
      apply List.map_congr_left
      rintro ⟨item, child⟩ mem
      have found := SortedMap.mem_entries.mp mem
      have below := good.below trie has item child found
      exact ih (good.sound has item child found).1 (by omega) (by omega)

/-- The fuel of `len` suffices: it adds up the lengths of the children. -/
theorem Good.len_eq (has : st.Has trie) :
    st.len trie = (if (st.node trie).value.isSome then 1 else 0) +
      ((st.node trie).children.entries.map fun e => st.len e.2).sum := by
  rw [len, lenFrom]
  congr 2
  apply List.map_congr_left
  rintro ⟨item, child⟩ mem
  have found := SortedMap.mem_entries.mp mem
  have below := good.below trie has item child found
  exact good.lenFrom_eq (good.sound has item child found).1 below (Nat.lt_succ_self _)

end Len

theorem Good.isEmpty_iff_len (good : st.Good hash True) (has : st.Has trie) :
    st.isEmpty trie = true ↔ st.len trie = 0 := by
  constructor
  · intro empty
    obtain ⟨children, value⟩ := isEmpty_iff.mp empty
    rw [good.len_eq has, value, SortedMap.entries_eq_nil.mpr children]
    rfl
  · intro zero
    by_contra nonempty
    have positive : 0 < st.len trie := by
      clear zero
      induction trie using Nat.strong_induction_on with
      | _ trie ih =>
        rw [good.len_eq has]
        rcases isEmpty_eq_false_iff.mp (Bool.not_eq_true _ ▸ nonempty) with ⟨item, child, found⟩ | ⟨value, isVal⟩
        · obtain ⟨hasChild, clean⟩ := good.sound has item child found
          have one := ih child (good.below trie has item child found) hasChild (by simp [clean trivial])
          have mem : st.len child ∈ (st.node trie).children.entries.map fun e => st.len e.2 :=
            List.mem_map.mpr ⟨(item, child), SortedMap.mem_entries.mpr found, rfl⟩
          exact Nat.add_pos_right _ (List.sum_pos_iff_exists_pos_nat.mpr ⟨_, mem, one⟩)
        · rw [isVal]
          exact Nat.add_pos_left Nat.one_pos _
    omega

end Interner

namespace Interner

section WrapEmpty

/-- The trie at a nonempty sequence is empty. -/
def EmptyChild (st : Interner T V) (trie : ℕ) : Prop :=
  ∃ sequence child, sequence ≠ [] ∧ st.getSubtrie trie sequence = some child ∧ st.isEmpty child = true

theorem Good.weaken (good : st.Good hash P) : st.Good hash False :=
  ⟨good.nodup, good.filed, good.below, False.elim⟩

theorem node_of_isEmpty (empty : st.isEmpty trie = true) : st.node trie = emptyNode := by
  obtain ⟨children, value⟩ := isEmpty_iff.mp empty
  have none : (st.node trie).children = SortedMap.empty := SortedMap.ext_get fun item => by simp [children item]
  cases isNode : st.node trie
  simp_all [emptyNode]

theorem getSubtrie_cons (sequence : List T) : st.getSubtrie trie (item :: sequence) =
    ((st.node trie).children.get item).bind fun child => st.getSubtrie child sequence := rfl

variable (good : st.Good hash False)
include good

/-- The wrapped trie is found below all of the new prefix. -/
theorem wrap_getSubtrie (has : st.Has trie) (items : List T) (wraps : items ≠ []) :
    ∃ st' result item child, st.wrap hash trie items = (st', result) ∧ Grows hash False st st' ∧ st'.Has result ∧
      st'.getSubtrie result items = some trie ∧
      st'.node result = { children := SortedMap.empty.insert item child, value := none } := by
  have fold : ∀ (items rest : List T) {st : Interner T V} {current}, st.Good hash False → st.Has current →
      st.Has trie → st.getSubtrie current rest = some trie →
      (items = [] → ∃ item child, st.node current = { children := SortedMap.empty.insert item child, value := none }) →
      ∃ st' result item child,
        items.foldl (fun (state : Interner T V × ℕ) item =>
          state.1.intern hash { children := SortedMap.empty.insert item state.2, value := none }) (st, current) =
          (st', result) ∧ Grows hash False st st' ∧ st'.Has result ∧
        st'.getSubtrie result (items.reverse ++ rest) = some trie ∧
        st'.node result = { children := SortedMap.empty.insert item child, value := none } := by
    intro items
    induction items with
    | nil =>
      intro rest st current good has _ below shape
      obtain ⟨item, child, isNode⟩ := shape rfl
      exact ⟨st, current, item, child, rfl, .refl good, has, below, isNode⟩
    | cons item items ih =>
      intro rest st current good has hasTrie below _
      have bare : Sound False st SortedMap.empty := fun _ _ found => by simp at found
      obtain ⟨st₁, result₁, ran₁, grows₁, has₁, isNode⟩ := intern_spec good
        { children := SortedMap.empty.insert item current, value := none } (bare.insert has False.elim)
      have below₁ : st₁.getSubtrie result₁ (item :: rest) = some trie := by
        rw [getSubtrie_cons, isNode, SortedMap.get_insert_self, Option.bind_some, grows₁.getSubtrie good has, below]
      obtain ⟨st₂, result₂, item', child', ran₂, grows₂, has₂, below₂, isNode₂⟩ :=
        ih (item :: rest) grows₁.good has₁ (grows₁.has hasTrie) below₁ fun _ => ⟨item, current, isNode⟩
      refine ⟨st₂, result₂, item', child', by rw [List.foldl_cons, ran₁, ran₂], grows₁.trans grows₂, has₂, ?_, isNode₂⟩
      rwa [List.reverse_cons, List.append_assoc, List.singleton_append]
  obtain ⟨st', result, item, child, ran, grows, has', below, isNode⟩ :=
    fold items.reverse [] good has has rfl fun isNil => absurd (List.reverse_eq_nil_iff.mp isNil) wraps
  rw [List.reverse_reverse, List.append_nil] at below
  exact ⟨st', result, item, child, ran, grows, has', below, isNode⟩

/-- The union of the empty trie with one child takes that child over unexamined. -/
theorem union_empty {wrapped child : ℕ} (hasWrapped : st.Has wrapped)
    (empty : st.node trie = emptyNode)
    (isNode : st.node wrapped = { children := SortedMap.empty.insert item child, value := none }) :
    ∃ st' result, st.union hash trie wrapped = some (st', result) ∧ Grows hash False st st' ∧ st'.Has result ∧
      st'.node result = st.node wrapped := by
  have other : trie ≠ wrapped := by
    rintro rfl
    have same := congrArg (fun node => node.children.get item) (empty.symm.trans isNode)
    simp [emptyNode] at same
  obtain ⟨st', result, interned, grows, has', isNode'⟩ := intern_spec good (st.node wrapped) (good.sound hasWrapped)
  refine ⟨st', result, ?_, grows, has', isNode'⟩
  have entries : (SortedMap.empty.insert item child : SortedMap T ℕ).entries = [(item, child)] := rfl
  rw [isNode] at interned
  simp only [union, unionWith, unionWithInternal, if_neg other, empty, isNode, emptyNode, unionValue, entries,
    List.foldlM_cons, List.foldlM_nil, unionChild, SortedMap.get_empty, Option.bind_eq_bind, Option.bind_some,
    Option.pure_def, if_true, interned]

end WrapEmpty

/-- Wrapping the empty trie leaves an empty child. -/
theorem substitutePrefix_wrapsEmpty (good : st.Good hash P) (has : st.Has trie) (empty : st.isEmpty trie = true)
    {newPrefix : List T} (wraps : newPrefix ≠ []) :
    ∃ st' result, st.substitutePrefix hash trie [] newPrefix = some (st', some result) ∧
      st'.EmptyChild result := by
  obtain ⟨st₀, isNew, ranNew, grows₀, has₀, isEmptyNode⟩ := new_spec good.weaken
  obtain ⟨removed, modified, ran₁, has₁, empty₁⟩ : ∃ removed modified,
      st.removePrefix hash trie [] = (st₀, removed, modified) ∧ st₀.Has removed ∧ st₀.node removed = emptyNode := by
    rw [removePrefix, ranNew]
    dsimp only
    split_ifs
    · exact ⟨isNew, true, rfl, has₀, isEmptyNode⟩
    · exact ⟨trie, false, rfl, grows₀.has has, (grows₀.node has).trans (node_of_isEmpty empty)⟩
  obtain ⟨st₂, wrapped, item, child, ran₂, grows₂, has₂, below, isNode⟩ :=
    wrap_getSubtrie grows₀.good (grows₀.has has) newPrefix wraps
  obtain ⟨st₃, result, ran₃, grows₃, has₃, same⟩ :=
    union_empty grows₂.good has₂ ((grows₂.node has₁).trans empty₁) isNode
  refine ⟨st₃, result, ?_, newPrefix, trie, wraps, ?_, ?_⟩
  · simp only [substitutePrefix, getSubtrie, ran₁, ran₂, ran₃, Option.bind_eq_bind, Option.bind_some]
  · obtain ⟨item, rest, rfl⟩ := List.exists_cons_of_ne_nil wraps
    have kept := grows₃.getSubtrie grows₂.good has₂ (item :: rest)
    rw [getSubtrie_cons, grows₃.node has₂, ← same, below] at kept
    exact kept
  · rw [grows₃.isEmpty (grows₂.has (grows₀.has has)), grows₂.isEmpty (grows₀.has has), grows₀.isEmpty has, empty]

end Interner

namespace Session

variable {session session' : Session T V} {op : Op T V} {ops : List (Op T V)}

/-- The interner is good and has all tries that were handed out. -/
structure Good (hash : Node T V → ℕ) (P : Prop) (session : Session T V) : Prop where
  interner : session.interner.Good hash P
  has : ∀ trie ∈ session.tries, session.interner.Has trie

/-- A later session has all tries of an earlier one. -/
structure Extends (hash : Node T V → ℕ) (P : Prop) (session session' : Session T V) : Prop where
  good : session'.Good hash P
  grows : Grows hash P session.interner session'.interner
  tries : session.tries <+: session'.tries

theorem Extends.refl (good : session.Good hash P) : session.Extends hash P session :=
  ⟨good, .refl good.interner, List.prefix_rfl⟩

theorem Extends.trans {session'' : Session T V} (first : session.Extends hash P session')
    (second : session'.Extends hash P session'') : session.Extends hash P session'' :=
  ⟨second.good, first.grows.trans second.grows, first.tries.trans second.tries⟩

theorem Good.give (good : session.Good hash P) (grows : Grows hash P session.interner st') (has : st'.Has trie) :
    session.Extends hash P (session.give (st', trie)) := by
  refine ⟨⟨grows.good, fun t mem => ?_⟩, grows, List.prefix_append _ _⟩
  rcases List.mem_append.mp mem with old | new
  · exact grows.has (good.has t old)
  · exact List.mem_singleton.mp new ▸ has

/-- The operation wraps an empty trie under a new prefix. -/
def WrapsEmpty (session : Session T V) : Op T V → Prop
  | .substitutePrefix i oldPrefix newPrefix => oldPrefix = [] ∧ newPrefix ≠ [] ∧
    ∃ trie, session.tries[i]? = some trie ∧ session.interner.isEmpty trie = true
  | _ => False

/-- No operation of the run wraps an empty trie. -/
def NeverWrapsEmpty (hash : Node T V → ℕ) : Session T V → List (Op T V) → Prop
  | _, [] => True
  | session, op :: ops => ¬ session.WrapsEmpty op ∧
    ∀ session', session.step hash op = some session' → NeverWrapsEmpty hash session' ops

theorem step_spec (good : session.Good hash P) (clean : P → ¬ session.WrapsEmpty op) :
    ∃ session', session.step hash op = some session' ∧ session.Extends hash P session' := by
  have has : ∀ {i trie}, session.tries[i]? = some trie → session.interner.Has trie :=
    fun found => good.has _ (List.mem_of_getElem? found)
  cases op with
  | new =>
    obtain ⟨st', result, ran, grows, has', -⟩ := new_spec good.interner
    exact ⟨_, by rw [step, ran], good.give grows has'⟩
  | insert i sequence value =>
    cases found : session.tries[i]? with
    | none => exact ⟨session, by simp [step, found], .refl good⟩
    | some trie =>
      obtain ⟨st', result, ran, grows, has', -⟩ := insert_spec good.interner (has found) sequence value
      exact ⟨_, by simp only [step, found, ran], good.give grows has'⟩
  | removePrefix i sequence =>
    cases found : session.tries[i]? with
    | none => exact ⟨session, by simp [step, found], .refl good⟩
    | some trie =>
      obtain ⟨st', result, modified, ran, grows, has'⟩ := removePrefix_spec good.interner (has found) sequence
      exact ⟨_, by simp only [step, found, ran], good.give grows has'⟩
  | substitutePrefix i oldPrefix newPrefix =>
    cases found : session.tries[i]? with
    | none => exact ⟨session, by simp [step, found], .refl good⟩
    | some trie =>
      obtain ⟨st', result, ran, grows, has'⟩ := substitutePrefix_spec good.interner (has found)
        oldPrefix newPrefix fun p isNil other => by
          by_contra empty
          exact clean p ⟨isNil, other, trie, found, by simpa using empty⟩
      cases result with
      | none =>
        refine ⟨{ session with interner := st' }, by simp [step, found, ran], ⟨grows.good, ?_⟩, grows, List.prefix_rfl⟩
        exact fun t mem => grows.has (good.has t mem)
      | some result => exact ⟨_, by simp [step, found, ran], good.give grows (has' result rfl)⟩
  | unionWith i j merge =>
    cases found : session.tries[i]? with
    | none => exact ⟨session, by simp [step, found], .refl good⟩
    | some trie =>
      cases found' : session.tries[j]? with
      | none => exact ⟨session, by simp [step, found, found'], .refl good⟩
      | some other =>
        obtain ⟨st', result, ran, grows, has'⟩ := unionWith_spec merge good.interner (has found) (has found')
        exact ⟨_, by simp [step, found, found', ran], good.give grows has'⟩
  | intersection i j =>
    cases found : session.tries[i]? with
    | none => exact ⟨session, by simp [step, found], .refl good⟩
    | some trie =>
      cases found' : session.tries[j]? with
      | none => exact ⟨session, by simp [step, found, found'], .refl good⟩
      | some other =>
        obtain ⟨st', result, ran, grows, has'⟩ := intersection_spec good.interner (has found) (has found')
        exact ⟨_, by simp [step, found, found', ran], good.give grows has'⟩
  | filter i predicate =>
    cases found : session.tries[i]? with
    | none => exact ⟨session, by simp [step, found], .refl good⟩
    | some trie =>
      obtain ⟨st', result, ran, grows, has'⟩ := filter_spec predicate good.interner (has found)
      exact ⟨_, by simp [step, found, ran], good.give grows has'⟩
  | getSubtrie i sequence =>
    cases found : session.tries[i]? with
    | none => exact ⟨session, by simp [step, found], .refl good⟩
    | some trie =>
      cases isSub : session.interner.getSubtrie trie sequence with
      | none => exact ⟨session, by simp [step, found, isSub], .refl good⟩
      | some result =>
        have has' := (getSubtrie_spec good.interner (has found) isSub).1
        exact ⟨_, by simp [step, found, isSub], good.give (.refl good.interner) has'⟩

theorem step_wrapsEmpty (good : session.Good hash P) (wraps : session.WrapsEmpty op)
    (ran : session.step hash op = some session') :
    ∃ trie ∈ session'.tries, session'.interner.EmptyChild trie := by
  cases op with
  | substitutePrefix i oldPrefix newPrefix =>
    obtain ⟨rfl, other, trie, found, empty⟩ := wraps
    obtain ⟨st', result, substituted, emptyChild⟩ := substitutePrefix_wrapsEmpty good.interner
      (good.has trie (List.mem_of_getElem? found)) empty other
    obtain rfl : session.give (st', result) = session' := by
      simpa [step, found, substituted] using ran
    exact ⟨result, List.mem_append_right _ (List.mem_singleton_self _), emptyChild⟩
  | _ => exact wraps.elim

/-- Every run returns, and keeps all tries it has handed out. -/
theorem run_extends (good : session.Good hash P) (clean : P → NeverWrapsEmpty hash session ops) :
    ∃ session', session.run hash ops = some session' ∧ session.Extends hash P session' := by
  induction ops generalizing session with
  | nil => exact ⟨session, rfl, .refl good⟩
  | cons op ops ih =>
    obtain ⟨mid, ran, extends_⟩ := step_spec good fun p => (clean p).1
    obtain ⟨last, rest, further⟩ := ih extends_.good fun p => (clean p).2 mid ran
    refine ⟨last, ?_, extends_.trans further⟩
    rw [run, List.foldlM_cons, ran]
    exact rest

/-- What wrapping an empty trie leaves and every later operation keeps, a run that wraps one ends with. -/
theorem run_of_wraps (left : Session T V → Prop) (good : session.Good hash True)
    (here : ∀ (session : Session T V) op session', session.Good hash True → session.WrapsEmpty op →
      session.step hash op = some session' → left session')
    (kept : ∀ session session' : Session T V, session.Good hash False → session.Extends hash False session' → left session →
      left session')
    (wraps : ¬ NeverWrapsEmpty hash session ops) (ran : session.run hash ops = some session') : left session' := by
  induction ops generalizing session with
  | nil => exact absurd trivial wraps
  | cons op ops ih =>
    rw [run, List.foldlM_cons] at ran
    obtain ⟨mid, first, rest⟩ := Option.bind_eq_some_iff.mp ran
    by_cases wrapped : session.WrapsEmpty op
    · have weak : session.Good hash False := ⟨good.interner.weaken, good.has⟩
      obtain ⟨mid', again, extends_⟩ := step_spec weak False.elim
      obtain rfl := Option.some.inj (first.symm.trans again)
      obtain ⟨last, rest', further⟩ : ∃ last, mid.run hash ops = some last ∧ mid.Extends hash False last :=
        run_extends extends_.good False.elim
      obtain rfl := Option.some.inj (rest.symm.trans rest')
      exact kept mid session' extends_.good further (here session op mid good wrapped first)
    · obtain ⟨mid', again, extends_⟩ := step_spec good fun _ => wrapped
      obtain rfl := Option.some.inj (first.symm.trans again)
      refine ih extends_.good (fun never => wraps ⟨wrapped, fun next same => ?_⟩) rest
      obtain rfl := Option.some.inj (first.symm.trans same)
      exact never

/-- A run that wraps an empty trie ends with an empty child. -/
theorem run_emptyChild (good : session.Good hash True) (wraps : ¬ NeverWrapsEmpty hash session ops)
    (ran : session.run hash ops = some session') :
    ∃ trie ∈ session'.tries, session'.interner.EmptyChild trie := by
  refine run_of_wraps (fun session => ∃ trie ∈ session.tries, session.interner.EmptyChild trie) good
    (fun session op session' good wrapped stepped => step_wrapsEmpty good wrapped stepped) ?_ wraps ran
  rintro session session' good further ⟨trie, mem, sequence, child, other, below, empty⟩
  have hasTrie := good.has trie mem
  have hasChild := (getSubtrie_spec good.interner hasTrie below).1
  refine ⟨trie, further.tries.subset mem, sequence, child, other, ?_, ?_⟩
  · rw [further.grows.getSubtrie good.interner hasTrie, below]
  · rw [further.grows.isEmpty hasChild, empty]

/-- The tries of the session are canonical. -/
structure Canonical (session : Session T V) : Prop where
  noEmptyChild : ∀ trie ∈ session.tries, ¬ session.interner.EmptyChild trie
  eq_iff : ∀ trie ∈ session.tries, ∀ other ∈ session.tries,
    trie = other ↔ ∀ sequence, session.interner.get trie sequence = session.interner.get other sequence
  isEmpty_iff : ∀ trie ∈ session.tries, session.interner.isEmpty trie = true ↔ session.interner.len trie = 0

theorem Good.canonical (good : session.Good hash True) : session.Canonical where
  noEmptyChild := by
    rintro trie mem ⟨sequence, child, other, below, empty⟩
    have nonempty := (getSubtrie_spec good.interner (good.has trie mem) below).2 trivial other
    exact absurd empty (by simp [nonempty])
  eq_iff := by
    intro trie mem other mem'
    refine ⟨fun same _ => same ▸ rfl, good.interner.eq_of_get (good.has trie mem) (good.has other mem')⟩
  isEmpty_iff := fun trie mem => good.interner.isEmpty_iff_len (good.has trie mem)

theorem start_good : (start : Session T V).Good hash P where
  interner :=
    { nodup := .nil
      filed := fun a has => absurd has (Nat.not_lt_zero a)
      below := fun a has => absurd has (Nat.not_lt_zero a)
      full := fun _ a has => absurd has (Nat.not_lt_zero a) }
  has := by simp [start]

/-- Every run returns, and its tries are canonical exactly if it never wraps an empty trie. -/
theorem canonical_iff_neverWrapsEmpty (hash : Node T V → ℕ) (ops : List (Op T V)) :
    ∃ session, run hash start ops = some session ∧ (session.Canonical ↔ NeverWrapsEmpty hash start ops) := by
  obtain ⟨session, ran, -⟩ : ∃ session, run hash start ops = some session ∧ start.Extends hash False session :=
    run_extends start_good False.elim
  refine ⟨session, ran, fun canonical => ?_, fun never => ?_⟩
  · by_contra wraps
    obtain ⟨trie, mem, emptyChild⟩ := run_emptyChild start_good wraps ran
    exact canonical.noEmptyChild trie mem emptyChild
  · obtain ⟨session', ran', extends_⟩ : ∃ session, run hash start ops = some session ∧
        start.Extends hash True session := run_extends start_good fun _ => never
    obtain rfl := Option.some.inj (ran.symm.trans ran')
    exact extends_.good.canonical

/-- The empty trie, and that trie as the child of another: neither has a sequence. -/
theorem get_wrapped {st : Interner ℕ ℕ}
    (leaked : st.leaked = [emptyNode, { children := SortedMap.empty.insert 7 0, value := none }]) (sequence : List ℕ) :
    st.get 0 sequence = none ∧ st.get 1 sequence = none := by
  have first : st.node 0 = emptyNode := by simp [node, leaked]
  have second : st.node 1 = { children := SortedMap.empty.insert 7 0, value := none } := by simp [node, leaked]
  have bare (sequence : List ℕ) : st.get 0 sequence = none := by
    cases sequence with
    | nil => simp [Interner.get, getSubtrie, first, emptyNode]
    | cons => simp [Interner.get, getSubtrie, first, emptyNode]
  refine ⟨bare sequence, ?_⟩
  cases sequence with
  | nil => simp [Interner.get, getSubtrie, second]
  | cons item sequence =>
    have below := bare sequence
    rw [Interner.get] at below ⊢
    rw [getSubtrie_cons, second, SortedMap.get_insert]
    split_ifs
    · rw [Option.bind_some, below]
    · rfl

/-- The trie of the empty prefix is the empty trie: it gets a new prefix and is not the empty map's trie. -/
theorem wrapped_not_canonical : ∃ session, run (fun _ => 0)
      (start : Session ℕ ℕ) [.new, .substitutePrefix 0 [] [7]] = some session ∧
    session.tries = [0, 1] ∧ session.interner.isEmpty 1 = false ∧ session.interner.len 1 = 0 ∧
    (∀ sequence, session.interner.get 0 sequence = session.interner.get 1 sequence) ∧ ¬ session.Canonical := by
  have final : (run (fun _ => 0) (start : Session ℕ ℕ) [.new, .substitutePrefix 0 [] [7]]).map
      (fun session => (session.tries, session.interner.leaked, session.interner.isEmpty 1, session.interner.len 1)) =
      some ([0, 1], [emptyNode, { children := SortedMap.empty.insert 7 0, value := none }], false, 0) := by decide
  obtain ⟨session, ran, observed⟩ := Option.map_eq_some_iff.mp final
  obtain ⟨tries, leaked, nonempty, zero⟩ : _ ∧ _ ∧ _ ∧ _ := by simpa only [Prod.mk.injEq] using observed
  refine ⟨session, ran, tries, nonempty, zero, fun sequence => ?_, fun canonical => ?_⟩
  · obtain ⟨first, second⟩ := get_wrapped leaked sequence
    rw [first, second]
  · have empty := (canonical.isEmpty_iff 1 (by simp [tries])).mpr zero
    simp [nonempty] at empty

end Session

end Ctadl.Trie
