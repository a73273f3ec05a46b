import Ctadl.Semantics.Eval

/-! # One assignment

The labels an assignment adds, against the written rules: forward every suffix of the source carries its
labels to the same suffix of the destination, an address reads its base, and backward only labels of
scope `all` move, at suffixes other than the empty one and `#value`. A labeling is the relation of the
labels a state holds; the rules are written over relations, with every suffix quantified.
-/

namespace Ctadl.Semantics

open Cir

/-- Which label a location holds, with at least which scope. -/
abbrev Labeling (O : Type := Int64) := Var → List (PathSegment O) → Label → Scope → Prop

variable {O : Type}

namespace Eval

/-- What a state holds. -/
def Holds (st : Eval O) : Labeling O := fun var p label scope =>
  ∃ e ∈ st.cells, e.var = var ∧ e.path = p ∧ e.label = label ∧ scope.le e.scope

/-- Labels sit at normal locations. -/
def Normal [OfNat O 0] (st : Eval O) : Prop := ∀ e ∈ st.cells, Clear e.path ∧ classify e.path = .location

end Eval

theorem Scope.le_refl (a : Scope) : a.le a := by cases a <;> rfl

theorem Scope.le_trans {a b c : Scope} (ab : a.le b) (bc : b.le c) : a.le c := by
  cases a <;> cases b <;> cases c <;> simp_all [Scope.le]

theorem Scope.fixed_le (a : Scope) : Scope.fixed.le a := by cases a <;> rfl

theorem Scope.le_all (a : Scope) : a.le .all := by cases a <;> rfl

section Rules

variable [DecidableEq O] [Add O] [OfNat O 0]

/-- A bare offset that the `#value` at the end of the path absorbs. -/
def Absorbed (path t : List (PathSegment O)) : Prop :=
  path.getLast? = some .value ∧ ∃ k, t = [.offset k]

/-- The labels of the source at the suffix `t`. The empty suffix of an address reads its base. -/
def LabelsAt (labels : Labeling O) (src : Var) (s t : List (PathSegment O)) (label : Label) : Prop :=
  (classify (concat s t) = .location ∧ labels src (concat s t) label .fixed) ∨
    (t = [] ∧ classify s = .address ∧ labels src (locationOf s) label .fixed)

/-- The forward rule over the suffixes `admitted`: `dst.d.t` gets the labels of `src.s.t`, with scope
`all` from a store and `fixed` from a copy. -/
def Forward (admitted : List (PathSegment O) → Prop) (labels : Labeling O) (dst : Var)
    (d : List (PathSegment O)) (src : Var) (s : List (PathSegment O)) : Labeling O := fun v q label scope =>
  v = dst ∧ (scope.le (if d = [] then .fixed else .all)) ∧
    ∃ t, Clear t ∧ admitted t ∧ q = concat d t ∧ classify q = .location ∧ LabelsAt labels src s t label

/-- The backward rule over the suffixes `admitted`: labels of scope `all` at `dst.d.t` reach `src.s.t`,
for `t` neither empty nor `#value`. -/
def Backward (admitted : List (PathSegment O) → Prop) (labels : Labeling O) (dst : Var)
    (d : List (PathSegment O)) (src : Var) (s : List (PathSegment O)) : Labeling O := fun v q label _ =>
  v = src ∧ ∃ t, Clear t ∧ admitted t ∧ t ≠ [] ∧ t ≠ [.value] ∧ classify (concat d t) = .location ∧
    labels dst (concat d t) label .all ∧ q = concat s t ∧ classify q = .location

/-- A labeling with only the paths within the bound. -/
def Labeling.within (config : Config) (labels : Labeling O) : Labeling O := fun v q label scope =>
  q.length ≤ config.pathBound ∧ labels v q label scope

end Rules

section Adding

variable [DecidableEq O] {st : Eval O} {config : Config} {var v : Var} {p q : List (PathSegment O)}
  {label l : Label} {scope sc : Scope}

private theorem scopeAt_eq_some (found : st.scopeAt var p label = some sc) :
    ∃ e ∈ st.cells, e.var = var ∧ e.path = p ∧ e.label = label ∧ e.scope = sc := by
  obtain ⟨e, first, rfl⟩ := Option.map_eq_some_iff.mp found
  have here := List.find?_some first
  simp only [decide_eq_true_eq] at here
  exact ⟨e, List.mem_of_find?_eq_some first, here.1, here.2.1, here.2.2, rfl⟩

theorem holds_put :
    (st.put var p label scope).Holds v q l sc ↔
      st.Holds v q l sc ∨ (v = var ∧ q = p ∧ l = label ∧ sc.le scope) := by
  unfold Eval.put
  cases found : st.scopeAt var p label with
  | none =>
    simp only [Eval.Holds, List.mem_cons, exists_eq_or_imp]
    constructor
    · rintro (⟨rfl, rfl, rfl, below⟩ | held)
      · exact .inr ⟨rfl, rfl, rfl, below⟩
      · exact .inl held
    · rintro (held | ⟨rfl, rfl, rfl, below⟩)
      · exact .inr held
      · exact .inl ⟨rfl, rfl, rfl, below⟩
  | some old =>
    obtain ⟨e, here, rfl, rfl, rfl, rfl⟩ := scopeAt_eq_some found
    simp only
    split_ifs with enough
    · refine ⟨.inl, ?_⟩
      rintro (held | ⟨rfl, rfl, rfl, below⟩)
      · exact held
      · exact ⟨e, here, rfl, rfl, rfl, Scope.le_trans below enough⟩
    · have raised : e.scope = .fixed ∧ scope = .all := by
        cases h : e.scope <;> cases scope <;> simp_all [Scope.le]
      obtain ⟨-, rfl⟩ := raised
      simp only [Eval.Holds, List.mem_map]
      constructor
      · rintro ⟨_, ⟨e', here', rfl⟩, same⟩
        split_ifs at same with hit
        · exact .inr ⟨by rw [← same.1, hit.1], by rw [← same.2.1, hit.2.1], by rw [← same.2.2.1, hit.2.2],
            same.2.2.2⟩
        · exact .inl ⟨e', here', same⟩
      · rintro (⟨e', here', rfl, rfl, rfl, below⟩ | ⟨rfl, rfl, rfl, below⟩)
        · refine ⟨_, ⟨e', here', rfl⟩, ?_⟩
          split_ifs with hit
          · exact ⟨rfl, rfl, rfl, Scope.le_all sc⟩
          · exact ⟨rfl, rfl, rfl, below⟩
        · exact ⟨_, ⟨e, here, rfl⟩, by simp [below]⟩

theorem holds_add :
    (st.add config var p label scope).Holds v q l sc ↔
      st.Holds v q l sc ∨ (classify p = .location ∧ p.length ≤ config.pathBound ∧ v = var ∧ q = p ∧ l = label ∧
        sc.le scope) := by
  unfold Eval.add
  split_ifs with location long
  · simp [location]
  · simp [Eval.Holds, Nat.not_le.mpr long]
  · rw [holds_put]
    simp [not_not.mp location, Nat.not_lt.mp long]

omit [DecidableEq O] in
/-- A loop whose steps each add fixed labels adds those of every step. -/
theorem holds_foldl {α : Type} {f : Eval O → α → Eval O} {items : List α} (added : α → Labeling O)
    (each : ∀ st, ∀ a ∈ items, ∀ v q l sc, (f st a).Holds v q l sc ↔ st.Holds v q l sc ∨ added a v q l sc) :
    (items.foldl f st).Holds v q l sc ↔ st.Holds v q l sc ∨ ∃ a ∈ items, added a v q l sc := by
  induction items generalizing st with
  | nil => simp
  | cons a rest ih =>
    rw [List.foldl_cons, ih fun st b later => each st b (.tail _ later), each st a (.head _)]
    simp [or_assoc]

end Adding

section Exactly

variable {st : Eval} {config : Config} {dst src v : Var} {d s p q : List PathSegment} {l : Label} {sc : Scope}

/-- The suffix that is stripped is never a bare offset that a `#value` absorbs. -/
private theorem not_absorbed {t : List PathSegment} (clearS : Clear s) (clearP : Clear p)
    (location : classify p = .location) (found : stripPrefix p s = some t) : ¬ Absorbed s t := by
  rintro ⟨last, k, rfl⟩
  have whole : p = s := by
    rw [← concat_of_stripPrefix clearP found]
    simp [concat, pushNormalized, last]
  have none : stripPrefix p s = some [] := by
    refine ((concat_eq_iff clearS .nil clearP location).mp ?_).resolve_right (by simp)
    rw [whole]
    rfl
  simp [none] at found

/-- The targets of the forward loop are those at the suffixes of the source that lead to the location. -/
theorem mem_forwardTargets (clearS : Clear s) (clearP : Clear p) (location : classify p = .location) :
    q ∈ forwardTargets d s p ↔
      (∃ t, Clear t ∧ ¬ Absorbed s t ∧ q = concat d t ∧ concat s t = p) ∨
        (q = d ∧ classify s = .address ∧ locationOf s = p) := by
  have third : ∀ q, q ∈ (if classify s = .address ∧ locationOf s = p then [d] else []) ↔
      q = d ∧ classify s = .address ∧ locationOf s = p := by
    intro q
    split_ifs with h <;> simp [h]
  unfold forwardTargets
  rw [List.mem_append, third]
  refine or_congr_left ?_
  constructor
  · intro member
    cases found : stripPrefix p s with
    | none => simp [found] at member
    | some t =>
      have whole := concat_of_stripPrefix clearP found
      have clearT := clear_of_stripPrefix clearP found
      simp only [found, List.mem_cons] at member
      rcases member with rfl | member
      · exact ⟨t, clearT, not_absorbed clearS clearP location found, rfl, whole⟩
      · split_ifs at member with valued
        · obtain ⟨rfl, last⟩ := valued
          obtain rfl := List.mem_singleton.mp member
          have single : Clear [PathSegment.value (O := Int64)] := Clear.singleton (by simp)
          refine ⟨[.value], single, by simp [Absorbed], rfl, ?_⟩
          rw [← whole]
          simp [concat, pushNormalized, last, PathSegment.isOffset]
        · simp at member
  · rintro ⟨t, clearT, proper, rfl, whole⟩
    rcases (concat_eq_iff clearS clearT clearP location).mp whole with found | ⟨last, rfl, rfl | ⟨k, rfl⟩⟩
    · simp [found]
    · have none : stripPrefix p p = some [] :=
        ((concat_eq_iff clearS .nil clearP location).mp rfl).resolve_right (by simp)
      simp [none, last]
    · exact absurd ⟨last, k, rfl⟩ proper

theorem backwardTarget_eq_some (clearD : Clear d) (clearP : Clear p) (location : classify p = .location) :
    backwardTarget d s p = some q ↔
      ∃ t, Clear t ∧ ¬ Absorbed d t ∧ t ≠ [] ∧ t ≠ [.value] ∧ concat d t = p ∧ q = concat s t := by
  unfold backwardTarget
  simp only [Option.bind_eq_some_iff, Option.ite_none_left_eq_some, not_or, Option.some.injEq]
  constructor
  · rintro ⟨t, found, ⟨nonempty, inner⟩, rfl⟩
    exact ⟨t, clear_of_stripPrefix clearP found, not_absorbed clearD clearP location found, nonempty, inner,
      concat_of_stripPrefix clearP found, rfl⟩
  · rintro ⟨t, clearT, proper, nonempty, inner, whole, rfl⟩
    rcases (concat_eq_iff clearD clearT clearP location).mp whole with found | ⟨last, rfl, rfl | ⟨k, rfl⟩⟩
    · exact ⟨t, found, ⟨nonempty, inner⟩, rfl⟩
    · exact absurd rfl inner
    · exact absurd ⟨last, k, rfl⟩ proper

/-- The labeling with the forward labels added, within the bound. -/
def afterForward (config : Config) (labels : Labeling) (dst : Var) (d : List PathSegment) (src : Var)
    (s : List PathSegment) : Labeling := fun v q l sc =>
  labels v q l sc ∨ (Forward (fun t => ¬ Absorbed s t) labels dst d src s).within config v q l sc

/-- What one execution of an assignment leaves: the labels there were, those of the forward rule, and
those of the backward rule over both. -/
def afterAssign (config : Config) (labels : Labeling) (dst : Var) (d : List PathSegment) (src : Var)
    (s : List PathSegment) : Labeling := fun v q l sc =>
  afterForward config labels dst d src s v q l sc ∨
    (Backward (fun t => ¬ Absorbed d t) (afterForward config labels dst d src s) dst d src s).within config v q l sc

/-- From or to a void path nothing moves. -/
private theorem afterAssign_of_void (clearD : Clear d) (clearS : Clear s)
    (void : classify d = .void ∨ classify s = .void) (labels : Labeling) :
    afterAssign config labels dst d src s v q l sc ↔ labels v q l sc := by
  have still : ∀ {admitted : List PathSegment → Prop} {labels : Labeling},
      ¬ Forward admitted labels dst d src s v q l sc ∧ ¬ Backward admitted labels dst d src s v q l sc := by
    intro admitted labels
    refine ⟨?_, ?_⟩
    · rintro ⟨-, -, t, -, -, rfl, location, at_s⟩
      rcases void with void | void
      · simp [classify_concat_of_void clearD void] at location
      · rcases at_s with ⟨there, -⟩ | ⟨-, address, -⟩
        · simp [classify_concat_of_void clearS void] at there
        · simp [void] at address
    · rintro ⟨-, t, -, -, -, -, there, -, rfl, location⟩
      rcases void with void | void
      · simp [classify_concat_of_void clearD void] at there
      · simp [classify_concat_of_void clearS void] at location
  simp [afterAssign, afterForward, Labeling.within, still]

theorem normal_iff_holds : st.Normal ↔ ∀ v p l sc, st.Holds v p l sc → Clear p ∧ classify p = .location := by
  constructor
  · rintro normal v p l sc ⟨e, here, -, rfl, -⟩
    exact normal e here
  · intro holds e here
    exact holds e.var e.path e.label e.scope ⟨e, here, rfl, rfl, rfl, Scope.le_refl _⟩

theorem holds_forward (normal : st.Normal) (clearS : Clear s) :
    (st.forward config dst d src s (if !d.isEmpty then .all else .fixed)).Holds v q l sc ↔
      afterForward config st.Holds dst d src s v q l sc := by
  have scope : (if !d.isEmpty then Scope.all else .fixed) = if d = [] then .fixed else .all := by
    cases d <;> rfl
  rw [scope, Eval.forward]
  have inner : ∀ (st : Eval) (e : Entry) (v : Var) (q : List PathSegment) (l : Label) (sc : Scope),
      ((forwardTargets d s e.path).foldl
        (fun st target => st.add config dst target e.label (if d = [] then .fixed else .all)) st).Holds v q l sc ↔
        st.Holds v q l sc ∨ ∃ target ∈ forwardTargets d s e.path, classify target = .location ∧
          target.length ≤ config.pathBound ∧ v = dst ∧ q = target ∧ l = e.label ∧
          sc.le (if d = [] then .fixed else .all) :=
    fun st e v q l sc => holds_foldl (fun target v q l sc => classify target = .location ∧
      target.length ≤ config.pathBound ∧ v = dst ∧ q = target ∧ l = e.label ∧
      sc.le (if d = [] then .fixed else .all)) fun _ _ _ _ _ _ _ => holds_add
  rw [holds_foldl _ fun st e _ => inner st e]
  unfold afterForward
  refine or_congr_right ?_
  constructor
  · rintro ⟨e, picked, q, member, location, short, rfl, rfl, rfl, below⟩
    obtain ⟨here, owned⟩ := List.mem_filter.mp picked
    obtain ⟨clearP, atP⟩ := normal e here
    refine ⟨short, rfl, below, ?_⟩
    have held : st.Holds src e.path e.label .fixed := ⟨e, here, by simpa using owned, rfl, rfl, Scope.fixed_le _⟩
    rcases (mem_forwardTargets clearS clearP atP).mp member with
      ⟨t, clearT, proper, rfl, whole⟩ | ⟨rfl, address, base⟩
    · exact ⟨t, clearT, proper, rfl, location, .inl (whole ▸ ⟨atP, held⟩)⟩
    · exact ⟨[], .nil, by simp [Absorbed], rfl, location, .inr ⟨rfl, address, base ▸ held⟩⟩
  · rintro ⟨short, rfl, below, t, clearT, proper, rfl, location, at_s⟩
    rcases at_s with ⟨atP, e, here, rfl, path, rfl, -⟩ | ⟨rfl, address, e, here, rfl, path, rfl, -⟩
    · refine ⟨e, List.mem_filter.mpr ⟨here, by simp⟩, _, ?_, location, short, rfl, rfl, rfl, below⟩
      obtain ⟨clearP, atE⟩ := normal e here
      exact (mem_forwardTargets clearS clearP atE).mpr (.inl ⟨t, clearT, proper, rfl, path.symm⟩)
    · refine ⟨e, List.mem_filter.mpr ⟨here, by simp⟩, _, ?_, location, short, rfl, rfl, rfl, below⟩
      obtain ⟨clearP, atE⟩ := normal e here
      exact (mem_forwardTargets clearS clearP atE).mpr (.inr ⟨rfl, address, path.symm⟩)

theorem holds_backward (normal : st.Normal) (clearD : Clear d) :
    (st.backward config dst d src s).Holds v q l sc ↔
      st.Holds v q l sc ∨ (Backward (fun t => ¬ Absorbed d t) st.Holds dst d src s).within config v q l sc := by
  have inner : ∀ (st : Eval) (e : Entry) (v : Var) (q : List PathSegment) (l : Label) (sc : Scope),
      ((backwardTarget d s e.path).elim st fun target => st.add config src target e.label .all).Holds v q l sc ↔
        st.Holds v q l sc ∨ ∃ target, backwardTarget d s e.path = some target ∧ classify target = .location ∧
          target.length ≤ config.pathBound ∧ v = src ∧ q = target ∧ l = e.label ∧ sc.le .all := by
    intro st e v q l sc
    cases target : backwardTarget d s e.path with
    | none => simp
    | some target => simp only [Option.elim_some, holds_add, Option.some.injEq, exists_eq_left']
  unfold Eval.backward
  rw [holds_foldl _ fun st e _ => inner st e]
  refine or_congr_right ?_
  constructor
  · rintro ⟨e, picked, q, found, location, short, rfl, rfl, rfl, -⟩
    obtain ⟨here, owned⟩ := List.mem_filter.mp picked
    obtain ⟨rfl, all⟩ : e.var = dst ∧ e.scope = .all := by simpa using owned
    obtain ⟨clearP, atP⟩ := normal e here
    obtain ⟨t, clearT, proper, nonempty, inner, whole, rfl⟩ := (backwardTarget_eq_some clearD clearP atP).mp found
    refine ⟨short, rfl, t, clearT, proper, nonempty, inner, whole ▸ atP, ?_, rfl, location⟩
    exact whole ▸ ⟨e, here, rfl, rfl, rfl, by rw [all]; rfl⟩
  · rintro ⟨short, rfl, t, clearT, proper, nonempty, inner, atP, ⟨e, here, rfl, path, rfl, all⟩, rfl, location⟩
    have scope : e.scope = .all := by cases h : e.scope <;> simp_all [Scope.le]
    refine ⟨e, List.mem_filter.mpr ⟨here, by simp [scope]⟩, _, ?_, location, short, rfl, rfl, rfl, Scope.le_all _⟩
    obtain ⟨clearP, atE⟩ := normal e here
    exact (backwardTarget_eq_some clearD clearP atE).mpr ⟨t, clearT, proper, nonempty, inner, path.symm, rfl⟩

theorem normal_afterForward (normal : st.Normal) (clearD : Clear d) (v : Var) (q : List PathSegment) (l : Label)
    (sc : Scope) (held : afterForward config st.Holds dst d src s v q l sc) : Clear q ∧ classify q = .location := by
  rcases held with old | ⟨-, -, -, t, -, -, rfl, location, -⟩
  · exact normal_iff_holds.mp normal v q l sc old
  · exact ⟨clear_concat clearD t, location⟩

/-- The labels the evaluator's assignment leaves are exactly those of the written rules. -/
theorem holds_assign (config : Config) (normal : st.Normal) (clearD : Clear d) (clearS : Clear s)
    (dst src : Var) (v : Var) (q : List PathSegment) (l : Label) (sc : Scope) :
    (st.assign config dst d src s (!d.isEmpty)).Holds v q l sc ↔
      afterAssign config st.Holds dst d src s v q l sc := by
  by_cases void : classify d = .void ∨ classify s = .void
  · rw [Eval.assign, if_pos void]
    exact (afterAssign_of_void clearD clearS void _).symm
  · rw [Eval.assign, if_neg void]
    have forward : (st.forward config dst d src s (if !d.isEmpty then .all else .fixed)).Holds =
        afterForward config st.Holds dst d src s := by
      funext v q l sc
      exact propext (holds_forward normal clearS)
    have midNormal : (st.forward config dst d src s (if !d.isEmpty then .all else .fixed)).Normal := by
      rw [normal_iff_holds, forward]
      exact normal_afterForward normal clearD
    rw [holds_backward midNormal clearD, forward]
    rfl

/-- Into a destination that is no address, the suffixes that the source's `#value` absorbs carry nothing
that the empty suffix does not. -/
theorem forward_absorbed (clearD : Clear d) (rewritten : classify d ≠ .address) (labels : Labeling) :
    Forward (fun t => ¬ Absorbed s t) labels dst d src s v q l sc ↔
      Forward (fun _ => True) labels dst d src s v q l sc := by
  constructor
  · rintro ⟨there, below, t, clearT, -, rest⟩
    exact ⟨there, below, t, clearT, trivial, rest⟩
  · rintro ⟨there, below, t, clearT, -, rfl, location, at_s⟩
    by_cases absorbed : Absorbed s t
    · obtain ⟨last, k, rfl⟩ := absorbed
      have source : concat s [.offset k] = concat s [] := by simp [concat, pushNormalized, last]
      have nonzero : k ≠ 0 := by simpa using clearT.head_ne
      have ends := ((classify_eq_location_iff (clear_concat clearD _)).mp location).2 k
      have target : concat d [.offset k] = concat d [] := by
        cases lastD : d.getLast? with
        | none => simp [concat, pushNormalized, lastD, nonzero] at ends
        | some a =>
          cases a with
          | value => simp [concat, pushNormalized, lastD]
          | field name | deref => simp [concat, pushNormalized, lastD, nonzero] at ends
          | offset m =>
            by_cases void : .value ∈ d.dropLast
            · have := classify_concat_of_void (t := [.offset k]) clearD ((classify_eq_void_iff clearD).mpr void)
              simp [this] at location
            · exact absurd ((classify_eq_address_iff clearD).mpr ⟨void, m, lastD⟩) rewritten
      refine ⟨there, below, [], .nil, by simp [Absorbed], target, location, ?_⟩
      rcases at_s with read | ⟨wrong, -⟩
      · exact .inl (source ▸ read)
      · simp at wrong
    · exact ⟨there, below, t, clearT, absorbed, rfl, location, at_s⟩

/-- An assignment adds exactly the labels of the written rules within the path bound. A bare offset that
the `#value` at the end of the path being matched absorbs is no suffix of its own: forward that changes
nothing unless the destination is an address, and backward nothing unless it ends in `#value`. -/
theorem assign_implements_rules (config : Config) (normal : st.Normal) (clearD : Clear d) (clearS : Clear s)
    (dst src : Var) :
    (∀ v q l sc, (st.assign config dst d src s (!d.isEmpty)).Holds v q l sc ↔
      afterAssign config st.Holds dst d src s v q l sc) ∧
    (classify d ≠ .address → ∀ labels v q l sc, Forward (fun t => ¬ Absorbed s t) labels dst d src s v q l sc ↔
      Forward (fun _ => True) labels dst d src s v q l sc) ∧
    (d.getLast? ≠ some .value → ∀ labels v q l sc, Backward (fun t => ¬ Absorbed d t) labels dst d src s v q l sc ↔
      Backward (fun _ => True) labels dst d src s v q l sc) := by
  refine ⟨holds_assign config normal clearD clearS dst src, fun rewritten labels v q l sc => ?_,
    fun plain labels v q l sc => ?_⟩
  · exact forward_absorbed clearD rewritten labels
  · simp [Backward, Absorbed, plain]

section Example

private def varX : Var := (.inst 0, .new (.localVar 0))

private def varY : Var := (.inst 0, .new (.localVar 1))

/-- A state whose one label, of scope `all`, is at `y.#value`. -/
private def valueLabel : Eval where
  instances := []
  cells := [⟨varY, [.value], .taint "a", .all⟩]
  observed := ∅
  unresolved := []
  truncated := false
  changed := false

/-- The store `x.f = y` leaves what the rules say, at an explicit state. -/
theorem assign_value_label :
    valueLabel.Normal ∧ ∀ v q l sc, (valueLabel.assign ⟨6, 5⟩ varX [.field "f"] varY [] true).Holds v q l sc ↔
      afterAssign ⟨6, 5⟩ valueLabel.Holds varX [.field "f"] varY [] v q l sc := by
  have normal : valueLabel.Normal := by
    intro e here
    obtain rfl := List.mem_singleton.mp here
    exact ⟨Clear.singleton (by simp), by decide⟩
  exact ⟨normal, (assign_implements_rules ⟨6, 5⟩ normal (.singleton (by simp)) .nil varX varY).1⟩

/-- With every suffix admitted, the offset that both `#value`s of `y.#value = x.#value` absorb would
carry the label back; the evaluator does not. -/
theorem assign_value_not_back :
    Backward (fun _ => True) valueLabel.Holds varY [.value] varX [.value] varX [.value] (.taint "a") .all ∧
      ¬ (valueLabel.assign ⟨6, 5⟩ varY [.value] varX [.value] true).Holds varX [.value] (.taint "a") .all := by
  refine ⟨⟨rfl, [.offset 8], .singleton (by decide), trivial, by simp, by simp, by decide, ?_, by decide, by decide⟩, ?_⟩
  · exact ⟨_, .head _, rfl, rfl, rfl, rfl⟩
  · rintro ⟨e, here, owner, -⟩
    have cells : (valueLabel.assign ⟨6, 5⟩ varY [.value] varX [.value] true).cells = valueLabel.cells := by decide
    rw [cells] at here
    obtain rfl := List.mem_singleton.mp here
    exact absurd owner (by decide)

end Example

end Exactly

end Ctadl.Semantics
