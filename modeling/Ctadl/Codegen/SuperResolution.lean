import Ctadl.Codegen.Dispatch
import Ctadl.Codegen.TypeFacts

/-! # What a super call reaches

The walk of `super_resolvent` goes up one merged parent relation, level by level, and answers at the first level with one
declaration. The runtime looks at the superclass chain first and at the super-interfaces only if no class of the chain declares
the method. The walk's answer is the only declaration within some number of steps, and the two agree where that declaration is
the runtime's.
-/

namespace Ctadl.Codegen

open Facts Relation Graph ClassHierarchyAnalysis

namespace JavaTable

variable (table : JavaTable)

def dispatch : Dispatch := .java table.methods table.hierarchy table.interfaces

/-- The hierarchy analysis codegen builds over the table. -/
def cha (allocated : List Symbol) : ClassHierarchyAnalysis := .new table.dispatch allocated

/-- A class and its superclass: the parent that is no declared interface. -/
def Superclass (sub sup : Symbol) : Prop := table.dispatch.Edge sub sup ∧ sup ∉ table.interfaces

/-- The type has a declaration with this signature, abstract or not. -/
def HasMethod (m : MethodKey) (cls : Symbol) : Prop := table.dispatch.Declares cls m.1 m.2

/-- The first declaration on the chain of the start and its superclasses. -/
structure FirstOnChain (start : Symbol) (m : MethodKey) (cls : Symbol) : Prop where
  chain : ReflTransGen (fun sub sup => table.Superclass sub sup ∧ ¬ table.HasMethod m sub) start cls
  declares : table.HasMethod m cls

/-- A super-interface's declaration that no sub-interface among the super-interfaces overrides. -/
abbrev MaximallySpecific (start : Symbol) (m : MethodKey) : Symbol → Prop :=
  MostSpecific table.dispatch.Edge (fun cls => cls ∈ table.interfaces ∧ table.HasMethod m cls) start

/-- The type whose declaration the runtime selects for `invokespecial` or `invoke-super` at the start. -/
inductive RuntimeSelects (start : Symbol) (m : MethodKey) (cls : Symbol) : Prop
  | chain : table.FirstOnChain start m cls → RuntimeSelects start m cls
  | interface : (∀ c, ¬ table.FirstOnChain start m c) → table.MaximallySpecific start m cls →
      (cls, m.1, m.2) ∉ table.abstractMethods →
      (∀ other, table.MaximallySpecific start m other → (other, m.1, m.2) ∉ table.abstractMethods → other = cls) →
      RuntimeSelects start m cls

/-- A number of steps up, at most. -/
def Within (start : Symbol) : ℕ → Symbol → Prop
  | 0, cls => cls = start
  | k + 1, cls => Within start k cls ∨ ∃ sub, Within start k sub ∧ table.dispatch.Edge sub cls

/-- The only declaration within some number of steps. -/
def SoleNearest (start : Symbol) (m : MethodKey) (cls : Symbol) : Prop :=
  ∃ k, table.Within start k cls ∧ table.HasMethod m cls ∧ ∀ other, table.Within start k other → table.HasMethod m other → other = cls

end JavaTable

section Unseen

variable {classes seen : List Symbol} {cls : Symbol}

theorem mem_unseen_seen : cls ∈ (unseen classes seen).2 ↔ cls ∈ seen ∨ cls ∈ classes := by
  induction classes generalizing seen with
  | nil => simp [unseen]
  | cons first rest ih =>
    rw [unseen]
    split_ifs with old
    · rw [ih, List.mem_cons]
      constructor
      · rintro (held | later)
        · exact .inl held
        · exact .inr (.inr later)
      · rintro (held | rfl | later)
        · exact .inl held
        · exact .inl old
        · exact .inr later
    · dsimp only
      rw [ih, List.mem_cons, List.mem_cons]
      tauto

theorem mem_unseen_fresh : cls ∈ (unseen classes seen).1 ↔ cls ∈ classes ∧ cls ∉ seen := by
  induction classes generalizing seen with
  | nil => simp [unseen]
  | cons first rest ih =>
    rw [unseen]
    split_ifs with old
    · rw [ih, List.mem_cons]
      constructor
      · exact And.imp_left .inr
      · rintro ⟨rfl | later, new⟩
        · exact absurd old new
        · exact ⟨later, new⟩
    · dsimp only
      rw [List.mem_cons, ih, List.mem_cons, List.mem_cons, not_or]
      constructor
      · rintro (rfl | ⟨later, -, new⟩)
        · exact ⟨.inl rfl, old⟩
        · exact ⟨.inr later, new⟩
      · rintro ⟨rfl | later, new⟩
        · exact .inl rfl
        · by_cases same : cls = first
          · exact .inl same
          · exact .inr ⟨later, same, new⟩

theorem nodup_unseen : (unseen classes seen).1.Nodup := by
  induction classes generalizing seen with
  | nil => exact List.nodup_nil
  | cons first rest ih =>
    rw [unseen]
    split_ifs
    · exact ih
    · exact List.nodup_cons.mpr ⟨fun later => (mem_unseen_fresh.mp later).2 List.mem_cons_self, ih⟩

end Unseen

section Declared

variable {rows : List (Symbol × Symbol × Symbol × Symbol)} {cls name desc id : Symbol}

private theorem mem_declared {declared : List (SignatureKey × Symbol)}
    (member : ((cls, name, desc), id) ∈ rows.foldl (fun declared (cls, name, desc, id) =>
      if declared.any (·.1 = (cls, name, desc)) then declared else declared ++ [((cls, name, desc), id)]) declared) :
    ((cls, name, desc), id) ∈ declared ∨ (cls, name, desc, id) ∈ rows := by
  induction rows generalizing declared with
  | nil => exact .inl member
  | cons row rest ih =>
    obtain ⟨cls', name', desc', id'⟩ := row
    rcases ih member with kept | later
    · dsimp only at kept
      split_ifs at kept with known
      · exact .inl kept
      · rcases List.mem_append.mp kept with old | new
        · exact .inl old
        · simp only [List.mem_singleton, Prod.mk.injEq] at new
          obtain ⟨⟨rfl, rfl, rfl⟩, rfl⟩ := new
          exact .inr List.mem_cons_self
    · exact .inr (List.mem_cons_of_mem _ later)

private theorem any_declared {declared : List (SignatureKey × Symbol)}
    (known : declared.any (·.1 = (cls, name, desc)) ∨ ∃ id, (cls, name, desc, id) ∈ rows) :
    (rows.foldl (fun declared (cls, name, desc, id) =>
      if declared.any (·.1 = (cls, name, desc)) then declared else declared ++ [((cls, name, desc), id)]) declared).any
        (·.1 = (cls, name, desc)) := by
  induction rows generalizing declared with
  | nil =>
    rcases known with old | ⟨id, row⟩
    · exact old
    · exact nomatch row
  | cons row rest ih =>
    obtain ⟨cls', name', desc', id'⟩ := row
    rw [List.foldl_cons]
    apply ih
    dsimp only
    rcases known with old | ⟨id, here⟩
    · left
      split_ifs
      · exact old
      · rw [List.any_append, old, Bool.true_or]
    · rcases List.mem_cons.mp here with same | later
      · obtain ⟨rfl, rfl, rfl, rfl⟩ := by simpa only [Prod.mk.injEq] using same
        left
        split_ifs with held
        · exact held
        · simp
      · exact .inr ⟨id, later⟩

end Declared

section Walk

variable {table : JavaTable} {allocated : List Symbol} {start : Symbol} {m : MethodKey} {cls c d id : Symbol}

open JavaTable

/-- A declared id is one of the class's rows. -/
theorem mem_methods_of_declaredId (found : (table.cha allocated).declaredId (cls, m.1, m.2) = some id) :
    (cls, m.1, m.2, id) ∈ table.methods := by
  obtain ⟨⟨key, id'⟩, here, rfl⟩ := Option.map_eq_some_iff.mp found
  have same := List.find?_some here
  simp only [decide_eq_true_eq] at same
  subst same
  rcases mem_declared (List.mem_of_find?_eq_some here) with none | row
  · exact nomatch none
  · exact row

/-- Every class with a declaration has an id for it. -/
theorem isSome_declaredId : ((table.cha allocated).declaredId (cls, m.1, m.2)).isSome ↔ table.HasMethod m cls := by
  constructor
  · intro some
    obtain ⟨id, found⟩ := Option.isSome_iff_exists.mp some
    exact ⟨id, mem_methods_of_declaredId found⟩
  · rintro row
    rw [declaredId, Option.isSome_map, List.find?_isSome]
    exact List.any_eq_true.mp (any_declared (.inr row))

theorem mem_parentsOf : d ∈ (table.cha allocated).parentsOf c ↔ table.dispatch.Edge c d := by
  rw [parentsOf, List.mem_map]
  constructor
  · rintro ⟨⟨sub, sup⟩, member, rfl⟩
    obtain ⟨edge, same⟩ := List.mem_filter.mp member
    obtain rfl : sub = c := by simpa using same
    exact edge
  · intro edge
    exact ⟨(c, d), List.mem_filter.mpr ⟨edge, by simp⟩, rfl⟩

/-- What a level and the classes seen are when the walk has gone up some number of steps without a declaration. -/
structure AtLevel (table : JavaTable) (start : Symbol) (m : MethodKey) (k : ℕ) (level seen : List Symbol) : Prop where
  seen_iff : ∀ c, c ∈ seen ↔ table.Within start k c
  nodup : level.Nodup
  level_seen : ∀ c ∈ level, c ∈ seen
  new : ∀ c ∈ level, ∀ j < k, ¬ table.Within start j c
  expanded : ∀ c ∈ seen, c ∉ level → ∀ d, table.dispatch.Edge c d → d ∈ seen
  below : ∀ c ∈ seen, table.HasMethod m c → c ∈ level

theorem AtLevel.initial : AtLevel table start m 0 [start] [start] := by
  refine ⟨fun c => List.mem_singleton, List.nodup_singleton start, fun c member => member, fun c _ j before => ?_,
    fun c member outside => absurd member outside, fun c member _ => member⟩
  exact absurd before (Nat.not_lt_zero j)

theorem Within.mono {j k : ℕ} (le : j ≤ k) (within : table.Within start j c) : table.Within start k c := by
  induction le with
  | refl => exact within
  | step _ ih => exact .inl ih

theorem AtLevel.next (allocated : List Symbol) {k : ℕ} {level seen : List Symbol} (at_level : AtLevel table start m k level seen)
    (none : ∀ c ∈ level, ¬ table.HasMethod m c) :
    AtLevel table start m (k + 1) (unseen (level.flatMap (table.cha allocated).parentsOf) seen).1
      (unseen (level.flatMap (table.cha allocated).parentsOf) seen).2 := by
  have reached (c : Symbol) : c ∈ (unseen (level.flatMap (table.cha allocated).parentsOf) seen).2 ↔ table.Within start (k + 1) c := by
    rw [mem_unseen_seen, List.mem_flatMap]
    constructor
    · rintro (old | ⟨sub, member, parent⟩)
      · exact .inl ((at_level.seen_iff c).mp old)
      · exact .inr ⟨sub, (at_level.seen_iff sub).mp (at_level.level_seen sub member), mem_parentsOf.mp parent⟩
    · rintro (old | ⟨sub, within, edge⟩)
      · exact .inl ((at_level.seen_iff c).mpr old)
      · by_cases member : sub ∈ level
        · exact .inr ⟨sub, member, mem_parentsOf.mpr edge⟩
        · exact .inl (at_level.expanded sub ((at_level.seen_iff sub).mpr within) member c edge)
  refine ⟨reached, nodup_unseen, ?_, ?_, ?_, ?_⟩
  · intro c member
    exact mem_unseen_seen.mpr (.inr (mem_unseen_fresh.mp member).1)
  · intro c member j before within
    exact (mem_unseen_fresh.mp member).2 ((at_level.seen_iff c).mpr (Within.mono (Nat.le_of_lt_succ before) within))
  · intro c member outside d edge
    rw [mem_unseen_seen]
    have old : c ∈ seen := by
      by_contra new
      exact outside (mem_unseen_fresh.mpr ⟨(mem_unseen_seen.mp member).resolve_left new, new⟩)
    by_cases here : c ∈ level
    · exact .inr (List.mem_flatMap.mpr ⟨c, here, mem_parentsOf.mpr edge⟩)
    · exact .inl (at_level.expanded c old here d edge)
  · intro c member declares
    by_contra outside
    have old : c ∈ seen := by
      by_contra new
      exact outside (mem_unseen_fresh.mpr ⟨(mem_unseen_seen.mp member).resolve_left new, new⟩)
    exact none c (at_level.below c old declares) declares

private theorem filterMap_eq_singleton {α β : Type*} {f : α → Option β} {l : List α} {b : β} (single : l.filterMap f = [b]) :
    ∃ a ∈ l, f a = some b ∧ ∀ a' ∈ l, (f a').isSome → a' = a := by
  induction l with
  | nil => exact nomatch single
  | cons first rest ih =>
    rw [List.filterMap_cons] at single
    split at single
    · rename_i none
      obtain ⟨a, member, found, only⟩ := ih single
      refine ⟨a, List.mem_cons_of_mem _ member, found, ?_⟩
      intro a' member' some
      rcases List.mem_cons.mp member' with rfl | later
      · rw [none] at some
        exact nomatch some
      · exact only a' later some
    · rename_i b' found
      obtain ⟨rfl, others⟩ := List.cons.inj single
      refine ⟨first, List.mem_cons_self, found, ?_⟩
      intro a' member' some
      rcases List.mem_cons.mp member' with rfl | later
      · rfl
      · have absent := List.filterMap_eq_nil_iff.mp others a' later
        rw [absent] at some
        exact nomatch some

private theorem filterMap_of_single {α β : Type*} {f : α → Option β} {l : List α} {a : α} (nodup : l.Nodup)
    (only : ∀ a' ∈ l, (f a').isSome → a' = a) : l.filterMap f = [] ∨ ∃ b, l.filterMap f = [b] := by
  induction l with
  | nil => exact .inl rfl
  | cons first rest ih =>
    obtain ⟨fresh, nodup⟩ := List.nodup_cons.mp nodup
    rw [List.filterMap_cons]
    split
    · exact ih nodup fun a' member => only a' (List.mem_cons_of_mem _ member)
    · rename_i b found
      obtain rfl := only first List.mem_cons_self (Option.isSome_of_mem found)
      right
      refine ⟨b, congrArg (b :: ·) (List.filterMap_eq_nil_iff.mpr fun a' member => ?_)⟩
      cases other : f a' with
      | none => rfl
      | some b' =>
        obtain rfl := only a' (List.mem_cons_of_mem _ member) (Option.isSome_of_mem other)
        exact absurd member fresh

/-- The walk's answer is the only declaration within some number of steps. -/
theorem soleNearest_of_walkSuper {fuel k : ℕ} {level seen : List Symbol} (at_level : AtLevel table start m k level seen)
    (answer : (table.cha allocated).walkSuper m.1 m.2 fuel level seen = .exactly id) :
    ∃ c, table.SoleNearest start m c ∧ (table.cha allocated).declaredId (c, m.1, m.2) = some id := by
  induction fuel generalizing k level seen with
  | zero => cases answer
  | succ fuel ih =>
    rw [walkSuper] at answer
    split_ifs at answer
    split at answer
    · rename_i none
      apply ih (at_level.next allocated _) answer
      intro c member declares
      have absent := List.filterMap_eq_nil_iff.mp none c member
      have known : ((table.cha allocated).declaredId (c, m.1, m.2)).isSome := isSome_declaredId.mpr declares
      rw [absent] at known
      cases known
    · rename_i found
      injection answer with same
      subst same
      obtain ⟨c, member, here, only⟩ := filterMap_eq_singleton found
      refine ⟨c, ⟨k, (at_level.seen_iff c).mp (at_level.level_seen c member), ?_, ?_⟩, here⟩
      · exact isSome_declaredId.mp (Option.isSome_of_mem here)
      · intro other within declares
        exact only other (at_level.below other ((at_level.seen_iff other).mpr within) declares) (isSome_declaredId.mpr declares)
    · cases answer

/-- With no level left, everything above the start has been seen. -/
theorem AtLevel.all_seen {k : ℕ} {seen : List Symbol} (at_level : AtLevel table start m k [] seen) {j : ℕ}
    (within : table.Within start j c) : c ∈ seen := by
  induction j generalizing c with
  | zero =>
    have same : c = start := within
    exact (at_level.seen_iff c).mpr (Within.mono (Nat.zero_le k) same)
  | succ j ih =>
    rcases within with earlier | ⟨sub, within, edge⟩
    · exact ih earlier
    · exact at_level.expanded sub (ih within) List.not_mem_nil c edge

/-- The only declaration within some number of steps is the walk's answer. -/
theorem walkSuper_of_soleNearest {fuel j k : ℕ} {level seen : List Symbol} (at_level : AtLevel table start m k level seen)
    (within : table.Within start j c) (declares : table.HasMethod m c)
    (sole : ∀ other, table.Within start j other → table.HasMethod m other → other = c) (enough : j < k + fuel)
    (found : (table.cha allocated).declaredId (c, m.1, m.2) = some id) :
    (table.cha allocated).walkSuper m.1 m.2 fuel level seen = .exactly id := by
  have reached : k ≤ j := by
    by_contra before
    have old := (at_level.seen_iff c).mpr (Within.mono (by omega) within)
    exact at_level.new c (at_level.below c old declares) j (by omega) within
  induction fuel generalizing k level seen with
  | zero => omega
  | succ fuel ih =>
    have only : ∀ other ∈ level, ((table.cha allocated).declaredId (other, m.1, m.2)).isSome → other = c := by
      intro other member some
      apply sole other (Within.mono reached ((at_level.seen_iff other).mp (at_level.level_seen other member)))
      exact isSome_declaredId.mp some
    rw [walkSuper]
    split_ifs with empty
    · subst empty
      exact absurd (at_level.below c (at_level.all_seen within) declares) List.not_mem_nil
    rcases filterMap_of_single at_level.nodup only with none | ⟨id', single⟩
    · rw [none]
      have next := at_level.next allocated fun other member declares => by
        have absent := List.filterMap_eq_nil_iff.mp none other member
        have known : ((table.cha allocated).declaredId (other, m.1, m.2)).isSome := isSome_declaredId.mpr declares
        rw [absent] at known
        cases known
      apply ih next (by omega)
      by_contra before
      obtain rfl : j = k := by omega
      have absent := List.filterMap_eq_nil_iff.mp none c (at_level.below c ((at_level.seen_iff c).mpr within) declares)
      cases absent.symm.trans found
    · rw [single]
      obtain ⟨c', member, here, -⟩ := filterMap_eq_singleton single
      obtain rfl := only c' member (Option.isSome_of_mem here)
      obtain rfl := Option.some.inj (here.symm.trans found)
      rfl

theorem superResolvent_eq_exactly_iff : (table.cha allocated).superResolvent start m.1 m.2 = .exactly id ↔
    ∃ c, table.SoleNearest start m c ∧ (table.cha allocated).declaredId (c, m.1, m.2) = some id := by
  constructor
  · intro answer
    exact soleNearest_of_walkSuper .initial answer
  · rintro ⟨c, ⟨j, within, declares, sole⟩, found⟩
    rw [superResolvent, ← walkSuper_add j]
    exact walkSuper_of_soleNearest .initial within declares sole (by omega) found

end Walk

namespace JavaTable

variable (table : JavaTable)

/-- A super call's answer is the runtime's method exactly if the only declaration within some number of steps is: it is the
first one of the superclass chain; or that chain has none, and it is a super-interface's, not abstract and not overridden, and
every other one is abstract or overridden. -/
theorem superResolvent_selects_iff (allocated : List Symbol) (start : Symbol) (m : MethodKey) :
    (∀ id, (table.cha allocated).superResolvent start m.1 m.2 = .exactly id →
        ∃ cls, table.RuntimeSelects start m cls ∧ (cls, m.1, m.2, id) ∈ table.methods) ↔
      ∀ cls, table.SoleNearest start m cls → table.FirstOnChain start m cls ∨
        (∀ c, ¬ table.FirstOnChain start m c) ∧ table.MaximallySpecific start m cls ∧ (cls, m.1, m.2) ∉ table.abstractMethods ∧
          ∀ other, table.MaximallySpecific start m other → (other, m.1, m.2) ∉ table.abstractMethods → other = cls := by
  have selects (cls : Symbol) : table.RuntimeSelects start m cls ↔ table.FirstOnChain start m cls ∨
      (∀ c, ¬ table.FirstOnChain start m c) ∧ table.MaximallySpecific start m cls ∧ (cls, m.1, m.2) ∉ table.abstractMethods ∧
        ∀ other, table.MaximallySpecific start m other → (other, m.1, m.2) ∉ table.abstractMethods → other = cls := by
    constructor
    · rintro (chain | ⟨none, specific, concrete, unique⟩)
      · exact .inl chain
      · exact .inr ⟨none, specific, concrete, unique⟩
    · rintro (chain | ⟨none, specific, concrete, unique⟩)
      · exact .chain chain
      · exact .interface none specific concrete unique
  simp only [← selects, superResolvent_eq_exactly_iff]
  constructor
  · intro right cls sole
    obtain ⟨k, within, declares, only⟩ := sole
    have declared : ((table.cha allocated).declaredId (cls, m.1, m.2)).isSome := isSome_declaredId.mpr declares
    obtain ⟨id, found⟩ := Option.isSome_iff_exists.mp declared
    obtain ⟨cls', selected, row⟩ := right id ⟨cls, ⟨k, within, declares, only⟩, found⟩
    have same := table.qualified _ row _ (mem_methods_of_declaredId found) rfl
    obtain rfl : cls' = cls := congrArg Prod.fst same
    exact selected
  · rintro right id ⟨cls, sole, found⟩
    exact ⟨cls, right cls sole, mem_methods_of_declaredId found⟩

/-- `LC;` extends `LB;`, which extends `LA;`, and implements `LI;`; both `LA;` and `LI;` declare `m`. -/
def interfaceNearer : JavaTable where
  methods := [("LA;", "m", "()V", "LA;->m()V"), ("LI;", "m", "()V", "LI;->m()V")]
  hierarchy := [("LC;", ["LB;", "LI;"]), ("LB;", ["LA;"])]
  interfaces := ["LI;"]
  abstractMethods := []
  keys := by decide
  qualified := by decide

/-- The walk from `LC;` answers the method of `LI;`, and the runtime takes that of `LA;`. -/
theorem superResolvent_selects_interface : ¬ ∀ (table : JavaTable) (allocated : List Symbol) (start : Symbol) (m : MethodKey) (id : Symbol),
    (table.cha allocated).superResolvent start m.1 m.2 = .exactly id →
      ∃ cls, table.RuntimeSelects start m cls ∧ (cls, m.1, m.2, id) ∈ table.methods := by
  intro right
  have answer : (interfaceNearer.cha []).superResolvent "LC;" "m" "()V" = .exactly "LI;->m()V" := by decide
  obtain ⟨cls, selected, row⟩ := right interfaceNearer [] "LC;" ("m", "()V") _ answer
  have declaring {c : Symbol} (declares : interfaceNearer.HasMethod ("m", "()V") c) : c = "LA;" ∨ c = "LI;" := by
    obtain ⟨id, here⟩ := declares
    have here : (c, "m", "()V", id) ∈ interfaceNearer.methods := here
    simp only [interfaceNearer, List.mem_cons, Prod.mk.injEq, List.not_mem_nil, or_false] at here
    exact here.imp And.left And.left
  obtain rfl : cls = "LI;" := by
    simp only [interfaceNearer, List.mem_cons, Prod.mk.injEq, List.not_mem_nil, or_false] at row
    rcases row with ⟨-, -, -, other⟩ | ⟨same, -⟩
    · exact absurd other (by decide)
    · exact same
  have up : interfaceNearer.Superclass "LC;" "LB;" := by
    refine ⟨?_, by decide⟩
    change ("LC;", "LB;") ∈ interfaceNearer.dispatch.hierarchyEdges
    decide
  have further : interfaceNearer.Superclass "LB;" "LA;" := by
    refine ⟨?_, by decide⟩
    change ("LB;", "LA;") ∈ interfaceNearer.dispatch.hierarchyEdges
    decide
  have silent {c : Symbol} (other : ¬ (c = "LA;" ∨ c = "LI;")) : ¬ interfaceNearer.HasMethod ("m", "()V") c :=
    fun declares => other (declaring declares)
  have onChain : interfaceNearer.FirstOnChain "LC;" ("m", "()V") "LA;" :=
    ⟨.tail (.single ⟨up, silent (by decide)⟩) ⟨further, silent (by decide)⟩, "LA;->m()V", by decide⟩
  cases selected with
  | chain chain =>
    rcases chain.chain.cases_tail with same | ⟨sub, -, ⟨-, concrete⟩, -⟩
    · exact absurd same (by decide)
    · exact absurd concrete (by decide)
  | interface none => exact none "LA;" onChain

end JavaTable

end Ctadl.Codegen
