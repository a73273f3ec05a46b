import Ctadl.Cil.Edges

/-! # The finallys a leave exits

A leave runs the finallys whose try range it is in and its target is not, from the innermost out. All of
those ranges hold the leave, so in a properly nested table the smaller of two lies inside the other, and
the sort by size puts them in that order.
-/

namespace Ctadl.Cil

section order

variable {α : Type*} {R : α → α → Prop} {l : List α} {a b : α}

theorem pair_sublist (left : a ∈ l) (right : b ∈ l) (ne : a ≠ b) : [a, b].Sublist l ∨ [b, a].Sublist l := by
  induction l with
  | nil => exact absurd left List.not_mem_nil
  | cons c l ih =>
    rcases List.mem_cons.mp left with rfl | left'
    · have later : b ∈ l := (List.mem_cons.mp right).resolve_left ne.symm
      exact .inl (List.cons_sublist_cons.mpr (List.singleton_sublist.mpr later))
    · rcases List.mem_cons.mp right with rfl | right'
      · exact .inr (List.cons_sublist_cons.mpr (List.singleton_sublist.mpr left'))
      · exact (ih left' right').imp (·.cons c) (·.cons c)

/-- A list without repetition has two elements in one order only. -/
theorem not_sublist_swap (nodup : l.Nodup) (sub : [a, b].Sublist l) : ¬[b, a].Sublist l := by
  intro swapped
  induction l with
  | nil => simp at sub
  | cons c l ih =>
    obtain ⟨fresh, nodup⟩ := List.nodup_cons.mp nodup
    cases sub with
    | cons _ sub =>
      cases swapped with
      | cons _ swapped => exact ih nodup sub swapped
      | cons_cons _ _ => exact fresh (sub.subset (by simp))
    | cons_cons _ sub =>
      cases swapped with
      | cons _ swapped => exact fresh (swapped.subset (by simp))
      | cons_cons _ _ => exact fresh (List.singleton_sublist.mp sub)

/-- Sorting by a key keeps the order of the elements with the same key. -/
theorem pairwise_mergeSort_key {key : α → ℕ} (asymm : ∀ a b, R a b → ¬R b a) (sorted : l.Pairwise R) :
    (l.mergeSort fun a b => decide (key a ≤ key b)).Pairwise fun a b => key a < key b ∨ key a = key b ∧ R a b := by
  have trans : ∀ a b c : α, decide (key a ≤ key b) = true → decide (key b ≤ key c) = true → decide (key a ≤ key c) = true := by
    simp only [decide_eq_true_eq]
    omega
  have total : ∀ a b : α, (decide (key a ≤ key b) || decide (key b ≤ key a)) = true := by
    simp only [Bool.or_eq_true, decide_eq_true_eq]
    omega
  have nodup : (l.mergeSort fun a b => decide (key a ≤ key b)).Nodup := by
    refine (List.mergeSort_perm l _).nodup_iff.mpr (sorted.imp fun rel => ?_)
    rintro rfl
    exact asymm _ _ rel rel
  refine List.pairwise_iff_forall_sublist.mpr fun {a b} sub => ?_
  have le : key a ≤ key b := by
    have rel := List.pairwise_iff_forall_sublist.mp (List.pairwise_mergeSort trans total l) sub
    simpa using rel
  have ne : a ≠ b := List.pairwise_iff_forall_sublist.mp nodup sub
  rcases Nat.lt_or_eq_of_le le with lt | eq
  · exact .inl lt
  · refine .inr ⟨eq, ?_⟩
    have left : a ∈ l := List.mem_mergeSort.mp (sub.subset (by simp))
    have right : b ∈ l := List.mem_mergeSort.mp (sub.subset (by simp))
    rcases pair_sublist left right ne with kept | swapped
    · exact List.pairwise_iff_forall_sublist.mp sorted kept
    · -- a pair in the other order would have stayed in it
      have stays := List.pair_sublist_mergeSort trans total (by simp [eq]) swapped
      exact absurd stays (not_sublist_swap nodup sub)

/-- Neighbours in a sorted list have nothing between them. -/
theorem not_between (asymm : ∀ a b, R a b → ¬R b a) {before after : List α} (sorted : (before ++ a :: b :: after).Pairwise R)
    {c : α} (member : c ∈ before ++ a :: b :: after) : ¬(R a c ∧ R c b) := by
  rintro ⟨left, right⟩
  rw [List.pairwise_append] at sorted
  obtain ⟨-, tail, across⟩ := sorted
  obtain ⟨first, rest⟩ := List.pairwise_cons.mp tail
  rcases List.mem_append.mp member with early | late
  · exact asymm _ _ left (across c early a List.mem_cons_self)
  · rcases List.mem_cons.mp late with rfl | late
    · exact asymm _ _ left left
    · rcases List.mem_cons.mp late with rfl | late
      · exact asymm _ _ right right
      · exact asymm _ _ right (List.rel_of_pairwise_cons rest late)

/-- Two elements of a sorted list with nothing between them are neighbours. -/
theorem neighbours_of_not_between (asymm : ∀ a b, R a b → ¬R b a) (sorted : l.Pairwise R) (left : a ∈ l) (right : b ∈ l)
    (rel : R a b) (between : ∀ c ∈ l, ¬(R a c ∧ R c b)) : ∃ before after, l = before ++ a :: b :: after := by
  obtain ⟨before, rest, rfl⟩ := List.append_of_mem left
  rw [List.pairwise_append] at sorted
  obtain ⟨-, tail, across⟩ := sorted
  have later : b ∈ rest := by
    rcases List.mem_append.mp right with early | late
    · exact absurd (across b early a List.mem_cons_self) (asymm _ _ rel)
    · exact (List.mem_cons.mp late).resolve_left fun same => asymm _ _ (same ▸ rel) (same ▸ rel)
  cases rest with
  | nil => exact absurd later List.not_mem_nil
  | cons c rest =>
    rcases List.mem_cons.mp later with rfl | later
    · exact ⟨before, rest, rfl⟩
    · obtain ⟨first, rest'⟩ := List.pairwise_cons.mp tail
      exact absurd ⟨first c List.mem_cons_self, List.rel_of_pairwise_cons rest' later⟩ (between c (by simp))

end order

/-- One range lies inside another. -/
def Inside (a b : ℕ × ℕ) : Prop := b.1 ≤ a.1 ∧ a.2 ≤ b.2

def Apart (a b : ℕ × ℕ) : Prop := a.2 ≤ b.1 ∨ b.2 ≤ a.1

def Contains (a : ℕ × ℕ) (offset : ℕ) : Prop := a.1 ≤ offset ∧ offset < a.2

namespace Handler

def tryRange (h : Handler) : ℕ × ℕ := (h.tryStart, h.tryEnd)

def handlerRange (h : Handler) : ℕ × ℕ := (h.handlerStart, h.handlerEnd)

/-- The filter of a clause, which its handler follows. -/
def filterRange (h : Handler) (start : ℕ) : ℕ × ℕ := (start, h.handlerStart)

variable {h : Handler} {blocks : List Block} {offset : ℕ}

theorem tryContains_iff : h.tryContains offset = true ↔ Contains h.tryRange offset := by
  simp [tryContains, Contains, tryRange]

theorem handlerContains_iff : h.handlerContains offset = true ↔ Contains h.handlerRange offset := by
  simp [handlerContains, Contains, handlerRange]

theorem filterContains_iff : h.filterContains offset = true ↔
    ∃ start, h.filterStart = some start ∧ Contains (h.filterRange start) offset := by
  simp [filterContains, Contains, filterRange, Option.any_eq_true]

@[simp] theorem resolve_tryRange : (h.resolve blocks).tryRange = h.tryRange := rfl

@[simp] theorem resolve_kind : (h.resolve blocks).kind = h.kind := rfl

@[simp] theorem resolve_exits {target : ℕ} : (h.resolve blocks).exits offset target = h.exits offset target := rfl

end Handler

/-- The regions of the clauses nest: two of a kind are apart or one lies inside the other, handlers and filters
are not shared, and of two nested filters the inner one comes first in the table. -/
structure Method.Nested (m : Method) : Prop where
  tries : ∀ f ∈ m.handlers, ∀ g ∈ m.handlers,
    Apart f.tryRange g.tryRange ∨ Inside f.tryRange g.tryRange ∨ Inside g.tryRange f.tryRange
  handlers : m.handlers.Pairwise fun f g => Apart f.handlerRange g.handlerRange ∨
    f.handlerRange ≠ g.handlerRange ∧ (Inside f.handlerRange g.handlerRange ∨ Inside g.handlerRange f.handlerRange)
  filters : m.handlers.Pairwise fun f g => ∀ s t, f.filterStart = some s → g.filterStart = some t →
    Apart (f.filterRange s) (g.filterRange t) ∨
      f.filterRange s ≠ g.filterRange t ∧ Inside (f.filterRange s) (g.filterRange t)

/-- A leave at `offset` to `target` exits a clause of the table: a finally whose try range it goes out of. -/
def Method.Exits (m : Method) (offset target : ℕ) (f : Handler × ℕ) : Prop :=
  f ∈ m.handlers.zipIdx ∧ f.1.kind = .onFinally ∧ Contains f.1.tryRange offset ∧ ¬Contains f.1.tryRange target

/-- One clause is inside another: by its try range, and by its place in the table where the ranges are the same. -/
def Inner (f g : Handler × ℕ) : Prop := Inside f.1.tryRange g.1.tryRange ∧ (f.1.tryRange = g.1.tryRange → f.2 < g.2)

namespace Method

/-- The leave runs the finally `g` next after `f`. -/
def ExitsNext (m : Method) (offset target : ℕ) (f g : Handler × ℕ) : Prop :=
  m.Exits offset target f ∧ m.Exits offset target g ∧ Inner f g ∧ ∀ h, m.Exits offset target h → ¬(Inner f h ∧ Inner h g)

/-- It runs the finally `f` last. -/
def ExitsLast (m : Method) (offset target : ℕ) (f : Handler × ℕ) : Prop :=
  m.Exits offset target f ∧ ∀ h, m.Exits offset target h → ¬Inner f h

variable {m : Method} {offset target : ℕ} {f g : Handler × ℕ}

/-- A clause with the blocks where it starts. -/
def resolved (m : Method) (f : Handler × ℕ) : Handler × ℕ := (f.1.resolve m.blocks, f.2)

theorem mem_clauses_zipIdx : f ∈ m.clauses.zipIdx ↔ ∃ g ∈ m.handlers.zipIdx, m.resolved g = f := by
  rw [clauses, List.zipIdx_map, List.mem_map]
  rfl

theorem exits_iff (member : f ∈ m.handlers.zipIdx) : f.1.exits offset target = true ↔ m.Exits offset target f := by
  simp only [Handler.exits, Exits, Bool.and_eq_true, decide_eq_true_eq, Bool.not_eq_true', ← Bool.not_eq_true,
    Handler.tryContains_iff, member, true_and, and_assoc]

theorem mem_exited : f ∈ exited m.clauses offset target ↔ ∃ g, m.Exits offset target g ∧ m.resolved g = f := by
  rw [exited, List.mem_mergeSort, List.mem_filter, mem_clauses_zipIdx]
  constructor
  · rintro ⟨⟨g, member, rfl⟩, exits⟩
    exact ⟨g, (exits_iff member).mp exits, rfl⟩
  · rintro ⟨g, exits, rfl⟩
    exact ⟨⟨g, exits.1, rfl⟩, (exits_iff exits.1).mpr exits⟩

/-- The order the finallys are sorted in. -/
def Before (f g : Handler × ℕ) : Prop :=
  f.1.tryEnd - f.1.tryStart < g.1.tryEnd - g.1.tryStart ∨
    f.1.tryEnd - f.1.tryStart = g.1.tryEnd - g.1.tryStart ∧ f.2 < g.2

theorem before_asymm (f g : Handler × ℕ) : Before f g → ¬Before g f := by
  unfold Before
  omega

theorem zipIdx_sorted {α : Type*} (l : List α) : l.zipIdx.Pairwise fun f g => f.2 < g.2 := by
  refine List.pairwise_iff_getElem.mpr fun i j short short' lt => ?_
  simpa using lt

theorem exited_sorted : (exited m.clauses offset target).Pairwise Before :=
  pairwise_mergeSort_key (fun f g => fun lt : f.2 < g.2 => Nat.lt_asymm lt) ((zipIdx_sorted m.clauses).filter _)

/-- Of two finallys around one leave the smaller is inside the other. -/
theorem Nested.before_iff (nested : m.Nested) (exits : m.Exits offset target f) (exits' : m.Exits offset target g) :
    Before (m.resolved f) (m.resolved g) ↔ Inner f g := by
  have nest := nested.tries f.1 (List.fst_mem_of_mem_zipIdx exits.1) g.1 (List.fst_mem_of_mem_zipIdx exits'.1)
  have left := exits.2.2.1
  have right := exits'.2.2.1
  change f.1.tryEnd - f.1.tryStart < g.1.tryEnd - g.1.tryStart ∨
    f.1.tryEnd - f.1.tryStart = g.1.tryEnd - g.1.tryStart ∧ f.2 < g.2 ↔ _
  simp only [Inner, Inside, Apart, Contains, Handler.tryRange, Prod.mk.injEq] at *
  omega

/-- The finally that comes next in the sorted list is the one the leave runs next. -/
theorem Nested.neighbours_iff (nested : m.Nested) (exits : m.Exits offset target f) (exits' : m.Exits offset target g) :
    (∃ before after, exited m.clauses offset target = before ++ m.resolved f :: m.resolved g :: after) ↔
      m.ExitsNext offset target f g := by
  constructor
  · rintro ⟨before, after, eq⟩
    have sorted : (exited m.clauses offset target).Pairwise Before := exited_sorted
    rw [eq] at sorted
    have rel : Before (m.resolved f) (m.resolved g) :=
      List.rel_of_pairwise_cons (List.pairwise_append.mp sorted).2.1 List.mem_cons_self
    refine ⟨exits, exits', (nested.before_iff exits exits').mp rel, fun h exits'' between => ?_⟩
    have member : m.resolved h ∈ exited m.clauses offset target := mem_exited.mpr ⟨h, exits'', rfl⟩
    rw [eq] at member
    apply not_between before_asymm sorted member
    exact ⟨(nested.before_iff exits exits'').mpr between.1, (nested.before_iff exits'' exits').mpr between.2⟩
  · rintro ⟨-, -, inner, none⟩
    refine neighbours_of_not_between before_asymm exited_sorted (mem_exited.mpr ⟨f, exits, rfl⟩)
      (mem_exited.mpr ⟨g, exits', rfl⟩) ((nested.before_iff exits exits').mpr inner) fun h member between => ?_
    obtain ⟨h, exits'', rfl⟩ := mem_exited.mp member
    exact none h exits'' ⟨(nested.before_iff exits exits'').mp between.1, (nested.before_iff exits'' exits').mp between.2⟩

/-- The finally at the end of the sorted list is the one the leave runs last. -/
theorem Nested.last_iff (nested : m.Nested) (exits : m.Exits offset target f) :
    (∃ before, exited m.clauses offset target = before ++ [m.resolved f]) ↔ m.ExitsLast offset target f := by
  have sorted : (exited m.clauses offset target).Pairwise Before := exited_sorted
  constructor
  · rintro ⟨before, eq⟩
    refine ⟨exits, fun h exits' inner => ?_⟩
    have rel := (nested.before_iff exits exits').mpr inner
    have member : m.resolved h ∈ exited m.clauses offset target := mem_exited.mpr ⟨h, exits', rfl⟩
    rw [eq] at member sorted
    rcases List.mem_append.mp member with early | here
    · exact before_asymm _ _ rel ((List.pairwise_append.mp sorted).2.2 _ early _ (List.mem_singleton_self _))
    · rw [List.mem_singleton.mp here] at rel
      exact before_asymm _ _ rel rel
  · rintro ⟨-, none⟩
    obtain ⟨before, after, eq⟩ := List.append_of_mem (mem_exited.mpr ⟨f, exits, rfl⟩)
    cases after with
    | nil => exact ⟨before, eq⟩
    | cons h after =>
      have member : h ∈ exited m.clauses offset target := by
        rw [eq]
        simp
      obtain ⟨h, exits', rfl⟩ := mem_exited.mp member
      rw [eq] at sorted
      have rel : Before (m.resolved f) (m.resolved h) :=
        List.rel_of_pairwise_cons (List.pairwise_append.mp sorted).2.1 List.mem_cons_self
      exact absurd ((nested.before_iff exits exits').mp rel) (none h exits')

end Method

/-- A finally goes on to the next one in the list, and the last to the target. -/
theorem mem_continuations {target : Option ℕ} {l : List (Handler × ℕ)} {i t : ℕ} : (i, t) ∈ continuations target l ↔
    (∃ before f g after, l = before ++ f :: g :: after ∧ f.2 = i ∧ g.1.handlerBlock = some t) ∨
      ∃ before f, l = before ++ [f] ∧ f.2 = i ∧ target = some t := by
  induction l using continuations.induct with
  | case1 => simp [continuations]
  | case2 f =>
    simp only [continuations, List.mem_map, Option.mem_toList, Prod.mk.injEq, exists_eq_right_right]
    constructor
    · rintro ⟨found, place⟩
      exact .inr ⟨[], f, rfl, place, found⟩
    · rintro (⟨before, f', g, after, eq, -⟩ | ⟨before, f', eq, place, found⟩)
      · have length := congrArg List.length eq
        simp only [List.length_append, List.length_cons, List.length_nil] at length
        omega
      · obtain ⟨rfl, eq⟩ := List.singleton_eq_append_iff.mp eq |>.resolve_right (by simp)
        obtain rfl := (List.cons.inj eq).1
        exact ⟨found, place⟩
  | case3 f g l ih =>
    rw [continuations, List.mem_append, ih]
    simp only [List.mem_map, Option.mem_toList, Prod.mk.injEq, exists_eq_right_right]
    constructor
    · rintro (⟨found, place⟩ | ⟨before, f', g', after, eq, place, found⟩ | ⟨before, f', eq, place, found⟩)
      · exact .inl ⟨[], f, g, l, rfl, place, found⟩
      · exact .inl ⟨f :: before, f', g', after, by rw [eq]; rfl, place, found⟩
      · exact .inr ⟨f :: before, f', by rw [eq]; rfl, place, found⟩
    · rintro (⟨before, f', g', after, eq, place, found⟩ | ⟨before, f', eq, place, found⟩)
      · cases before with
        | nil =>
          obtain ⟨rfl, rest⟩ := List.cons.inj eq
          obtain ⟨rfl, -⟩ := List.cons.inj rest
          exact .inl ⟨found, place⟩
        | cons f'' before =>
          obtain ⟨rfl, rest⟩ := List.cons.inj eq
          exact .inr (.inl ⟨before, f', g', after, rest, place, found⟩)
      · cases before with
        | nil => simp at eq
        | cons f'' before =>
          obtain ⟨rfl, rest⟩ := List.cons.inj eq
          exact .inr (.inr ⟨before, f', rest, place, found⟩)

end Ctadl.Cil
