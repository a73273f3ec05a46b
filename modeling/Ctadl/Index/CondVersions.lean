import Ctadl.Index.CondRows

/-! # The versions of a relation over a run

During an iteration `new` collects the rows that neither `total` nor `delta` covers. The merge moves `delta`
into `total` and makes `new` the next `delta`. Over any run `total` and `delta` together give each fact the
join of everything inserted for it, and `delta` holds the facts whose join changed, so the run ends in the
assignment of a lattice evaluation.
-/

namespace Ctadl.Index

open Std Datalog

variable {h : HybridContext} {K1 K2 P A B : Type} [DecidableEq K1] [Hashable K1] [DecidableEq K2] [Hashable K2]
  [DecidableEq P] [Hashable P] [DecidableEq A] [Hashable A] [DecidableEq B] [Hashable B]

/-- The three versions of the store. -/
structure Versions (h : HybridContext) (K1 K2 P A B : Type) [DecidableEq K1] [Hashable K1] [DecidableEq K2]
    [Hashable K2] [DecidableEq P] [Hashable P] [DecidableEq A] [Hashable A] [DecidableEq B] [Hashable B] where
  new : CondTrie h K1 K2 P A B := {}
  delta : CondTrie h K1 K2 P A B := {}
  total : CondTrie h K1 K2 P A B := {}

namespace Versions

/-- Whether `total` or `delta` covers a row. -/
def covers (v : Versions h K1 K2 P A B) (row : Fact K1 K2 P A B × CondOf h) : Bool :=
  v.total.containsKey row.1 row.2 || v.delta.containsKey row.1 row.2

/-- A derived row goes into `new` unless it is covered. -/
def offer (v : Versions h K1 K2 P A B) (row : Fact K1 K2 P A B × CondOf h) : Versions h K1 K2 P A B :=
  if v.covers row then v else { v with new := (v.new.insert row.1 row.2).1 }

def mergeDeltaToTotalNewToDelta (v : Versions h K1 K2 P A B) : Versions h K1 K2 P A B :=
  let total := v.total.absorb v.delta
  { new := {}, delta := v.new.refine total, total }

/-- An iteration that derives `rows`. -/
def iterate (v : Versions h K1 K2 P A B) (rows : List (Fact K1 K2 P A B × CondOf h)) : Versions h K1 K2 P A B :=
  (rows.foldl offer v).mergeDeltaToTotalNewToDelta

/-- The iterations of a run. -/
def run (its : List (List (Fact K1 K2 P A B × CondOf h))) : Versions h K1 K2 P A B := its.foldl iterate {}

/-- The rows of an iteration that are inserted. -/
def inserted (v : Versions h K1 K2 P A B) (rows : List (Fact K1 K2 P A B × CondOf h)) :
    List (Fact K1 K2 P A B × CondOf h) := rows.filter (!v.covers ·)

/-- An iteration, and the rows inserted up to it. -/
def record (seen : Versions h K1 K2 P A B × List (Fact K1 K2 P A B × CondOf h))
    (rows : List (Fact K1 K2 P A B × CondOf h)) : Versions h K1 K2 P A B × List (Fact K1 K2 P A B × CondOf h) :=
  (seen.1.iterate rows, seen.2 ++ seen.1.inserted rows)

/-- Every row a run inserts. -/
def log (its : List (List (Fact K1 K2 P A B × CondOf h))) : List (Fact K1 K2 P A B × CondOf h) :=
  (its.foldl record ({}, [])).2

variable {v : Versions h K1 K2 P A B} {its : List (List (Fact K1 K2 P A B × CondOf h))}
  {rows : List (Fact K1 K2 P A B × CondOf h)} {row : Fact K1 K2 P A B × CondOf h}

theorem run_append : run (its ++ [rows]) = (run its).iterate rows := by
  simp [run]

theorem foldl_record_fst : (its.foldl record ({}, [])).1 = run its := by
  induction its using List.reverseRecOn with
  | nil => rfl
  | append_singleton its rows ih => simp [run_append, record, ih]

theorem log_append : log (its ++ [rows]) = log its ++ (run its).inserted rows := by
  rw [log, List.foldl_append, List.foldl_cons, List.foldl_nil, record, foldl_record_fst]
  rfl

/-- The rows of an iteration go into `new` one after another; the other versions wait for the merge. -/
theorem foldl_offer : rows.foldl offer v =
    { v with new := (v.inserted rows).foldl (fun s row => (s.insert row.1 row.2).1) v.new } := by
  induction rows generalizing v with
  | nil => rfl
  | cons row rows ih =>
    rw [List.foldl_cons, ih]
    unfold offer inserted
    rw [List.filter_cons]
    cases here : v.covers row with
    | true => simp
    | false => simp [Versions.covers]

/-- What holds after a merge: `before` is what was joined before the last iteration, `now` what is since. -/
structure Holds (v : Versions h K1 K2 P A B) (before now : Fact K1 K2 P A B → WithBot (CondOf h)) : Prop where
  new : v.new = {}
  total : v.total.Exact
  delta : v.delta.Exact
  le : before ≤ now
  held_total : ∀ f, v.total.held f = before f
  unchanged : ∀ f, now f = before f → v.delta.held f = ⊥
  changed : ∀ f, now f ≠ before f → v.delta.held f = now f

variable {before now : Fact K1 K2 P A B → WithBot (CondOf h)} {f : Fact K1 K2 P A B}

theorem Holds.start : Holds ({} : Versions h K1 K2 P A B) (fun _ => ⊥) (fun _ => ⊥) :=
  ⟨rfl, CondTrie.exact_empty, CondTrie.exact_empty, le_rfl, fun _ => CondTrie.held_empty,
    fun _ _ => CondTrie.held_empty, fun _ other => absurd rfl other⟩

theorem Holds.covers_iff (holds : v.Holds before now) : v.covers row = true ↔ (row.2 : WithBot (CondOf h)) ≤ now row.1 := by
  rw [covers, Bool.or_eq_true, CondTrie.containsKey_iff, CondTrie.containsKey_iff, holds.held_total]
  by_cases same : now row.1 = before row.1
  · rw [holds.unchanged row.1 same, same]
    simp
  · rw [holds.changed row.1 same]
    exact or_iff_right_of_imp fun below => below.trans (holds.le row.1)

/-- The versions together hold the join of everything inserted. -/
theorem Holds.total_sup_delta (holds : v.Holds before now) (f : Fact K1 K2 P A B) :
    v.total.held f ⊔ v.delta.held f = now f := by
  rw [holds.held_total]
  by_cases same : now f = before f
  · rw [holds.unchanged f same, same, sup_bot_eq]
  · rw [holds.changed f same]
    exact sup_eq_right.mpr (holds.le f)

/-- A row of an iteration that is inserted is not covered. -/
theorem Holds.not_le_of_inserted (holds : v.Holds before now) (member : row ∈ v.inserted rows) :
    ¬(row.2 : WithBot (CondOf h)) ≤ now row.1 := by
  rw [← holds.covers_iff]
  simpa using (List.mem_filter.mp member).2

/-- What an iteration preserves. -/
theorem Holds.iterate (rows : List (Fact K1 K2 P A B × CondOf h)) (holds : v.Holds before now) :
    (v.iterate rows).Holds now fun f => now f ⊔ joined (v.inserted rows) f := by
  obtain ⟨wf, held, -⟩ := CondTrie.insertAll_spec (v.inserted rows) (CondTrie.wf_empty (h := h))
  obtain ⟨total, held_total⟩ := CondTrie.absorb_spec holds.total holds.delta
  have total_eq : ∀ f, (v.total.absorb v.delta).held f = now f := fun f =>
    (held_total f).trans (holds.total_sup_delta f)
  have new_eq : ∀ f, ((v.inserted rows).foldl (fun s row => (s.insert row.1 row.2).1)
      ({} : CondTrie h K1 K2 P A B)).held f = joined (v.inserted rows) f := fun f => by
    rw [held, CondTrie.held_empty, bot_sup_eq]
  unfold Versions.iterate mergeDeltaToTotalNewToDelta
  rw [foldl_offer, holds.new]
  refine ⟨rfl, total, CondTrie.refine_exact wf, fun f => le_sup_left, total_eq, fun f same => ?_, fun f other => ?_⟩
  · rw [sup_eq_left] at same
    refine (CondTrie.held_refine wf).1 ?_ ?_
    · rwa [new_eq, total_eq]
    · rw [new_eq]
      intro top
      -- the fact holds unconditionally already, so nothing is inserted for it
      have none : joined (v.inserted rows) f ≤ ⊥ := joined_le_iff.mpr fun row member here => by
        subst here
        exact absurd (le_top.trans (top.symm.le.trans same)) (holds.not_le_of_inserted member)
      rw [top, ← WithBot.coe_top] at none
      exact WithBot.not_coe_le_bot _ none
  · rw [ne_eq, sup_eq_left] at other
    refine ((CondTrie.held_refine wf).2 ?_).trans ?_
    · rwa [new_eq, total_eq]
    · rw [new_eq, total_eq, sup_comm]

/-- What holds after every merge of a run. -/
theorem run_holds : (run its).Holds (joined (log its.dropLast)) (joined (log its)) := by
  induction its using List.reverseRecOn with
  | nil => exact Holds.start
  | append_singleton its rows ih =>
    rw [run_append, List.dropLast_concat, log_append]
    have step := ih.iterate rows
    have next : (fun f => joined (log its) f ⊔ joined ((run its).inserted rows) f) =
        joined (log its ++ (run its).inserted rows) := funext fun f => joined_append.symm
    exact next ▸ step

/-- The rows left out were covered, so what is joined is the join of all that was derived. -/
theorem joined_log : joined (log its) = joined its.flatten := by
  induction its using List.reverseRecOn with
  | nil => rfl
  | append_singleton its rows ih =>
    funext f
    rw [log_append, List.flatten_append, List.flatten_singleton, joined_append, joined_append, sup_comm, ← ih,
      inserted, joined_filter_sup, sup_comm]
    rintro row - covered rfl
    exact run_holds.covers_iff.mp (by simpa using covered)

/-- The iterations of a run are those of a semi-naive evaluation of the rules: what is derived is concluded
from rows of `total` and `delta`, and all is derived that reads a row of `delta`. The first iteration derives
what reads nothing. -/
structure Evaluates (rules : LatticeRules (Fact K1 K2 P A B) (CondOf h))
    (its : List (List (Fact K1 K2 P A B × CondOf h))) : Prop where
  sound : ∀ before rows, before ++ [rows] <+: its → ∀ row ∈ rows, ∃ premises, rules.fires premises row ∧
    ∀ p ∈ premises, p ∈ (run before).total.rows ∨ p ∈ (run before).delta.rows
  complete : ∀ before rows, before ++ [rows] <+: its → ∀ premises row, rules.fires premises row →
    (∀ p ∈ premises, p ∈ (run before).total.rows ∨ p ∈ (run before).delta.rows) →
    (before = [] ∨ ∃ p ∈ premises, p ∈ (run before).delta.rows) → row ∈ rows

variable {rules : LatticeRules (Fact K1 K2 P A B) (CondOf h)}

theorem mem_total_rows : row ∈ (run its).total.rows ↔ joined (log its.dropLast) row.1 = row.2 := by
  rw [CondTrie.mem_rows run_holds.total, ← CondTrie.held_eq_coe, run_holds.held_total]

theorem mem_delta_rows : row ∈ (run its).delta.rows ↔
    joined (log its) row.1 = row.2 ∧ joined (log its) row.1 ≠ joined (log its.dropLast) row.1 := by
  rw [CondTrie.mem_rows run_holds.delta, ← CondTrie.held_eq_coe]
  by_cases same : joined (log its) row.1 = joined (log its.dropLast) row.1
  · simp [run_holds.unchanged row.1 same, same]
  · simp [run_holds.changed row.1 same, same]

/-- What a row of either version says. -/
theorem le_of_mem_rows (member : row ∈ (run its).total.rows ∨ row ∈ (run its).delta.rows) :
    (row.2 : WithBot (CondOf h)) ≤ joined (log its) row.1 := by
  rcases member with total | delta
  · exact (mem_total_rows.mp total).symm.le.trans (run_holds.le row.1)
  · exact (mem_delta_rows.mp delta).1.symm.le

/-- A run that derives what the rules conclude is a semi-naive evaluation of them. -/
theorem Evaluates.semiNaive (evaluates : Evaluates rules its) : rules.SemiNaive its := by
  have now : ∀ k, LatticeRules.after its k = joined (log (its.take k)) := fun k => joined_log.symm
  have start : ∀ k rows, its[k]? = some rows → its.take k ++ [rows] <+: its := fun k rows found => by
    have next : its.take k ++ [rows] = its.take (k + 1) := by rw [List.take_add_one, found, Option.toList_some]
    exact next ▸ List.take_prefix _ _
  constructor
  · intro k rows found row member
    obtain ⟨premises, fired, read⟩ := evaluates.sound _ rows (start k rows found) row member
    refine ⟨premises, fired, fun p inside => ?_⟩
    rw [now]
    exact le_of_mem_rows (read p inside)
  · intro k rows found premises row fired reads changed
    have length : k < its.length := (List.getElem?_eq_some_iff.mp found).1
    have earlier : LatticeRules.after its (k - 1) = joined (log (its.take k).dropLast) := by
      rw [now, List.dropLast_take length]
    have kept : ∀ p ∈ premises, LatticeRules.after its (k - 1) p.1 = p.2 → p ∈ (run (its.take k)).total.rows :=
      fun p inside same => mem_total_rows.mpr (earlier ▸ same)
    have moved : ∀ p ∈ premises, LatticeRules.after its (k - 1) p.1 ≠ p.2 → p ∈ (run (its.take k)).delta.rows :=
      fun p inside other => by
        have is := reads p inside
        rw [now] at is
        exact mem_delta_rows.mpr ⟨is, fun same => other (by rw [earlier, ← same, is])⟩
    have derived : row ∈ rows := by
      refine evaluates.complete _ rows (start k rows found) premises row fired (fun p inside => ?_) ?_
      · by_cases same : LatticeRules.after its (k - 1) p.1 = p.2
        · exact .inl (kept p inside same)
        · exact .inr (moved p inside same)
      · rcases changed with rfl | ⟨p, inside, other⟩
        · exact .inl (List.take_zero)
        · exact .inr ⟨p, inside, moved p inside other⟩
    rw [LatticeRules.after_succ found]
    exact le_sup_of_le_right (le_joined derived)

/-- When `delta` is left empty, the last iteration changed nothing. -/
theorem joined_dropLast_of_len (done : (run its).delta.len = 0) : joined (log its) = joined (log its.dropLast) := by
  funext f
  by_contra other
  have none : (run its).delta.rows = [] := by
    rw [CondTrie.len_eq run_holds.delta.toWf] at done
    exact List.eq_nil_of_length_eq_zero done
  cases held : joined (log its) f with
  | bot => exact other (held ▸ (le_bot_iff.mp (held ▸ run_holds.le f)).symm)
  | coe c =>
    have row : (f, c) ∈ (run its).delta.rows := mem_delta_rows.mpr ⟨held, other⟩
    simp [none] at row

/-- An iteration that inserts nothing leaves `delta` empty. -/
theorem len_of_inserted (nothing : (run its).inserted rows = []) : (run (its ++ [rows])).delta.len = 0 := by
  rw [CondTrie.len_eq run_holds.delta.toWf, List.length_eq_zero_iff, List.eq_nil_iff_forall_not_mem]
  rintro ⟨f, c⟩ member
  apply (mem_delta_rows.mp member).2
  rw [List.dropLast_concat, log_append, nothing, List.append_nil]

end Versions

end Ctadl.Index
