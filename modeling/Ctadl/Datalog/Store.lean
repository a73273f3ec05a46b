import Mathlib.Order.WithBot
import Mathlib.Order.Lattice
import Mathlib.Logic.Relation
import Mathlib.Data.Finset.Card
import Mathlib.Algebra.Order.BigOperators.Group.Finset
import Mathlib.Data.Set.Finite.Basic
import Mathlib.Tactic.Push

/-! # Rules over a store of lattice-valued rows

A Datalog engine with lattice columns keeps one value a row, the join of every value the row was
derived with. `Store` is that table, with `⊥` for a row never derived. A rule set is the relation
`Rules` of what may be derived from a store; firing one derivation joins its value into its row, in
any order. Nothing here assumes that the rules are monotone: a rule may read a value that later
grows, and `Run.le_of_cover` isolates exactly what makes the order of firing irrelevant.
-/

namespace Ctadl.Datalog

/-- One value a row, `⊥` where the row was never derived. -/
abbrev Store (Row Val : Type*) := Row → WithBot Val

/-- What one firing may derive from a store: a row and the value it is derived with. -/
abbrev Rules (Row Val : Type*) := Store Row Val → Row → Val → Prop

section Reads

variable {Row Val : Type*} {s t : Store Row Val} {r : Row} {v : Val}

/-- The row was derived. -/
def Present (s : Store Row Val) (r : Row) : Prop := s r ≠ ⊥

/-- The row holds exactly the value `v`. -/
def Held (s : Store Row Val) (r : Row) (v : Val) : Prop := s r = v

theorem Held.present (held : Held s r v) : Present s r := by
  simp [Present, show s r = v from held]

theorem Present.held (present : Present s r) : ∃ v, Held s r v := by
  obtain ⟨v, value⟩ := WithBot.ne_bot_iff_exists.mp present
  exact ⟨v, value.symm⟩

theorem Held.of_eq (held : Held s r v) (same : s r = t r) : Held t r v := same.symm.trans held

theorem Present.of_eq (present : Present s r) (same : s r = t r) : Present t r :=
  fun absent => present (same.trans absent)

variable [PartialOrder Val]

/-- A value read from a smaller store is still there, possibly raised. -/
theorem Held.raise (held : Held s r v) (below : s r ≤ t r) : ∃ w, Held t r w ∧ v ≤ w := by
  rw [show s r = v from held] at below
  exact WithBot.coe_le_iff.mp below

theorem Present.mono (present : Present s r) (below : s r ≤ t r) : Present t r :=
  fun absent => present (le_bot_iff.mp (absent ▸ below))

theorem present_of_le (bound : (v : WithBot Val) ≤ s r) : Present s r := by
  intro absent
  simp [absent] at bound

variable [OrderTop Val]

/-- The row has reached the greatest value. -/
def Certain (s : Store Row Val) (r : Row) : Prop := Held s r ⊤

theorem Certain.present (certain : Certain s r) : Present s r := Held.present certain

theorem Certain.of_eq (certain : Certain s r) (same : s r = t r) : Certain t r := Held.of_eq certain same

theorem Certain.mono (certain : Certain s r) (below : s r ≤ t r) : Certain t r := by
  obtain ⟨w, held, bound⟩ := Held.raise certain below
  rwa [top_le_iff.mp bound] at held

theorem certain_of_le (bound : ((⊤ : Val) : WithBot Val) ≤ s r) : Certain s r := by
  obtain ⟨w, held, least⟩ := WithBot.coe_le_iff.mp bound
  rwa [top_le_iff.mp least] at held

end Reads

section

variable {Row Val : Type*} [DecidableEq Row] [SemilatticeSup Val]

/-- Joins a derived value into its row, leaving every other row alone. -/
def Store.insert (s : Store Row Val) (r : Row) (v : Val) : Store Row Val :=
  Function.update s r (s r ⊔ v)

@[simp] theorem Store.insert_self (s : Store Row Val) (r : Row) (v : Val) :
    s.insert r v r = s r ⊔ v := Function.update_self ..

theorem Store.insert_of_ne (s : Store Row Val) {r r' : Row} (v : Val) (other : r' ≠ r) :
    s.insert r v r' = s r' := Function.update_of_ne other ..

theorem Store.le_insert (s : Store Row Val) (r : Row) (v : Val) : s ≤ s.insert r v := by
  intro r'
  by_cases same : r' = r
  · subst same
    simp
  · rw [s.insert_of_ne v same]

theorem Store.insert_le {s t : Store Row Val} {r : Row} {v : Val} (below : s ≤ t)
    (covered : (v : WithBot Val) ≤ t r) : s.insert r v ≤ t := by
  intro r'
  by_cases same : r' = r
  · subst same
    simpa using ⟨below r', covered⟩
  · rw [s.insert_of_ne v same]
    exact below r'

/-- What an insertion leaves in a row was there before, or is the row inserted. -/
theorem Store.of_insert {s : Store Row Val} {r r' : Row} {v : Val} (held : s.insert r v r' ≠ ⊥) :
    r' = r ∨ s r' ≠ ⊥ := by
  by_cases same : r' = r
  · exact .inl same
  · exact .inr (s.insert_of_ne v same ▸ held)

theorem Store.present_insert {s : Store Row Val} {r r' : Row} {v : Val} :
    Present (s.insert r v) r' ↔ r' = r ∨ Present s r' := by
  refine ⟨Store.of_insert, ?_⟩
  rintro (rfl | old)
  · exact present_of_le (v := v) (by simp)
  · exact old.mono (s.le_insert r v r')

theorem Certain.insert [OrderTop Val] {s : Store Row Val} {r' : Row} (certain : Certain s r') (r : Row) (v : Val) :
    Certain (s.insert r v) r' := certain.mono (s.le_insert r v r')

/-- What an insertion leaves in a row: what was there, the value inserted, or their join. -/
theorem Store.held_insert {s : Store Row Val} {r r' : Row} {v w : Val} (held : Held (s.insert r v) r' w) :
    Held s r' w ∨ r' = r ∧ (w = v ∨ ∃ old, Held s r old ∧ w = old ⊔ v) := by
  by_cases same : r' = r
  · subst same
    rw [Held, s.insert_self] at held
    cases before : s r' with
    | bot => exact .inr ⟨rfl, .inl (by simpa [before] using held.symm)⟩
    | coe old =>
      exact .inr ⟨rfl, .inr ⟨old, before, by simpa [before, ← WithBot.coe_sup] using held.symm⟩⟩
  · rw [Held, s.insert_of_ne v same] at held
    exact .inl held

/-- One firing. -/
def Step (rules : Rules Row Val) (s t : Store Row Val) : Prop :=
  ∃ r v, rules s r v ∧ t = s.insert r v

/-- Any number of firings, in any order. -/
abbrev Run (rules : Rules Row Val) : Store Row Val → Store Row Val → Prop :=
  Relation.ReflTransGen (Step rules)

/-- A firing that changes the store. -/
def Grows (rules : Rules Row Val) (s t : Store Row Val) : Prop :=
  ∃ r v, rules s r v ∧ ¬ (v : WithBot Val) ≤ s r ∧ t = s.insert r v

/-- No firing changes the store. -/
def Saturated (rules : Rules Row Val) (s : Store Row Val) : Prop :=
  ∀ r v, rules s r v → (v : WithBot Val) ≤ s r

variable {rules rules' : Rules Row Val} {s t : Store Row Val}

theorem Step.le (step : Step rules s t) : s ≤ t := by
  obtain ⟨r, v, -, rfl⟩ := step
  exact s.le_insert r v

theorem Run.le (run : Run rules s t) : s ≤ t := by
  induction run with
  | refl => exact le_rfl
  | tail _ step ih => exact ih.trans step.le

theorem Run.snoc {r : Row} {v : Val} (run : Run rules s t) (fires : rules t r v) :
    Run rules s (t.insert r v) := run.tail ⟨r, v, fires, rfl⟩

theorem Run.mono (sub : ∀ s r v, rules s r v → rules' s r v) (run : Run rules s t) :
    Run rules' s t := by
  refine Relation.ReflTransGen.mono ?_ _ _ run
  rintro _ _ ⟨r, v, fires, rfl⟩
  exact ⟨r, v, sub _ r v fires, rfl⟩

omit [DecidableEq Row] in
omit [DecidableEq Row] in
theorem Saturated.held {r : Row} {v : Val} (sat : Saturated rules s) (fires : rules s r v) :
    ∃ w, Held s r w ∧ v ≤ w := WithBot.coe_le_iff.mp (sat r v fires)

omit [DecidableEq Row] in
theorem Saturated.present {r : Row} {v : Val} (sat : Saturated rules s) (fires : rules s r v) :
    Present s r := present_of_le (sat r v fires)

/-- The invariant rule: what one firing preserves, every run preserves. -/
theorem Run.preserves {I : Store Row Val → Prop} (run : Run rules s t) (initial : I s)
    (step : ∀ s r v, I s → rules s r v → I (s.insert r v)) : I t := by
  induction run with
  | refl => exact initial
  | tail _ last ih =>
    obtain ⟨r, v, fires, rfl⟩ := last
    exact step _ r v ih fires

/-- A run stays below every store that covers what it may derive. Monotone rules are covered by any
saturated store; a rule that is not monotone needs an argument of its own. -/
theorem Run.le_of_cover {I : Store Row Val → Prop} {top : Store Row Val} (run : Run rules s t)
    (below : s ≤ top) (initial : I s)
    (step : ∀ s r v, I s → rules s r v → I (s.insert r v))
    (cover : ∀ s r v, I s → s ≤ top → rules s r v → (v : WithBot Val) ≤ top r) : t ≤ top := by
  have both : I t ∧ t ≤ top := by
    apply run.preserves (I := fun s => I s ∧ s ≤ top) ⟨initial, below⟩
    rintro s r v ⟨inv, le⟩ fires
    exact ⟨step s r v inv fires, Store.insert_le le (cover s r v inv le fires)⟩
  exact both.2

end

section Termination

variable {Row Val : Type*} [DecidableEq Row] [SemilatticeSup Val]

open scoped Classical in
/-- How many of the values `vals` the rows `rows` have already absorbed. -/
noncomputable def weight (rows : Finset Row) (vals : Finset Val) (s : Store Row Val) : ℕ :=
  ∑ r ∈ rows, (vals.filter fun v : Val => (v : WithBot Val) ≤ s r).card

omit [DecidableEq Row] in
theorem weight_le (rows : Finset Row) (vals : Finset Val) (s : Store Row Val) :
    weight rows vals s ≤ rows.card * vals.card := by
  classical
  unfold weight
  calc
    _ ≤ ∑ _r ∈ rows, vals.card := Finset.sum_le_sum fun r _ => Finset.card_filter_le _ _
    _ = rows.card * vals.card := by rw [Finset.sum_const, Nat.nsmul_eq_mul]

theorem weight_lt_insert {rows : Finset Row} {vals : Finset Val} {s : Store Row Val} {r : Row}
    {v : Val} (row : r ∈ rows) (val : v ∈ vals) (fresh : ¬ (v : WithBot Val) ≤ s r) :
    weight rows vals s < weight rows vals (s.insert r v) := by
  classical
  unfold weight
  refine Finset.sum_lt_sum (fun r' _ => ?_) ⟨r, row, ?_⟩
  · refine Finset.card_le_card fun w member => ?_
    simp only [Finset.mem_filter] at member ⊢
    exact ⟨member.1, member.2.trans (s.le_insert r v r')⟩
  · refine Finset.card_lt_card (Finset.ssubset_iff_subset_ne.mpr ⟨fun w member => ?_, fun same => ?_⟩)
    · simp only [Finset.mem_filter] at member ⊢
      exact ⟨member.1, member.2.trans (s.le_insert r v r)⟩
    · have member : v ∈ vals.filter fun w : Val => (w : WithBot Val) ≤ s.insert r v r := by
        simp only [Finset.mem_filter, Store.insert_self]
        exact ⟨val, le_sup_right⟩
      rw [← same, Finset.mem_filter] at member
      exact fresh member.2

/-- Firing terminates when every derivation draws its row and its value from finite sets: some run
from any store with the invariant is saturated. -/
theorem exists_saturated {rules : Rules Row Val} {I : Store Row Val → Prop}
    {rows : Set Row} {vals : Set Val} (finiteRows : rows.Finite) (finiteVals : vals.Finite)
    (step : ∀ s r v, I s → rules s r v → I (s.insert r v))
    (bounded : ∀ s r v, I s → rules s r v → r ∈ rows ∧ v ∈ vals)
    {s : Store Row Val} (initial : I s) : ∃ t, Run rules s t ∧ Saturated rules t := by
  classical
  obtain ⟨left, account⟩ : ∃ left, left = finiteRows.toFinset.card * finiteVals.toFinset.card -
      weight finiteRows.toFinset finiteVals.toFinset s := ⟨_, rfl⟩
  induction left using Nat.strong_induction_on generalizing s with
  | _ left ih =>
    by_cases done : Saturated rules s
    · exact ⟨s, .refl, done⟩
    · unfold Saturated at done
      push Not at done
      obtain ⟨r, v, fires, fresh⟩ := done
      obtain ⟨row, val⟩ := bounded s r v initial fires
      have grows := weight_lt_insert (finiteRows.mem_toFinset.mpr row)
        (finiteVals.mem_toFinset.mpr val) fresh
      have bound := weight_le finiteRows.toFinset finiteVals.toFinset (s.insert r v)
      obtain ⟨t, run, sat⟩ := ih _ (by omega) (step s r v initial fires) rfl
      exact ⟨t, .head ⟨r, v, fires, rfl⟩ run, sat⟩

/-- In any order, only so many firings change the store. -/
theorem le_of_grows {rules : Rules Row Val} {I : Store Row Val → Prop} {rows : Set Row} {vals : Set Val}
    (finiteRows : rows.Finite) (finiteVals : vals.Finite)
    (step : ∀ s r v, I s → rules s r v → I (s.insert r v))
    (bounded : ∀ s r v, I s → rules s r v → r ∈ rows ∧ v ∈ vals) {trace : ℕ → Store Row Val} (initial : I (trace 0))
    {n : ℕ} (grows : ∀ i < n, Grows rules (trace i) (trace (i + 1))) :
    I (trace n) ∧ n ≤ finiteRows.toFinset.card * finiteVals.toFinset.card := by
  -- every one of them adds to the weight
  have climbs : I (trace n) ∧ n ≤ weight finiteRows.toFinset finiteVals.toFinset (trace n) := by
    induction n with
    | zero => exact ⟨initial, Nat.zero_le _⟩
    | succ n ih =>
      obtain ⟨inv, weighs⟩ := ih fun i less => grows i (Nat.lt_succ_of_lt less)
      obtain ⟨r, v, fires, fresh, next⟩ := grows n n.lt_succ_self
      obtain ⟨row, val⟩ := bounded _ r v inv fires
      rw [next]
      have grown := weight_lt_insert (finiteRows.mem_toFinset.mpr row) (finiteVals.mem_toFinset.mpr val) fresh
      exact ⟨step _ r v inv fires, by omega⟩
  exact ⟨climbs.1, climbs.2.trans (weight_le _ _ _)⟩

end Termination

end Ctadl.Datalog
