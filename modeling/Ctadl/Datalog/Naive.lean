import Mathlib.Data.Finset.Card
import Mathlib.Data.List.Dedup
import Mathlib.Data.Finset.Dedup

/-! # Naive evaluation of a monotone rule set

A Datalog program without lattice columns: `rule` says what follows from a set of rows in one step and
`fire` computes it. Rounds are added up until one derives nothing new. The rows that can ever be derived
come from a finite list, whose length bounds the number of rounds, and what is reached is the least set
closed under the rules (`mem_model_iff`).
-/

namespace Ctadl.Datalog

/-- A monotone rule set whose rows come from a finite list. -/
structure RuleProgram (Row : Type*) where
  /-- What follows from a set of rows in one step. -/
  rule : (Row → Prop) → Row → Prop
  mono : ∀ {known more : Row → Prop}, (∀ r, known r → more r) → ∀ r, rule known r → rule more r
  /-- The rows that follow from a list of rows. -/
  fire : List Row → List Row
  mem_fire : ∀ {known r}, r ∈ fire known ↔ rule (· ∈ known) r
  /-- Every row that can be derived. -/
  rows : List Row
  bounded : ∀ {known}, known ⊆ rows → fire known ⊆ rows

namespace RuleProgram

variable {Row : Type*} [DecidableEq Row] (program : RuleProgram Row)

/-- What one round derives beyond what is known. -/
def fresh (known : List Row) : List Row := ((program.fire known).filter (· ∉ known)).dedup

/-- Adds rounds of derivations until one derives nothing new. -/
def rounds : ℕ → List Row → List Row
  | 0, known => known
  | fuel + 1, known => if program.fresh known = [] then known else rounds fuel (known ++ program.fresh known)

/-- The rows the program derives. -/
def model : List Row := program.rounds program.rows.length []

/-- A row of every set that is closed under the rules. -/
def Least (r : Row) : Prop := ∀ S : Row → Prop, (∀ r, program.rule S r → S r) → S r

omit [DecidableEq Row] in
/-- The least set is closed under the rules. -/
theorem Least.of_rule {r : Row} (derived : program.rule program.Least r) : program.Least r :=
  fun S closed => closed r (program.mono (fun _ least => least S closed) r derived)

theorem mem_fresh {known : List Row} {r : Row} : r ∈ program.fresh known ↔ r ∈ program.fire known ∧ r ∉ known := by
  simp [fresh]

theorem rounds_least {fuel : ℕ} {known : List Row} (least : ∀ r ∈ known, program.Least r) :
    ∀ r ∈ program.rounds fuel known, program.Least r := by
  induction fuel generalizing known with
  | zero => exact least
  | succ fuel ih =>
    unfold rounds
    split_ifs
    · exact least
    · refine ih fun r mem => ?_
      rcases List.mem_append.mp mem with old | fresh
      · exact least r old
      · have fired := program.mem_fire.mp (program.mem_fresh.mp fresh).1
        exact Least.of_rule program (program.mono (fun r mem => least r mem) r fired)

private theorem toFinset_subset_of_subset {l r : List Row} (inside : l ⊆ r) : l.toFinset ⊆ r.toFinset :=
  fun _ mem => List.mem_toFinset.mpr (inside (List.mem_toFinset.mp mem))

theorem rounds_closed {fuel : ℕ} {known : List Row} (inside : known ⊆ program.rows)
    (enough : program.rows.toFinset.card ≤ known.toFinset.card + fuel) :
    program.fire (program.rounds fuel known) ⊆ program.rounds fuel known := by
  induction fuel generalizing known with
  | zero =>
    -- every row is known already
    have all := Finset.eq_of_subset_of_card_le (toFinset_subset_of_subset inside) enough
    intro r mem
    have row : r ∈ program.rows.toFinset := List.mem_toFinset.mpr (program.bounded inside mem)
    rw [← all] at row
    exact List.mem_toFinset.mp row
  | succ fuel ih =>
    unfold rounds
    split_ifs with done
    · intro r mem
      by_contra new
      exact List.not_mem_nil (done ▸ program.mem_fresh.mpr ⟨mem, new⟩)
    · have inside' : known ++ program.fresh known ⊆ program.rows :=
        List.append_subset.mpr ⟨inside, fun r mem => program.bounded inside (program.mem_fresh.mp mem).1⟩
      refine ih inside' ?_
      obtain ⟨r, mem⟩ := List.exists_mem_of_ne_nil _ done
      have grows : known.toFinset ⊂ (known ++ program.fresh known).toFinset := by
        refine Finset.ssubset_iff.mpr ⟨r, ?_, ?_⟩
        · exact fun old => (program.mem_fresh.mp mem).2 (List.mem_toFinset.mp old)
        · exact Finset.insert_subset (List.mem_toFinset.mpr (List.mem_append_right known mem))
            (toFinset_subset_of_subset (List.subset_append_left _ _))
      have card := Finset.card_lt_card grows
      omega

/-- What naive evaluation derives is the least set closed under the rules. -/
theorem mem_model_iff {r : Row} : r ∈ program.model ↔ program.Least r := by
  constructor
  · exact program.rounds_least (by simp) r
  · intro least
    have bound := List.toFinset_card_le program.rows
    have closed : program.fire program.model ⊆ program.model :=
      program.rounds_closed (List.nil_subset _) (by simpa using bound)
    exact least (· ∈ program.model) fun r derived => closed (program.mem_fire.mpr derived)

/-- The rules hold of what was derived. -/
theorem mem_model_of_rule {r : Row} (derived : program.rule (· ∈ program.model) r) : r ∈ program.model := by
  rw [mem_model_iff]
  exact Least.of_rule program (program.mono (fun _ mem => program.mem_model_iff.mp mem) r derived)

/-- Induction on derivations: what the rules preserve holds of every row derived. -/
theorem model_induction {S : Row → Prop} (closed : ∀ r, program.rule S r → S r) {r : Row}
    (mem : r ∈ program.model) : S r := program.mem_model_iff.mp mem S closed

end RuleProgram

end Ctadl.Datalog
