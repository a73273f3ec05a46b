import Mathlib.Data.Nat.Notation
import Mathlib.Logic.Relation

/-! # Loops

A loop takes steps until one answers.
-/

namespace Ctadl.Collections

variable {σ ρ : Type*} (step : σ → σ ⊕ ρ)

/-- What a loop answers within so many steps. -/
def loop : ℕ → σ → Option ρ
  | 0, _ => none
  | n + 1, s => match step s with
    | .inl s' => loop n s'
    | .inr r => some r

/-- The loop ends, with this answer. -/
def Answers (s : σ) (r : ρ) : Prop := ∃ n, loop step n s = some r

/-- Some steps lead from a state to another. -/
def Leads : σ → σ → Prop := Relation.ReflTransGen fun s s' => step s = .inl s'

variable {step} {s s' : σ} {r r' : ρ}

theorem loop_of_answer {n : ℕ} (answer : step s = .inr r) : loop step (n + 1) s = some r := by
  rw [loop, answer]

theorem loop_of_next {n : ℕ} (next : step s = .inl s') : loop step (n + 1) s = loop step n s' := by
  rw [loop, next]

theorem Answers.intro (answer : step s = .inr r) : Answers step s r := ⟨1, loop_of_answer answer⟩

theorem Answers.after (next : step s = .inl s') (answers : Answers step s' r) : Answers step s r := by
  obtain ⟨n, answers⟩ := answers
  exact ⟨n + 1, (loop_of_next next).trans answers⟩

theorem Leads.answers (leads : Leads step s s') (answers : Answers step s' r) : Answers step s r := by
  induction leads using Relation.ReflTransGen.head_induction_on with
  | refl => exact answers
  | head next _ ih => exact ih.after next

/-- More steps do not change the answer. -/
theorem loop_mono {n m : ℕ} (answers : loop step n s = some r) (le : n ≤ m) : loop step m s = some r := by
  induction n generalizing m s with
  | zero => exact nomatch answers
  | succ n ih =>
    obtain ⟨m, rfl⟩ := Nat.exists_eq_add_of_le' (Nat.one_le_of_lt le)
    cases here : step s with
    | inr answer =>
      rw [loop_of_answer here] at answers ⊢
      exact answers
    | inl next =>
      rw [loop_of_next here] at answers ⊢
      exact ih answers (Nat.le_of_succ_le_succ le)

/-- A loop has one answer. -/
theorem Answers.unique (first : Answers step s r) (second : Answers step s r') : r = r' := by
  obtain ⟨n, first⟩ := first
  obtain ⟨m, second⟩ := second
  have first := loop_mono first (Nat.le_max_left n m)
  have second := loop_mono second (Nat.le_max_right n m)
  exact Option.some.inj (first.symm.trans second)

end Ctadl.Collections
