import Ctadl.Datalog.Store

/-! # Settling a store

A rule set that lists its conclusions is fired until it concludes nothing new. Rows come from a finite list and values
climb a bounded rank, so the number of firings has a bound that needs no stored one. Where the rules are monotone, the
store reached is the one every other order of firing ends in.
-/

namespace Ctadl.Datalog

/-- Rules that list what they conclude, on rows from a finite list and values of bounded rank. -/
structure SettlingRules (Row Val : Type*) [SemilatticeSup Val] where
  /-- The rows that follow from a store in one step. -/
  fire : Store Row Val → List (Row × Val)
  rows : List Row
  bounded : ∀ {s : Store Row Val} {c : Row × Val}, c ∈ fire s → c.1 ∈ rows
  rank : Val → ℕ
  height : ℕ
  rank_lt : ∀ {a b : Val}, a < b → rank a < rank b
  rank_le : ∀ a : Val, rank a ≤ height

namespace SettlingRules

variable {Row Val : Type*} [DecidableEq Row] [SemilatticeSup Val] [DecidableLE Val] (program : SettlingRules Row Val)
  {s t : Store Row Val} {r : Row} {v : Val} {fuel : ℕ}

/-- What the rules conclude, as a relation. -/
def rules : Rules Row Val := fun s r v => (r, v) ∈ program.fire s

/-- A conclusion its row does not hold. -/
def fresh? (s : Store Row Val) : Option (Row × Val) := (program.fire s).find? fun c => !decide ((c.2 : WithBot Val) ≤ s c.1)

def settle : ℕ → Store Row Val → Store Row Val
  | 0, s => s
  | fuel + 1, s =>
    match program.fresh? s with
    | none => s
    | some (r, v) => settle fuel (s.insert r v)

/-- What the rules derive from nothing. -/
def model : Store Row Val := program.settle (program.rows.toFinset.card * (program.height + 1)) fun _ => ⊥

omit [DecidableEq Row] in
theorem saturated_of_fresh?_eq_none (settled : program.fresh? s = none) : Saturated program.rules s := by
  intro r v fires
  have covered := List.find?_eq_none.mp settled (r, v) fires
  simpa using covered

omit [DecidableEq Row] in
theorem of_fresh?_eq_some (found : program.fresh? s = some (r, v)) : program.rules s r v ∧ ¬ (v : WithBot Val) ≤ s r := by
  have conclusion := List.mem_of_find?_eq_some found
  have new := List.find?_some found
  exact ⟨conclusion, by simpa using new⟩

theorem settle_run : Run program.rules s (program.settle fuel s) := by
  induction fuel generalizing s with
  | zero => exact .refl
  | succ fuel ih =>
    rw [settle]
    split
    · exact .refl
    · rename_i r v found
      exact .head ⟨r, v, (program.of_fresh?_eq_some found).1, rfl⟩ ih

/-- How far a row has climbed. -/
def climbed (s : Store Row Val) (r : Row) : ℕ :=
  match s r with
  | ⊥ => 0
  | (v : Val) => program.rank v + 1

/-- How far all rows together have climbed. -/
def climb (s : Store Row Val) : ℕ := ∑ r ∈ program.rows.toFinset, program.climbed s r

omit [DecidableLE Val] in
theorem climb_le : program.climb s ≤ program.rows.toFinset.card * (program.height + 1) := by
  apply Finset.sum_le_card_nsmul
  intro r _
  rw [climbed]
  split
  · exact Nat.zero_le _
  · exact Nat.succ_le_succ (program.rank_le _)

omit [DecidableEq Row] [DecidableLE Val] in
theorem climbed_lt (higher : s r < t r) : program.climbed s r < program.climbed t r := by
  rw [climbed, climbed]
  cases before : s r with
  | bot =>
    cases after : t r with
    | bot => exact absurd higher (by simp [before, after])
    | coe w => exact Nat.succ_pos _
  | coe v =>
    cases after : t r with
    | bot => exact absurd higher (by simp [before, after])
    | coe w =>
      rw [before, after] at higher
      exact Nat.succ_lt_succ (program.rank_lt (WithBot.coe_lt_coe.mp higher))

omit [DecidableLE Val] in
theorem climb_lt_insert (fires : program.rules s r v) (new : ¬ (v : WithBot Val) ≤ s r) :
    program.climb s < program.climb (s.insert r v) := by
  apply Finset.sum_lt_sum
  · intro r' _
    rcases (s.le_insert r v r').lt_or_eq with higher | same
    · exact (program.climbed_lt higher).le
    · rw [climbed, climbed, same]
  · refine ⟨r, List.mem_toFinset.mpr (program.bounded fires), program.climbed_lt ?_⟩
    rw [s.insert_self]
    exact left_lt_sup.mpr new

theorem settle_saturated (enough : program.rows.toFinset.card * (program.height + 1) ≤ program.climb s + fuel) :
    Saturated program.rules (program.settle fuel s) := by
  induction fuel generalizing s with
  | zero =>
    -- no row can climb further
    rw [settle]
    intro r v fires
    by_contra new
    have higher := program.climb_lt_insert fires new
    have bound := program.climb_le (s := s.insert r v)
    omega
  | succ fuel ih =>
    rw [settle]
    split
    · exact program.saturated_of_fresh?_eq_none ‹_›
    · rename_i r v found
      obtain ⟨fires, new⟩ := program.of_fresh?_eq_some found
      have higher := program.climb_lt_insert fires new
      exact ih (by omega)

theorem model_run : Run program.rules (fun _ => ⊥) program.model := program.settle_run

theorem model_saturated : Saturated program.rules program.model := program.settle_saturated (Nat.le_add_left _ _)

/-- Where the rules read monotonically, every order of firing that comes to rest ends in the same store. -/
theorem eq_model (mono : ∀ {s t : Store Row Val} {r v}, s ≤ t → program.rules s r v → ∃ w, program.rules t r w ∧ v ≤ w)
    (run : Run program.rules (fun _ => ⊥) t) (saturated : Saturated program.rules t) : t = program.model := by
  have below {s t : Store Row Val} (run : Run program.rules (fun _ => ⊥) s) (saturated : Saturated program.rules t) : s ≤ t := by
    apply run.le_of_cover (I := fun _ => True) (fun _ => bot_le) trivial (fun _ _ _ _ _ => trivial)
    intro s r v _ le fires
    obtain ⟨w, fires', le'⟩ := mono le fires
    exact (WithBot.coe_le_coe.mpr le').trans (saturated r w fires')
  exact le_antisymm (below run program.model_saturated) (below program.model_run saturated)

end SettlingRules

end Ctadl.Datalog
