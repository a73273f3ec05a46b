import Mathlib.Order.WithBot
import Mathlib.Order.Lattice
import Mathlib.Data.List.Forall2
import Mathlib.Data.Nat.Find

/-! # A relation that gives each fact one lattice value

A row is a fact and a value, and a fact holds under the join of the values derived for it. Rules read rows
and conclude a row, and are monotone in the values they read. A lattice evaluation joins in place until
nothing grows; semi-naive evaluation fires, each iteration, only what reads a value that changed in the
last one. Both end in the least assignment that the rules close.
-/

namespace Ctadl.Datalog

variable {F C : Type*} [DecidableEq F] [SemilatticeSup C]

/-- The join of the values the rows give a fact. -/
def joined (rows : List (F × C)) (f : F) : WithBot C :=
  rows.foldr (fun row acc => (if row.1 = f then (row.2 : WithBot C) else ⊥) ⊔ acc) ⊥

@[simp] theorem joined_nil {f : F} : joined ([] : List (F × C)) f = ⊥ := rfl

theorem joined_cons {row : F × C} {rows : List (F × C)} {f : F} :
    joined (row :: rows) f = (if row.1 = f then (row.2 : WithBot C) else ⊥) ⊔ joined rows f := rfl

@[simp] theorem joined_append {rows more : List (F × C)} {f : F} :
    joined (rows ++ more) f = joined rows f ⊔ joined more f := by
  induction rows with
  | nil => simp
  | cons row rows ih => rw [List.cons_append, joined_cons, joined_cons, ih, sup_assoc]

theorem joined_le_iff {rows : List (F × C)} {f : F} {b : WithBot C} :
    joined rows f ≤ b ↔ ∀ row ∈ rows, row.1 = f → (row.2 : WithBot C) ≤ b := by
  induction rows with
  | nil => simp
  | cons row rows ih =>
    rw [joined_cons, sup_le_iff, ih, List.forall_mem_cons]
    apply and_congr_left'
    split_ifs with here <;> simp [here]

theorem le_joined {rows : List (F × C)} {row : F × C} (member : row ∈ rows) : (row.2 : WithBot C) ≤ joined rows row.1 :=
  joined_le_iff.mp le_rfl row member rfl

/-- Leaving out rows that are covered anyway changes no join. -/
theorem joined_filter_sup {rows : List (F × C)} {keep : F × C → Bool} {f : F} {b : WithBot C}
    (covered : ∀ row ∈ rows, keep row = false → row.1 = f → (row.2 : WithBot C) ≤ b) :
    joined (rows.filter keep) f ⊔ b = joined rows f ⊔ b := by
  apply le_antisymm
  · refine sup_le_sup_right (joined_le_iff.mpr fun row member here => ?_) b
    exact here ▸ le_joined (List.mem_of_mem_filter member)
  · refine sup_le (joined_le_iff.mpr fun row member here => ?_) le_sup_right
    cases kept : keep row with
    | true =>
      have inside : row ∈ rows.filter keep := List.mem_filter.mpr ⟨member, kept⟩
      exact le_sup_of_le_left (here ▸ le_joined inside)
    | false => exact le_sup_of_le_right (covered row member kept here)

/-- Rules over the rows of one relation. Reading a fact under a greater value concludes no less. -/
structure LatticeRules (F C : Type*) [SemilatticeSup C] where
  fires : List (F × C) → F × C → Prop
  mono : ∀ {premises raised : List (F × C)} {row : F × C},
    List.Forall₂ (fun p q => p.1 = q.1 ∧ p.2 ≤ q.2) premises raised → fires premises row →
    ∃ c, row.2 ≤ c ∧ fires raised (row.1, c)

namespace LatticeRules

/-- The premises are rows of the assignment. -/
def Reads (held : F → WithBot C) (premises : List (F × C)) : Prop := ∀ p ∈ premises, held p.1 = p.2

variable {rules : LatticeRules F C} {held : F → WithBot C} {premises : List (F × C)} {row : F × C}

/-- Nothing the rules conclude makes a value grow. -/
def Closed (rules : LatticeRules F C) (held : F → WithBot C) : Prop :=
  ∀ premises row, rules.fires premises row → Reads held premises → (row.2 : WithBot C) ≤ held row.1

/-- What joining conclusions into the assignment in place, one after another, reaches. -/
inductive Reached (rules : LatticeRules F C) : (F → WithBot C) → Prop
  | start : Reached rules fun _ => ⊥
  | join {held : F → WithBot C} {premises : List (F × C)} {row : F × C} : Reached rules held →
      rules.fires premises row → Reads held premises →
      Reached rules (Function.update held row.1 (held row.1 ⊔ row.2))

/-- The assignment a lattice evaluation ends in: joins reach it, and no join changes it. -/
def Fixpoint (rules : LatticeRules F C) (held : F → WithBot C) : Prop := rules.Reached held ∧ rules.Closed held

omit [DecidableEq F] in
/-- Premises below a closed assignment conclude below it. -/
theorem Closed.le_of_below (closed : rules.Closed held) (fired : rules.fires premises row)
    (below : ∀ p ∈ premises, (p.2 : WithBot C) ≤ held p.1) : (row.2 : WithBot C) ≤ held row.1 := by
  have raise : ∃ raised, List.Forall₂ (fun p q => p.1 = q.1 ∧ p.2 ≤ q.2) premises raised ∧ Reads held raised := by
    clear fired
    induction premises with
    | nil => exact ⟨[], .nil, by simp [Reads]⟩
    | cons p premises ih =>
      obtain ⟨here, later⟩ := List.forall_mem_cons.mp below
      obtain ⟨raised, up, reads⟩ := ih later
      obtain ⟨c, at', le⟩ := WithBot.le_iff_forall.mp here p.2 rfl
      exact ⟨(p.1, c) :: raised, .cons ⟨rfl, le⟩ up, List.forall_mem_cons.mpr ⟨at', reads⟩⟩
  obtain ⟨raised, up, reads⟩ := raise
  obtain ⟨c, le, fired'⟩ := rules.mono up fired
  exact (WithBot.coe_le_coe.mpr le).trans (closed raised _ fired' reads)

/-- Every assignment reached is below every closed one. -/
theorem Reached.le_closed {closed' : F → WithBot C} (reached : rules.Reached held) (closed : rules.Closed closed') :
    held ≤ closed' := by
  induction reached with
  | start => exact fun _ => bot_le
  | @join held premises row _ fired reads ih =>
    intro f
    by_cases here : f = row.1
    · subst here
      rw [Function.update_self]
      exact sup_le (ih _) (closed.le_of_below fired fun p member => reads p member ▸ ih p.1)
    · rw [Function.update_of_ne here]
      exact ih f

/-- The assignment after the first `k` iterations. -/
def after (its : List (List (F × C))) (k : ℕ) : F → WithBot C := joined (its.take k).flatten

/-- The iterations are those of a semi-naive evaluation: what is added is concluded from what is known, and
all is added that reads a value that changed in the last iteration. The first one reads nothing. -/
structure SemiNaive (rules : LatticeRules F C) (its : List (List (F × C))) : Prop where
  sound : ∀ k rows, its[k]? = some rows → ∀ row ∈ rows,
    ∃ premises, rules.fires premises row ∧ ∀ p ∈ premises, (p.2 : WithBot C) ≤ after its k p.1
  complete : ∀ k rows, its[k]? = some rows → ∀ premises row, rules.fires premises row → Reads (after its k) premises →
    (k = 0 ∨ ∃ p ∈ premises, after its (k - 1) p.1 ≠ p.2) → (row.2 : WithBot C) ≤ after its (k + 1) row.1

variable {its : List (List (F × C))}

@[simp] theorem after_zero {f : F} : after its 0 f = ⊥ := by simp [after]

theorem after_succ {k : ℕ} {rows : List (F × C)} {f : F} (found : its[k]? = some rows) :
    after its (k + 1) f = after its k f ⊔ joined rows f := by
  simp [after, List.take_add_one, found]

theorem after_mono {k l : ℕ} (le : k ≤ l) : after its k ≤ after its l := by
  intro f
  obtain ⟨n, rfl⟩ := Nat.exists_eq_add_of_le le
  simp [after, List.take_add]

/-- What semi-naive evaluation holds is below every closed assignment. -/
theorem SemiNaive.le_closed (semi : rules.SemiNaive its) (closed : rules.Closed held) (k : ℕ) : after its k ≤ held := by
  induction k with
  | zero => exact fun f => by simp
  | succ k ih =>
    intro f
    cases found : its[k]? with
    | none =>
      have short : its.length ≤ k := List.getElem?_eq_none_iff.mp found
      have same : after its (k + 1) f = after its k f := by simp [after, List.take_of_length_le, short, Nat.le_succ_of_le]
      exact same ▸ ih f
    | some rows =>
      rw [after_succ found]
      refine sup_le (ih f) (joined_le_iff.mpr fun row member here => ?_)
      obtain ⟨premises, fired, below⟩ := semi.sound k rows found row member
      subst here
      exact closed.le_of_below fired fun p inside => (below p inside).trans (ih p.1)

/-- When the last iteration changed nothing, the rules close what is held. -/
theorem SemiNaive.closed (semi : rules.SemiNaive its) (some : its ≠ [])
    (stable : after its its.length = after its (its.length - 1)) : rules.Closed (after its its.length) := by
  classical
  intro premises row fired reads
  have ever : ∃ k, Reads (after its k) premises := ⟨its.length, reads⟩
  -- the first iteration after which every premise is as it stays; the next one fires
  let first := Nat.find ever
  have now : Reads (after its first) premises := Nat.find_spec ever
  have early : first ≤ its.length - 1 := Nat.find_min' ever (stable ▸ reads)
  have length : 0 < its.length := List.length_pos_iff.mpr some
  have inside : first < its.length := by omega
  have changed : first = 0 ∨ ∃ p ∈ premises, after its (first - 1) p.1 ≠ p.2 := by
    by_cases start : first = 0
    · exact .inl start
    · right
      have before : ¬Reads (after its (first - 1)) premises := Nat.find_min ever (by omega)
      simpa [Reads] using before
  have added := semi.complete first its[first] (List.getElem?_eq_getElem inside) premises row fired now changed
  exact added.trans (after_mono (by omega : first + 1 ≤ its.length) row.1)

/-- It is what every lattice evaluation that ends holds. -/
theorem SemiNaive.eq_fixpoint (semi : rules.SemiNaive its) (some : its ≠ [])
    (stable : after its its.length = after its (its.length - 1)) (fixpoint : rules.Fixpoint held) :
    after its its.length = held :=
  le_antisymm (semi.le_closed fixpoint.2 its.length) (fixpoint.1.le_closed (semi.closed some stable))

end LatticeRules

end Ctadl.Datalog
