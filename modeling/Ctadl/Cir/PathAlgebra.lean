import Ctadl.Cir.Path
import Mathlib.Algebra.FreeMonoid.Basic
import Mathlib.GroupTheory.Congruence.Defs

/-! # The normal form decides path equality

The equations of the path algebra generate a congruence on segment lists. A normal path is a body that ends in a field,
in a `deref` or nowhere, and after it the residue of a sum or a `#value`; a push of an offset or a `#value` changes only
what is after the body, by one equation. So both sides of an equation push alike (`concat_congr`), and two lists have one
normal form exactly when the equations make them equal (`normalize_eq_iff`).
-/

namespace Ctadl.Cir

open PathSegment

/-- The equations of the path algebra. Fields and `deref` obey none. -/
inductive Equation : List PathSegment → List PathSegment → Prop
  | add (i j : Int64) : Equation [.offset i, .offset j] [.offset (i + j)]
  | zero : Equation [.offset 0] []
  | valueValue : Equation [.value, .value] [.value]
  | offsetValue (k : Int64) : Equation [.offset k, .value] [.value]
  | valueOffset (k : Int64) : Equation [.value, .offset k] [.value]

/-- Equality in the congruence the equations generate. -/
def Congruent (p q : List PathSegment) : Prop :=
  conGen (fun l r : FreeMonoid PathSegment => Equation l.toList r.toList) (.ofList p) (.ofList q)

/-- True if the segments are already in normal form. -/
def isNormal (segments : List PathSegment) : Bool := normalize segments = segments

theorem isNormal_iff {p : List PathSegment} : isNormal p ↔ Clear p := by
  rw [isNormal, decide_eq_true_iff, normalize_eq_self_iff]

namespace Congruent

variable {p q r s : List PathSegment}

theorem refl (p : List PathSegment) : Congruent p p := Con.refl _ _

theorem symm (same : Congruent p q) : Congruent q p := Con.symm _ same

theorem trans (first : Congruent p q) (second : Congruent q r) : Congruent p r := Con.trans _ first second

theorem append (front : Congruent p q) (back : Congruent r s) : Congruent (p ++ r) (q ++ s) := Con.mul _ front back

theorem of_equation (equation : Equation p q) : Congruent p q := ConGen.Rel.of _ _ equation

/-- An equation applied at the end of a list. -/
theorem at_end (equation : Equation p q) (init : List PathSegment) : Congruent (init ++ p) (init ++ q) :=
  (refl init).append (of_equation equation)

end Congruent

section Pushes

/-- What is left of a sum of offsets: nothing of zero. -/
def residue (k : Int64) : List PathSegment := if k = 0 then [] else [.offset k]

/-- The list does not end in an offset or a `#value`. -/
def HardEnd (body : List PathSegment) : Prop := ∀ a ∈ body.getLast?, a.soft = false

variable {body out : List PathSegment} {i j k : Int64}

/-- A normal path is a body and the residue of a sum, or a body and a `#value`. -/
theorem Clear.exists_body (clear : Clear out) :
    ∃ body, HardEnd body ∧ ((∃ k, out = body ++ residue k) ∨ out = body ++ [.value]) := by
  cases last : out.getLast? with
  | none => exact ⟨out, by simp [HardEnd, last], .inl ⟨0, by simp [residue]⟩⟩
  | some a =>
    obtain ⟨init, rfl⟩ := List.getLast?_eq_some_iff.mp last
    have before : a.soft → HardEnd init := by
      intro soft b ends
      have apart := (Clear.append_iff.mp clear).2.2 b ends a rfl
      simpa [soft] using apart
    cases a with
    | field name => exact ⟨init ++ [.field name], by simp [HardEnd, soft], .inl ⟨0, by simp [residue]⟩⟩
    | deref => exact ⟨init ++ [.deref], by simp [HardEnd, soft], .inl ⟨0, by simp [residue]⟩⟩
    | value => exact ⟨init, before rfl, .inr rfl⟩
    | offset k =>
      have nonzero : k ≠ 0 := by
        rintro rfl
        exact clear.2 (by simp)
      exact ⟨init, before rfl, .inl ⟨k, by simp [residue, nonzero]⟩⟩

variable (hard : HardEnd body)
include hard

/-- An offset adds to the sum after the body. -/
theorem pushNormalized_residue_offset :
    pushNormalized (body ++ residue i) (.offset j) = body ++ residue (i + j) := by
  by_cases zero : i = 0
  · subst zero
    have plain : pushNormalized body (.offset j) = if j = 0 then body else body ++ [.offset j] := by
      cases last : body.getLast? with
      | none => simp [pushNormalized, last]
      | some a =>
        have hardLast := hard a last
        cases a <;> simp_all [pushNormalized, soft]
    simp only [residue, if_true, List.append_nil, Int64.zero_add]
    rw [plain]
    split_ifs <;> simp
  · by_cases cancel : i + j = 0 <;> simp [residue, zero, cancel, pushNormalized]

omit hard in
theorem pushNormalized_value_offset : pushNormalized (body ++ [.value]) (.offset j) = body ++ [.value] := by
  simp [pushNormalized]

/-- A `#value` takes the place of the sum after the body. -/
theorem pushNormalized_residue_value : pushNormalized (body ++ residue i) .value = body ++ [.value] := by
  have unvalued : body.getLast? ≠ some .value := fun last => by simpa [soft] using hard _ last
  by_cases zero : i = 0
  · subst zero
    cases last : body.getLast? with
    | none => simp [residue, pushNormalized, last]
    | some a =>
      have hardLast := hard a last
      cases a <;> simp_all [residue, pushNormalized, soft, isOffset]
  · simp [residue, zero, pushNormalized, isOffset, unvalued]

omit hard in
theorem pushNormalized_value_value : pushNormalized (body ++ [.value]) .value = body ++ [.value] := by
  simp [pushNormalized, isOffset]

end Pushes

section Decides

variable {p q r start : List PathSegment}

/-- Both sides of an equation push alike. -/
theorem concat_equation (clear : Clear start) (equation : Equation p q) : concat start p = concat start q := by
  obtain ⟨body, hard, ⟨k, rfl⟩ | rfl⟩ := clear.exists_body
  · cases equation with
    | add i j =>
      simp only [concat, List.foldl_cons, List.foldl_nil]
      rw [pushNormalized_residue_offset hard, pushNormalized_residue_offset hard, pushNormalized_residue_offset hard,
        Int64.add_assoc]
    | zero =>
      simp only [concat, List.foldl_cons, List.foldl_nil]
      rw [pushNormalized_residue_offset hard, Int64.add_zero]
    | valueValue =>
      simp only [concat, List.foldl_cons, List.foldl_nil]
      rw [pushNormalized_residue_value hard, pushNormalized_value_value]
    | offsetValue j =>
      simp only [concat, List.foldl_cons, List.foldl_nil]
      rw [pushNormalized_residue_offset hard, pushNormalized_residue_value hard, pushNormalized_residue_value hard]
    | valueOffset j =>
      simp only [concat, List.foldl_cons, List.foldl_nil]
      rw [pushNormalized_residue_value hard, pushNormalized_value_offset]
  · cases equation <;>
      simp only [concat, List.foldl_cons, List.foldl_nil, pushNormalized_value_offset, pushNormalized_value_value]

theorem concat_append (start p q : List PathSegment) : concat start (p ++ q) = concat (concat start p) q := by
  simp [concat]

/-- Congruent lists push alike. -/
theorem concat_congr (same : Congruent p q) (clear : Clear start) : concat start p = concat start q := by
  have along : ∀ l r : FreeMonoid PathSegment, ConGen.Rel (fun l r => Equation l.toList r.toList) l r →
      ∀ start, Clear start → concat start l.toList = concat start r.toList := by
    intro l r related
    induction related with
    | of l r equation => exact fun start clear => concat_equation clear equation
    | refl l => exact fun _ _ => rfl
    | symm _ ih => exact fun start clear => (ih start clear).symm
    | trans _ _ first second => exact fun start clear => (first start clear).trans (second start clear)
    | mul _ _ front back =>
      intro start clear
      rw [FreeMonoid.toList_mul, FreeMonoid.toList_mul, concat_append, concat_append, front start clear]
      exact back _ (clear_concat clear _)
  exact along _ _ same start clear

/-- A push is an instance of the equations, whatever the list. -/
theorem congruent_pushNormalized (out : List PathSegment) (s : PathSegment) : Congruent (out ++ [s]) (pushNormalized out s) := by
  cases s with
  | field name => exact .refl _
  | deref => exact .refl _
  | offset k =>
    have appended (plain : pushNormalized out (.offset k) = if k = 0 then out else out ++ [.offset k]) :
        Congruent (out ++ [.offset k]) (pushNormalized out (.offset k)) := by
      rw [plain]
      split_ifs with zero
      · simpa [zero] using Congruent.at_end .zero out
      · exact .refl _
    cases last : out.getLast? with
    | none => exact appended (by simp [pushNormalized, last])
    | some a =>
      cases a with
      | field name => exact appended (by simp [pushNormalized, last])
      | deref => exact appended (by simp [pushNormalized, last])
      | value =>
        obtain ⟨init, rfl⟩ := List.getLast?_eq_some_iff.mp last
        simpa [pushNormalized] using Congruent.at_end (.valueOffset k) init
      | offset prev =>
        obtain ⟨init, rfl⟩ := List.getLast?_eq_some_iff.mp last
        have summed := Congruent.at_end (.add prev k) init
        by_cases zero : prev + k = 0
        · have vanished := summed.trans (zero ▸ Congruent.at_end .zero init)
          simpa [pushNormalized, zero] using vanished
        · simpa [pushNormalized, zero] using summed
  | value =>
    have valued : ∀ init : List PathSegment,
        Congruent (init ++ [.value]) (if init.getLast? = some .value then init else init ++ [.value]) := by
      intro init
      split_ifs with twice
      · obtain ⟨front, rfl⟩ := List.getLast?_eq_some_iff.mp twice
        simpa using Congruent.at_end .valueValue front
      · exact .refl _
    cases last : out.getLast? with
    | none => simpa [pushNormalized, last] using valued out
    | some a =>
      cases a with
      | offset prev =>
        -- the offset goes first, and what stood before it may be a `#value` itself
        obtain ⟨init, rfl⟩ := List.getLast?_eq_some_iff.mp last
        have absorbed := Congruent.at_end (.offsetValue prev) init
        simpa [pushNormalized, isOffset] using absorbed.trans (valued init)
      | field name => simpa [pushNormalized, last, isOffset] using valued out
      | deref => simpa [pushNormalized, last, isOffset] using valued out
      | value => simpa [pushNormalized, last, isOffset] using valued out

theorem congruent_concat (start p : List PathSegment) : Congruent (start ++ p) (concat start p) := by
  induction p generalizing start with
  | nil => simpa [concat] using Congruent.refl start
  | cons s p ih =>
    have first := (congruent_pushNormalized start s).append (.refl p)
    rw [List.append_assoc, List.singleton_append] at first
    exact first.trans (ih (pushNormalized start s))

theorem congruent_normalize (p : List PathSegment) : Congruent p (normalize p) := congruent_concat [] p

/-- Two lists have one normal form exactly when the equations make them equal. -/
theorem normalize_eq_iff : normalize p = normalize q ↔ Congruent p q := by
  constructor
  · intro same
    exact (congruent_normalize p).trans (same ▸ (congruent_normalize q).symm)
  · exact fun same => concat_congr same .nil

/-- Only the normal form of what is appended counts. -/
theorem concat_normalize (clear : Clear start) (q : List PathSegment) : concat start (normalize q) = concat start q :=
  concat_congr (congruent_normalize q).symm clear

theorem concat_eq_normalize (clear : Clear start) (q : List PathSegment) : concat start q = normalize (start ++ q) := by
  rw [normalize_append, normalize_of_clear clear]

theorem concat_assoc (clear : Clear p) (q r : List PathSegment) : concat (concat p q) r = concat p (concat q r) := by
  rw [← concat_append]
  exact concat_congr (congruent_concat q r) clear

/-- The laws of the path algebra: the normal form decides equality, and normal paths are a monoid under concatenation. -/
theorem path_algebra (p q r : List PathSegment) :
    (normalize p = normalize q ↔ Congruent p q) ∧
    normalize (normalize p) = normalize p ∧
    concat (normalize p) q = normalize (p ++ q) ∧
    (isNormal p → concat p (normalize q) = normalize (p ++ q)) ∧
    (isNormal p → isNormal q → isNormal r → concat (concat p q) r = concat p (concat q r)) ∧
    (isNormal p → concat [] p = p ∧ concat p [] = p) := by
  refine ⟨normalize_eq_iff, normalize_of_clear (clear_normalize p), (normalize_append p q).symm, ?_, ?_, ?_⟩
  · intro normal
    have clear := isNormal_iff.mp normal
    rw [concat_normalize clear, concat_eq_normalize clear]
  · exact fun normal _ _ => concat_assoc (isNormal_iff.mp normal) q r
  · exact fun normal => ⟨normalize_of_clear (isNormal_iff.mp normal), rfl⟩

/-- At `x.[1]`, `[-1]` and `#value`. -/
theorem path_algebra_cancelling :
    isNormal [.field "x", .offset 1] ∧
      concat ([.field "x", .offset 1] : List PathSegment) (normalize [.offset (-1)]) =
        normalize [.field "x", .offset 1, .offset (-1)] ∧
      concat (concat ([.field "x", .offset 1] : List PathSegment) [.offset (-1)]) [.value] =
        concat [.field "x", .offset 1] (concat [.offset (-1)] [.value]) := by
  obtain ⟨-, -, -, appended, associates, -⟩ := path_algebra [.field "x", .offset 1] [.offset (-1)] [.value]
  exact ⟨by decide, appended (by decide), associates (by decide) (by decide) (by decide)⟩

end Decides

end Ctadl.Cir
