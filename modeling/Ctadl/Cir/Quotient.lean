import Ctadl.Cir.Location
import Ctadl.Cir.PathAlgebra

/-! # The left quotient

A front that ends in an offset can be undone: every suffix that completes it to a path has the normal form `stripPrefix`
finds. Any other front stays literally at the beginning of what it is completed to, and the suffix found is what is left
of the path after it, which is the shortest as a push adds at most one segment.
-/

namespace Ctadl.Cir

open PathSegment

variable {path front init p s t : List PathSegment} {m : Int64}

theorem length_pushNormalized_le (out : List PathSegment) (a : PathSegment) :
    (pushNormalized out a).length ≤ out.length + 1 := by
  cases a with
  | field name => simp [pushNormalized]
  | deref => simp [pushNormalized]
  | offset k =>
    simp only [pushNormalized]
    split
    · omega
    · split_ifs <;> simp <;> omega
    · split_ifs <;> simp
  | value =>
    simp only [pushNormalized]
    split_ifs <;> simp <;> omega

theorem length_concat_le (start q : List PathSegment) : (concat start q).length ≤ start.length + q.length := by
  induction q generalizing start with
  | nil => simp [concat]
  | cons a q ih =>
    have pushed := length_pushNormalized_le start a
    have rest := ih (pushNormalized start a)
    rw [concat, List.foldl_cons]
    rw [concat] at rest
    simp only [List.length_cons]
    omega

/-- A push takes back no more than a last offset. -/
theorem isPrefix_pushNormalized (fixed : ∀ k, front.getLast? ≠ some (.offset k)) (under : front <+: p) (a : PathSegment) :
    front <+: pushNormalized p a := by
  obtain ⟨more, rfl⟩ := under
  have popped : ∀ k, (front ++ more).getLast? = some (.offset k) → front <+: (front ++ more).dropLast := by
    intro k last
    cases more with
    | nil => exact absurd (by simpa using last) (fixed k)
    | cons b more =>
      rw [List.dropLast_append_of_ne_nil (by simp)]
      exact List.prefix_append _ _
  have kept : ∀ l : List PathSegment, front <+: l → ∀ b, front <+: l ++ b := fun l under b =>
    under.trans (List.prefix_append _ _)
  have whole := List.prefix_append front more
  cases a with
  | field name => exact kept _ whole _
  | deref => exact kept _ whole _
  | offset k =>
    simp only [pushNormalized]
    cases last : (front ++ more).getLast? with
    | none => split_ifs <;> [exact whole; exact kept _ whole _]
    | some b =>
      cases b with
      | value => exact whole
      | offset prev =>
        simp only
        split_ifs <;> [exact popped prev last; exact kept _ (popped prev last) _]
      | field name | deref =>
        simp only
        split_ifs <;> [exact whole; exact kept _ whole _]
  | value =>
    simp only [pushNormalized]
    cases last : (front ++ more).getLast? with
    | none => simp [last]
    | some b =>
      cases b with
      | offset prev =>
        simp only [isOffset, Option.map_some, Option.getD_some, if_true]
        split_ifs <;> [exact popped prev last; exact kept _ (popped prev last) _]
      | value => simp [last, isOffset]
      | field name | deref => simp [last, isOffset]

theorem isPrefix_concat (fixed : ∀ k, front.getLast? ≠ some (.offset k)) (q : List PathSegment) :
    front <+: concat front q := by
  have along : ∀ p, front <+: p → front <+: concat p q := by
    induction q with
    | nil => exact fun _ under => under
    | cons a q ih => exact fun p under => ih _ (isPrefix_pushNormalized fixed under a)
  exact along front (List.prefix_refl front)

/-- After a body a path is put in normal form on its own. -/
theorem concat_body (hard : HardEnd init) (clear : Clear init) (q : List PathSegment) :
    concat init q = init ++ normalize q := by
  rw [← concat_normalize clear]
  exact concat_of_clear (Clear.append_iff.mpr ⟨clear, clear_normalize q, fun a last b _ soft => by simp [hard a last] at soft⟩)

/-- A front without a last offset leaves what stands after it. -/
theorem stripPrefix_of_fixed (fixed : ∀ k, front.getLast? ≠ some (.offset k)) (t : List PathSegment) :
    stripPrefix (front ++ t) front = some t := by
  cases last : front.getLast? with
  | none =>
    obtain rfl := List.getLast?_eq_none_iff.mp last
    rfl
  | some a =>
    obtain ⟨init, rfl⟩ := List.getLast?_eq_some_iff.mp last
    cases a with
    | offset k => exact absurd last (fixed k)
    | field name | deref | value => simp [stripPrefix]

/-- A front with a last offset is undone: whatever completes it, its normal form is found. -/
theorem stripPrefix_concat_offset (clear : Clear (init ++ [.offset m])) (t : List PathSegment) :
    stripPrefix (concat (init ++ [.offset m]) t) (init ++ [.offset m]) = some (normalize t) := by
  have hard : HardEnd init := by
    intro a last
    have apart := (Clear.append_iff.mp clear).2.2 a last (.offset m) rfl
    simpa [soft] using apart
  have split : concat (init ++ [.offset m]) t = init ++ normalize (.offset m :: t) := by
    have opened : concat init (.offset m :: t) = concat (init ++ [.offset m]) t := by
      rw [concat, List.foldl_cons, pushNormalized_of_clear clear, concat]
    rw [← opened, concat_body hard clear.left]
  have rebased : concat (normalize [.offset (-m)]) (normalize (.offset m :: t)) = normalize t := by
    have cancels : Congruent [.offset (-m), .offset m] [] := by
      have summed := Congruent.of_equation (.add (-m) m)
      rw [Int64.add_left_neg] at summed
      exact summed.trans (.of_equation .zero)
    rw [concat_normalize (clear_normalize _), ← normalize_append, normalize_eq_iff]
    exact cancels.append (.refl t)
  have whole : concat (init ++ [.offset m]) (normalize t) = init ++ normalize (.offset m :: t) := by
    rw [concat_normalize clear, split]
  rw [split]
  simp only [stripPrefix, List.getLast?_concat, List.dropLast_concat, List.take_left, List.drop_left, if_true, rebased,
    if_pos whole]

/-- `stripPrefix` answers exactly where something completes the front to the path. -/
theorem stripPrefix_isSome_iff (clearP : Clear path) (clearF : Clear front) :
    (∃ t, stripPrefix path front = some t) ↔ ∃ t, concat front t = path := by
  constructor
  · rintro ⟨t, found⟩
    exact ⟨t, concat_of_stripPrefix clearP found⟩
  · rintro ⟨t, rfl⟩
    by_cases rebased : ∃ m, front.getLast? = some (.offset m)
    · obtain ⟨m, last⟩ := rebased
      obtain ⟨init, rfl⟩ := List.getLast?_eq_some_iff.mp last
      exact ⟨_, stripPrefix_concat_offset clearF t⟩
    · have fixed : ∀ k, front.getLast? ≠ some (.offset k) := not_exists.mp rebased
      obtain ⟨rest, split⟩ := isPrefix_concat fixed t
      exact ⟨rest, split ▸ stripPrefix_of_fixed fixed rest⟩

/-- Nothing shorter completes the front. -/
theorem length_le_of_stripPrefix (clearF : Clear front) (found : stripPrefix path front = some t)
    (clearS : Clear s) (completes : concat front s = path) : t.length ≤ s.length := by
  subst completes
  by_cases rebased : ∃ m, front.getLast? = some (.offset m)
  · obtain ⟨m, last⟩ := rebased
    obtain ⟨init, rfl⟩ := List.getLast?_eq_some_iff.mp last
    rw [stripPrefix_concat_offset clearF, normalize_of_clear clearS] at found
    obtain rfl := Option.some.inj found
    exact le_rfl
  · have fixed : ∀ k, front.getLast? ≠ some (.offset k) := not_exists.mp rebased
    obtain ⟨rest, split⟩ := isPrefix_concat fixed s
    rw [← split, stripPrefix_of_fixed fixed] at found
    obtain rfl := Option.some.inj found
    have bound := length_concat_le front s
    rw [← split, List.length_append] at bound
    omega

/-- `stripPrefix` is the left quotient of the path algebra, with the shortest suffix for its answer. -/
theorem stripPrefix_quotient (normalP : isNormal path) (normalF : isNormal front) :
    ((∃ t, stripPrefix path front = some t) ↔ ∃ t, concat front t = path) ∧
      ∀ t, stripPrefix path front = some t →
        isNormal t ∧ concat front t = path ∧ ∀ s, isNormal s → concat front s = path → t.length ≤ s.length := by
  have clearP := isNormal_iff.mp normalP
  have clearF := isNormal_iff.mp normalF
  refine ⟨stripPrefix_isSome_iff clearP clearF, fun t found => ?_⟩
  refine ⟨isNormal_iff.mpr (clear_of_stripPrefix clearP found), concat_of_stripPrefix clearP found, ?_⟩
  exact fun s normal completes => length_le_of_stripPrefix clearF found (isNormal_iff.mp normal) completes

/-- Of the suffixes that complete `#value` to itself the empty one is found. -/
theorem stripPrefix_quotient_value : stripPrefix ([.value] : List PathSegment) [.value] = some [] ∧
    concat ([.value] : List PathSegment) [] = [.value] ∧ concat ([.value] : List PathSegment) [.offset 8] = [.value] ∧
      ([] : List PathSegment).length ≤ ([.offset 8] : List PathSegment).length := by
  have found : stripPrefix ([.value] : List PathSegment) [.value] = some [] := by decide
  have absorbs : concat ([.value] : List PathSegment) [.offset 8] = [.value] := by decide
  obtain ⟨-, completes, shortest⟩ := (stripPrefix_quotient (by decide) (by decide)).2 _ found
  exact ⟨found, completes, absorbs, shortest _ (by decide) absorbs⟩

end Ctadl.Cir
