import Mathlib.Logic.Function.Basic
import Mathlib.Data.Nat.Notation
import Mathlib.Tactic.ByContra

/-! # Open addressing without removal

The elements of a table sit in places. Every element has a probe, a sequence of stops, and each stop takes in some
places. An element is put in an empty place of the first stop that has one, and a search for it ends there; as nothing
is ever removed, a search that meets an empty place has passed all the places the element could be in.
-/

namespace Ctadl.Collections.Probing

open Function

variable {T : Type*} {stops : T → ℕ → ℕ → Prop} {slot : ℕ → Option T} {x y : T} {i k : ℕ}

/-- No place of the stops before one is empty. -/
def Taken (stops : T → ℕ → ℕ → Prop) (slot : ℕ → Option T) (x : T) (k : ℕ) : Prop := ∀ j < k, ∀ i, stops x j i → slot i ≠ none

/-- A search for the element comes to the place. -/
def Reaches (stops : T → ℕ → ℕ → Prop) (slot : ℕ → Option T) (x : T) (i : ℕ) : Prop := ∃ k, stops x k i ∧ Taken stops slot x k

def Holds (slot : ℕ → Option T) (x : T) : Prop := ∃ i, slot i = some x

/-- A search comes to every element, which is there once. -/
structure Sound (stops : T → ℕ → ℕ → Prop) (slot : ℕ → Option T) : Prop where
  reaches : ∀ {i x}, slot i = some x → Reaches stops slot x i
  once : ∀ {i j x}, slot i = some x → slot j = some x → i = j

theorem taken_zero : Taken stops slot x 0 := fun _ less => absurd less (Nat.not_lt_zero _)

theorem Taken.succ (taken : Taken stops slot x k) (here : ∀ i, stops x k i → slot i ≠ none) : Taken stops slot x (k + 1) := by
  intro j less i stop
  rcases Nat.lt_succ_iff_lt_or_eq.mp less with before | rfl
  · exact taken j before i stop
  · exact here i stop

/-- An empty place is at no stop before those that are taken. -/
theorem Taken.le (taken : Taken stops slot x k) {j : ℕ} (stop : stops x j i) (empty : slot i = none) : k ≤ j := by
  by_contra before
  exact taken j (by omega) i stop empty

theorem sound_empty : Sound stops fun _ => none := ⟨nofun, nofun⟩

theorem not_holds_empty : ¬ Holds (fun _ => none) x := by simp [Holds]

/-- Where a stop has an empty place and neither it nor a stop before it has the element, the element is absent. -/
theorem Sound.not_holds (sound : Sound stops slot) (missed : ∀ j ≤ k, ∀ i, stops x j i → slot i ≠ some x)
    (stop : stops x k i) (empty : slot i = none) : ¬ Holds slot x := by
  rintro ⟨p, held⟩
  obtain ⟨j, at', before⟩ := sound.reaches held
  exact missed j (before.le stop empty) p at' held

section Fill

theorem Taken.fill (taken : Taken stops slot y k) : Taken stops (update slot i (some x)) y k := by
  intro j less p stop
  by_cases same : p = i
  · simp [same]
  · rw [update_of_ne same]
    exact taken j less p stop

variable (empty : slot i = none)
include empty

theorem holds_fill : Holds (update slot i (some x)) y ↔ y = x ∨ Holds slot y := by
  constructor
  · rintro ⟨p, held⟩
    by_cases same : p = i
    · subst same
      rw [update_self] at held
      exact .inl (Option.some.inj held).symm
    · rw [update_of_ne same] at held
      exact .inr ⟨p, held⟩
  · rintro (rfl | ⟨p, held⟩)
    · exact ⟨i, update_self _ _ _⟩
    · have apart : p ≠ i := by
        rintro rfl
        simp [empty] at held
      exact ⟨p, by rwa [update_of_ne apart]⟩

/-- Filling an empty place that a search comes to keeps the table sound. -/
theorem Sound.fill (sound : Sound stops slot) (reaches : Reaches stops slot x i) (absent : ¬ Holds slot x) :
    Sound stops (update slot i (some x)) := by
  have held : ∀ {p y}, update slot i (some x) p = some y → p = i ∧ y = x ∨ p ≠ i ∧ slot p = some y := by
    intro p y isY
    by_cases same : p = i
    · subst same
      rw [update_self] at isY
      exact .inl ⟨rfl, (Option.some.inj isY).symm⟩
    · rw [update_of_ne same] at isY
      exact .inr ⟨same, isY⟩
  constructor
  · intro p y isY
    rcases held isY with ⟨rfl, rfl⟩ | ⟨-, isY⟩
    · obtain ⟨k, stop, taken⟩ := reaches
      exact ⟨k, stop, taken.fill⟩
    · obtain ⟨k, stop, taken⟩ := sound.reaches isY
      exact ⟨k, stop, taken.fill⟩
  · intro p q y isY isY'
    rcases held isY with ⟨rfl, rfl⟩ | ⟨-, old⟩ <;> rcases held isY' with ⟨rfl, new⟩ | ⟨-, old'⟩
    · rfl
    · exact absurd ⟨q, old'⟩ absent
    · exact absurd ⟨p, new ▸ old⟩ absent
    · exact sound.once old old'

end Fill

end Ctadl.Collections.Probing
