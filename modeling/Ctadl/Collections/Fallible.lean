import Mathlib.Logic.Basic

/-! # Steps that may fail

What a run of two steps that may fail answers.
-/

namespace Ctadl.Collections

variable {ε α β : Type} {first : Except ε α} {next : α → Except ε β}

theorem bind_eq_ok {out : β} : (first >>= next) = .ok out ↔ ∃ a, first = .ok a ∧ next a = .ok out := by
  constructor
  · intro ok
    cases first with
    | error e => cases ok
    | ok a => exact ⟨a, rfl, ok⟩
  · rintro ⟨a, rfl, ok⟩
    exact ok

theorem bind_of_ok {a : α} (ok : first = .ok a) : (first >>= next) = next a := by
  rw [ok]
  rfl

end Ctadl.Collections
