import Mathlib.Data.Fintype.EquivFin
import Mathlib.Data.Nat.ModEq
import Mathlib.Data.Nat.Prime.Basic
import Mathlib.Tactic.Ring

/-! # Triangular probing

The sums 0, 1, 1 + 2, 1 + 2 + 3 and so on meet every residue of a power of two, each once in as many steps. A probe
that starts anywhere and moves one further at every step comes to every place.
-/

namespace Ctadl.Collections.Triangular

/-- The sum of the first numbers. -/
def tri (k : ℕ) : ℕ := k * (k + 1) / 2

@[simp] theorem tri_zero : tri 0 = 0 := rfl

theorem two_mul_tri (k : ℕ) : 2 * tri k = k * (k + 1) := Nat.two_mul_div_two_of_even (Nat.even_mul_succ_self k)

theorem tri_succ (k : ℕ) : tri (k + 1) = tri k + (k + 1) := by
  have here := two_mul_tri k
  have next := two_mul_tri (k + 1)
  have expand : (k + 1) * (k + 1 + 1) = k * (k + 1) + 2 * (k + 1) := by ring
  omega

theorem tri_mono {j k : ℕ} (le : j ≤ k) : tri j ≤ tri k := Nat.div_le_div_right (Nat.mul_le_mul le (by omega))

/-- Twice the difference of two sums is a product whose factors are not both even. -/
theorem two_mul_tri_sub {j k : ℕ} (le : j ≤ k) : 2 * (tri k - tri j) = (k - j) * (k + j + 1) := by
  obtain ⟨d, rfl⟩ := Nat.exists_eq_add_of_le le
  rw [Nat.mul_sub, two_mul_tri, two_mul_tri, Nat.add_sub_cancel_left, Nat.sub_eq_iff_eq_add (Nat.mul_le_mul le (by omega))]
  ring

theorem eq_of_le {n j k : ℕ} (le : j ≤ k) (less : k < 2 ^ n) (same : tri j % 2 ^ n = tri k % 2 ^ n) : j = k := by
  obtain ⟨c, times⟩ := (Nat.modEq_iff_dvd' (tri_mono le)).mp same
  have product : 2 ^ (n + 1) ∣ (k - j) * (k + j + 1) := by
    rw [← two_mul_tri_sub le, times, pow_succ, mul_comm (2 ^ n) 2]
    exact Nat.mul_dvd_mul_left 2 (Nat.dvd_mul_right _ _)
  have double : 2 ^ (n + 1) = 2 * 2 ^ n := by rw [pow_succ, mul_comm]
  rcases Nat.even_or_odd (k - j) with even | odd
  · -- The other factor is odd, and the difference is below the modulus.
    have odd : Odd (k + j + 1) := by
      rw [Nat.even_iff] at even
      rw [Nat.odd_iff]
      omega
    have divides := (Nat.Coprime.pow_left (n + 1) (Nat.coprime_two_left.mpr odd)).dvd_of_dvd_mul_right product
    have := Nat.eq_zero_of_dvd_of_lt divides (by omega)
    omega
  · have divides := (Nat.Coprime.pow_left (n + 1) (Nat.coprime_two_left.mpr odd)).dvd_of_dvd_mul_left product
    have := Nat.le_of_dvd (by omega) divides
    omega

theorem tri_injective {n j k : ℕ} (less : j < 2 ^ n) (less' : k < 2 ^ n) (same : tri j % 2 ^ n = tri k % 2 ^ n) : j = k := by
  rcases Nat.le_total j k with le | le
  · exact eq_of_le le less' same
  · exact (eq_of_le le less same.symm).symm

/-- Every residue is met. -/
theorem exists_tri {n q : ℕ} (less : q < 2 ^ n) : ∃ k < 2 ^ n, tri k % 2 ^ n = q := by
  let met : Fin (2 ^ n) → Fin (2 ^ n) := fun k => ⟨tri k % 2 ^ n, Nat.mod_lt _ (Nat.two_pow_pos n)⟩
  have injective : met.Injective := fun j k same => Fin.ext (tri_injective j.isLt k.isLt (Fin.mk.inj same))
  obtain ⟨k, isQ⟩ := Finite.surjective_of_injective injective ⟨q, less⟩
  exact ⟨k, k.isLt, Fin.mk.inj isQ⟩

end Ctadl.Collections.Triangular
