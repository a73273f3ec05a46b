import Mathlib.Algebra.Group.Int.Defs
import Mathlib.Algebra.Group.Nat.Defs
import Mathlib.Order.Basic

/-! # What depends on the build

A sum or a difference of offsets written with the plain operators stops a `dev` build when it leaves the 64-bit range
and wraps in a `release` build, and a debug assertion is only there in a `dev` build.
-/

namespace Ctadl.Facts

/-- The profile the workspace is built with. -/
inductive Build where
  | dev
  | release
deriving DecidableEq, Repr

/-- Why a call does not return. -/
inductive Panic where
  | overflow
  | assertion
  | expect
deriving DecidableEq, Repr

/-- The value is one of an `i64`. -/
def InRange (value : ℤ) : Prop := -2 ^ 63 ≤ value ∧ value < 2 ^ 63

instance (value : ℤ) : Decidable (InRange value) := inferInstanceAs (Decidable (_ ∧ _))

namespace Build

variable {build : Build} {x y : Int64}

/-- `x + y`. -/
def add (build : Build) (x y : Int64) : Except Panic Int64 :=
  if build = .dev ∧ ¬ InRange (x.toInt + y.toInt) then .error .overflow else .ok (x + y)

/-- `x - y`. -/
def sub (build : Build) (x y : Int64) : Except Panic Int64 :=
  if build = .dev ∧ ¬ InRange (x.toInt - y.toInt) then .error .overflow else .ok (x - y)

/-- `debug_assert!`. -/
def debugAssert (build : Build) (condition : Bool) : Except Panic Unit :=
  if build = .dev ∧ condition = false then .error .assertion else .ok ()

theorem add_of_inRange (inRange : build = .release ∨ InRange (x.toInt + y.toInt)) : build.add x y = .ok (x + y) := by
  rw [add, if_neg]
  rintro ⟨rfl, out⟩
  exact inRange.elim (fun release => nomatch release) out

theorem sub_of_inRange (inRange : build = .release ∨ InRange (x.toInt - y.toInt)) : build.sub x y = .ok (x - y) := by
  rw [sub, if_neg]
  rintro ⟨rfl, out⟩
  exact inRange.elim (fun release => nomatch release) out

theorem add_eq_ok {sum : Int64} :
    build.add x y = .ok sum ↔ sum = x + y ∧ (build = .release ∨ InRange (x.toInt + y.toInt)) := by
  constructor
  · intro returned
    rw [add] at returned
    split_ifs at returned with stops
    refine ⟨(Except.ok.inj returned).symm, ?_⟩
    cases build with
    | release => exact .inl rfl
    | dev => exact .inr (by simpa using stops)
  · rintro ⟨rfl, inRange⟩
    exact add_of_inRange inRange

theorem sub_eq_ok {difference : Int64} :
    build.sub x y = .ok difference ↔ difference = x - y ∧ (build = .release ∨ InRange (x.toInt - y.toInt)) := by
  constructor
  · intro returned
    rw [sub] at returned
    split_ifs at returned with stops
    refine ⟨(Except.ok.inj returned).symm, ?_⟩
    cases build with
    | release => exact .inl rfl
    | dev => exact .inr (by simpa using stops)
  · rintro ⟨rfl, inRange⟩
    exact sub_of_inRange inRange

end Build

/-- A sum within the range is the exact sum. -/
theorem toInt_add_of_inRange {x y : Int64} (inRange : InRange (x.toInt + y.toInt)) : (x + y).toInt = x.toInt + y.toInt := by
  rw [Int64.toInt_add]
  apply Int.bmod_eq_of_le
  · exact inRange.1
  · exact inRange.2

theorem toInt_sub_of_inRange {x y : Int64} (inRange : InRange (x.toInt - y.toInt)) : (x - y).toInt = x.toInt - y.toInt := by
  rw [Int64.toInt_sub]
  apply Int.bmod_eq_of_le
  · exact inRange.1
  · exact inRange.2

theorem inRange_toInt (x : Int64) : InRange x.toInt := ⟨x.le_toInt, x.toInt_lt⟩

end Ctadl.Facts
