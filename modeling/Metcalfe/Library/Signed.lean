import Mathlib.Tactic

/-!
# Signed arithmetic of 32 bits

The operations of C++ on an `int` are exact as long as their result is one; beyond that the
language defines nothing. `int32` is the result of an operation, with nothing for an overflow.
Division truncates (`Int.tdiv`).
-/

namespace Metcalfe.Signed

/-- The values of an `int`. -/
def Fits (x : Int) : Prop := -2147483648 ≤ x ∧ x ≤ 2147483647

instance (x : Int) : Decidable (Fits x) := inferInstanceAs (Decidable (_ ∧ _))

def int32 (x : Int) : Option Int := if Fits x then some x else none

@[simp]
theorem int32_isSome {x : Int} : (int32 x).isSome = true ↔ Fits x := by
  unfold int32
  split <;> simp_all

theorem int32_eq_some {x y : Int} : int32 x = some y ↔ Fits x ∧ x = y := by
  unfold int32
  split <;> simp_all

theorem fits_toInt (x : Int32) : Fits x.toInt := by
  have h := x.le_toInt
  have h' := x.toInt_lt
  exact ⟨by omega, by omega⟩

/-- The truncated quotient of a number that is not negative. -/
theorem tdiv_four_bounds {x : Int} (h : 0 ≤ x) : 4 * x.tdiv 4 ≤ x ∧ x < 4 * x.tdiv 4 + 4 := by
  rw [Int.tdiv_eq_ediv_of_nonneg h]
  omega

theorem tdiv_four_bounds_of_nonpos {x : Int} (h : x ≤ 0) :
    x ≤ 4 * x.tdiv 4 ∧ 4 * x.tdiv 4 < x + 4 := by
  have hneg := tdiv_four_bounds (x := -x) (by omega)
  rw [Int.neg_tdiv] at hneg
  omega

end Metcalfe.Signed
