import Mathlib.Tactic

/-!
# The integral types of C++

A type is `bool` or an integer type, given by its signedness and its size. Values are integers.
A conversion to an unsigned type is modulo a power of two, one to a signed type the value of the
same bits, and one to `bool` says whether the value is not zero. The result of an operation in a
type is reduced likewise when the type is unsigned; when it is signed and does not hold the
result, the language defines nothing.
-/

namespace Metcalfe.Integral

inductive Size where
  | one
  | two
  | four
  | eight
  deriving DecidableEq, Repr

def Size.bytes : Size → Nat
  | one => 1
  | two => 2
  | four => 4
  | eight => 8

inductive Ty where
  | bool
  | int (signed : Bool) (size : Size)
  deriving DecidableEq, Repr

namespace Ty

def sizeof : Ty → Nat
  | bool => 1
  | int _ size => size.bytes

def signed : Ty → Bool
  | bool => false
  | int s _ => s

/-- The number of values. -/
def card : Ty → Nat
  | bool => 2
  | int _ size => 2 ^ (8 * size.bytes)

/-- The value is one of the type. -/
def Holds (t : Ty) (x : Int) : Prop :=
  if t.signed then -(t.card : Int) ≤ 2 * x ∧ 2 * x < t.card else 0 ≤ x ∧ x < t.card

instance (t : Ty) (x : Int) : Decidable (t.Holds x) := inferInstanceAs (Decidable (ite _ _ _))

def convert : Ty → Int → Int
  | bool, x => if x = 0 then 0 else 1
  | int true size, x => x.bmod (int true size).card
  | int false size, x => x % (int false size).card

/-- The value of an operation whose result in numbers is `x`. -/
def result (t : Ty) (x : Int) : Option Int :=
  if t.signed then if t.Holds x then some x else none else some (t.convert x)

theorem convert_of_holds {t : Ty} {x : Int} (h : t.Holds x) : t.convert x = x := by
  cases t with
  | bool =>
    obtain ⟨h0, h1⟩ : 0 ≤ x ∧ x < 2 := h
    show (if x = 0 then (0 : Int) else 1) = x
    split <;> omega
  | int s size =>
    cases s with
    | true =>
      obtain ⟨h0, h1⟩ := h
      apply Int.bmod_eq_of_le_mul_two
      · omega
      · omega
    | false =>
      obtain ⟨h0, h1⟩ := h
      exact Int.emod_eq_of_lt h0 h1

theorem two_dvd_card (signed : Bool) (size : Size) : 2 ∣ (int signed size).card :=
  dvd_pow_self 2 (by cases size <;> decide)

theorem card_pos (t : Ty) : 0 < t.card := by
  cases t with
  | bool => exact Nat.two_pos
  | int s size => exact Nat.pow_pos Nat.two_pos

theorem holds_convert (t : Ty) (x : Int) : t.Holds (t.convert x) := by
  have hcard := t.card_pos
  cases t with
  | bool =>
    show 0 ≤ (if x = 0 then (0 : Int) else 1) ∧ (if x = 0 then (0 : Int) else 1) < 2
    split
    · omega
    · omega
  | int s size =>
    cases s with
    | true =>
      obtain ⟨k, hk⟩ := two_dvd_card true size
      have hlo := Int.le_bmod (x := x) hcard
      have hhi := Int.bmod_lt (x := x) hcard
      show _ ≤ 2 * x.bmod _ ∧ 2 * x.bmod _ < _
      omega
    | false =>
      exact ⟨Int.emod_nonneg _ (by omega), Int.emod_lt_of_pos _ (by omega)⟩

theorem convert_eq_self_iff {t : Ty} {x : Int} : t.convert x = x ↔ t.Holds x := by
  constructor
  · intro h
    rw [← h]
    exact t.holds_convert x
  · exact convert_of_holds

theorem result_of_holds {t : Ty} {x : Int} (h : t.Holds x) : t.result x = some x := by
  unfold result
  rw [if_pos h, convert_of_holds h, ite_self]

end Ty

end Metcalfe.Integral
