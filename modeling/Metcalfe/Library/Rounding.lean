import Mathlib.Tactic

/-!
# Binary floating point on natural numbers

A value with `p` significant bits is a natural number times a power of two. Conversions and
quotients are rounded to the nearest such value, ties to even. The exponent is not bounded:
this is the arithmetic of a format as long as no value leaves its range.
-/

namespace Metcalfe.Rounding

/-- `a / b` to the nearest natural number, ties to even. -/
def divEven (a b : Nat) : Nat :=
  if 2 * (a % b) < b then a / b
  else if b < 2 * (a % b) then a / b + 1
  else a / b + a / b % 2

/-- `n` to `p` significant bits. -/
def ofNat (p n : Nat) : Nat :=
  let s := Nat.log2 n + 1 - p
  divEven n (2 ^ s) * 2 ^ s

/-- The exponent of the last of `p` significant bits of `a / b`. -/
def exponent (p a b : Nat) : Int :=
  let e : Int := Nat.log2 a - Nat.log2 b
  if b * 2 ^ e.toNat ≤ a * 2 ^ (-e).toNat then e - p + 1 else e - p

/-- The least integer not below `a / b` rounded to `p` significant bits. -/
def ceilDiv (p a b : Nat) : Nat :=
  let e := exponent p a b
  let mant := divEven (a * 2 ^ (-e).toNat) (b * 2 ^ e.toNat)
  (mant * 2 ^ e.toNat + (2 ^ (-e).toNat - 1)) / 2 ^ (-e).toNat

theorem div_le_divEven (a b : Nat) : a / b ≤ divEven a b := by
  unfold divEven
  split
  · exact le_rfl
  · split <;> omega

theorem divEven_pos {a b : Nat} (hb : 0 < b) (h : b ≤ a) : 0 < divEven a b :=
  (Nat.div_pos h hb).trans_le (div_le_divEven a b)

theorem divEven_zero_left (b : Nat) (hb : 0 < b) : divEven 0 b = 0 := by
  simp [divEven, hb]

theorem ofNat_pos {p n : Nat} (hp : 0 < p) (hn : 0 < n) : 0 < ofNat p n := by
  have hlog : 2 ^ Nat.log2 n ≤ n := Nat.log2_self_le hn.ne'
  have hs : 2 ^ (Nat.log2 n + 1 - p) ≤ n :=
    (Nat.pow_le_pow_right (by omega) (by omega)).trans hlog
  exact Nat.mul_pos (divEven_pos (by positivity) hs) (by positivity)

@[simp]
theorem ofNat_zero (p : Nat) : ofNat p 0 = 0 := by
  simp [ofNat, divEven_zero_left]

@[simp]
theorem ceilDiv_zero (p b : Nat) (hb : 0 < b) : ceilDiv p 0 b = 0 := by
  have hpos : 0 < b * 2 ^ (exponent p 0 b).toNat := by positivity
  have hlt : 2 ^ (-exponent p 0 b).toNat - 1 < 2 ^ (-exponent p 0 b).toNat := by
    have : 0 < 2 ^ (-exponent p 0 b).toNat := by positivity
    omega
  simp [ceilDiv, divEven_zero_left _ hpos]

theorem two_pow_le_scaled {a b : Nat} (ha : 0 < a) {e : Int}
    (he : e ≤ (Nat.log2 a : Int) - Nat.log2 b - 1) :
    b * 2 ^ e.toNat ≤ a * 2 ^ (-e).toNat := by
  have hla : 2 ^ Nat.log2 a ≤ a := Nat.log2_self_le ha.ne'
  have hlb : b < 2 ^ (Nat.log2 b + 1) := Nat.lt_log2_self
  have hexp : Nat.log2 b + 1 + e.toNat ≤ Nat.log2 a + (-e).toNat := by omega
  calc b * 2 ^ e.toNat ≤ 2 ^ (Nat.log2 b + 1) * 2 ^ e.toNat :=
        Nat.mul_le_mul_right _ hlb.le
    _ = 2 ^ (Nat.log2 b + 1 + e.toNat) := (pow_add _ _ _).symm
    _ ≤ 2 ^ (Nat.log2 a + (-e).toNat) := Nat.pow_le_pow_right (by omega) hexp
    _ = 2 ^ Nat.log2 a * 2 ^ (-e).toNat := pow_add _ _ _
    _ ≤ a * 2 ^ (-e).toNat := Nat.mul_le_mul_right _ hla

theorem exponent_le {p : Nat} (hp : 2 ≤ p) (a b : Nat) :
    exponent p a b ≤ (Nat.log2 a : Int) - Nat.log2 b - 1 := by
  unfold exponent
  simp only
  split <;> omega

/-- A positive quotient rounds up to a positive integer. -/
theorem ceilDiv_pos {p a b : Nat} (hp : 2 ≤ p) (ha : 0 < a) (hb : 0 < b) :
    0 < ceilDiv p a b := by
  have hscaled := two_pow_le_scaled (b := b) ha (exponent_le hp a b)
  have hmant := divEven_pos (by positivity) hscaled
  unfold ceilDiv
  simp only
  generalize exponent p a b = e at *
  apply Nat.div_pos _ (by positivity)
  have h2 : 0 < 2 ^ e.toNat := by positivity
  have := Nat.mul_pos hmant h2
  omega

end Metcalfe.Rounding
