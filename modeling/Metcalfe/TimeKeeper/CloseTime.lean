import Metcalfe.Library.Signed
import Metcalfe.Library.Steps

/-!
# Adjusting the close time

`ManualTimeKeeper` keeps the time and an offset of the close time. `adjustCloseTime` takes a quarter
of a large amount into the offset, rounded away from zero, and for a small amount it lets the
offset shrink by a quarter.

In exact arithmetic the adjustment is symmetric, and small amounts bring every offset to zero
(`adjusted_settles`). In the 32 bits of the code the sums and the product by three overflow for
amounts near the limits and for offsets that large amounts have built up; `adjustAll_isSome_iff`
says when they do not.
-/

namespace Metcalfe.TimeKeeper

open Signed Steps

structure ManualTimeKeeper where
  now : Int
  closeOffset : Int
deriving DecidableEq

namespace ManualTimeKeeper

def new : ManualTimeKeeper := ⟨0, 0⟩

def closeTime (k : ManualTimeKeeper) : Int := k.now + k.closeOffset

/-- The amount is in seconds. `arith` is what the arithmetic makes of an exact result: `int32` in
the code. -/
def adjustCloseTime {m : Type → Type} [Monad m] (arith : Int → m Int) (k : ManualTimeKeeper)
    (s : Int) : m ManualTimeKeeper :=
  if 1 < s then do
    let t ← arith (s + 3)
    let c ← arith (k.closeOffset + t.tdiv 4)
    pure { k with closeOffset := c }
  else if s < -1 then do
    let t ← arith (s - 3)
    let c ← arith (k.closeOffset + t.tdiv 4)
    pure { k with closeOffset := c }
  else do
    let t ← arith (k.closeOffset * 3)
    pure { k with closeOffset := t.tdiv 4 }

/-- The adjustment in exact arithmetic. -/
def adjusted (k : ManualTimeKeeper) (s : Int) : ManualTimeKeeper :=
  Id.run (adjustCloseTime pure k s)

/-- The calls of a run, as the code computes them. -/
def adjustAll (amounts : List Int32) : Option ManualTimeKeeper :=
  amounts.foldlM (fun k amount => adjustCloseTime int32 k amount.toInt) new

variable {k : ManualTimeKeeper} {s : Int}

theorem adjusted_of_large (h : 1 < s) :
    k.adjusted s = { k with closeOffset := k.closeOffset + (s + 3).tdiv 4 } := by
  simp [adjusted, adjustCloseTime, h]

theorem adjusted_of_large_neg (h : s < -1) :
    k.adjusted s = { k with closeOffset := k.closeOffset + (s - 3).tdiv 4 } := by
  simp [adjusted, adjustCloseTime, h, show ¬ 1 < s by omega]

theorem adjusted_of_small (h : |s| ≤ 1) :
    k.adjusted s = { k with closeOffset := (k.closeOffset * 3).tdiv 4 } := by
  obtain ⟨hlo, hhi⟩ := abs_le.mp h
  simp [adjusted, adjustCloseTime, show ¬ 1 < s by omega, show ¬ s < -1 by omega]

@[simp]
theorem adjusted_now : (k.adjusted s).now = k.now := by
  unfold adjusted adjustCloseTime
  split
  · rfl
  · split <;> rfl

theorem large_or_small (s : Int) : 1 < s ∨ s < -1 ∨ |s| ≤ 1 := by
  rw [abs_le]
  omega

/-! ## The range of the code -/

/-- Bounds on the amount and on the offset before the call. -/
def withinBounds (k : ManualTimeKeeper) (amount : Int32) : Bool :=
  let s := amount.toInt
  if 1 < s then
    decide (s ≤ 2147483644 ∧ k.closeOffset ≤ 2147483647 - (s + 3) / 4)
  else if s < -1 then
    decide (-2147483645 ≤ s ∧ -2147483648 + (3 - s) / 4 ≤ k.closeOffset)
  else
    decide (-715827882 ≤ k.closeOffset ∧ k.closeOffset ≤ 715827882)

/-- A call in the code: it is the exact adjustment when nothing overflows. -/
theorem adjustCloseTime_eq_some {k' : ManualTimeKeeper}
    (h : adjustCloseTime int32 k s = some k') (hk : Fits k.closeOffset) :
    k' = k.adjusted s ∧ Fits k'.closeOffset := by
  unfold adjustCloseTime at h
  rcases large_or_small s with hs | hs | hs
  · simp only [hs, if_true, Option.bind_eq_bind, Option.bind_eq_some_iff, int32_eq_some] at h
    obtain ⟨_, ⟨-, rfl⟩, _, ⟨hfits, rfl⟩, hk'⟩ := h
    cases hk'
    exact ⟨(adjusted_of_large hs).symm, hfits⟩
  · simp only [show ¬ 1 < s by omega, hs, if_true, if_false, Option.bind_eq_bind,
      Option.bind_eq_some_iff, int32_eq_some] at h
    obtain ⟨_, ⟨-, rfl⟩, _, ⟨hfits, rfl⟩, hk'⟩ := h
    cases hk'
    exact ⟨(adjusted_of_large_neg hs).symm, hfits⟩
  · obtain ⟨hlo, hhi⟩ := abs_le.mp hs
    simp only [show ¬ 1 < s by omega, show ¬ s < -1 by omega, if_false, Option.bind_eq_bind,
      Option.bind_eq_some_iff, int32_eq_some] at h
    obtain ⟨_, ⟨-, rfl⟩, hk'⟩ := h
    cases hk'
    refine ⟨(adjusted_of_small hs).symm, ?_⟩
    -- three quarters of an offset that fits
    unfold Fits at hk ⊢
    dsimp only
    rcases le_total 0 k.closeOffset with hc | hc
    · have := tdiv_four_bounds (x := k.closeOffset * 3) (by omega)
      omega
    · have := tdiv_four_bounds_of_nonpos (x := k.closeOffset * 3) (by omega)
      omega

/-- A call in the code goes through just within the bounds. -/
theorem adjustCloseTime_isSome (amount : Int32) (hk : Fits k.closeOffset) :
    (adjustCloseTime int32 k amount.toInt).isSome = true ↔ withinBounds k amount = true := by
  have hamount := fits_toInt amount
  unfold adjustCloseTime withinBounds
  generalize amount.toInt = s at hamount ⊢
  unfold Fits at hamount hk
  rcases large_or_small s with hs | hs | hs
  · have hdiv : (s + 3).tdiv 4 = (s + 3) / 4 := Int.tdiv_eq_ediv_of_nonneg (by omega)
    simp only [hs, if_true, decide_eq_true_eq]
    by_cases hfits : Fits (s + 3)
    · simp only [int32, hfits, if_true, Option.bind_eq_bind, Option.bind_some, hdiv]
      unfold Fits at hfits
      split <;> rename_i hsum <;> unfold Fits at hsum <;> simp <;> omega
    · simp only [int32, hfits, if_false, Option.bind_eq_bind, Option.bind_none]
      unfold Fits at hfits
      simp
      omega
  · have hdiv : (s - 3).tdiv 4 = -((3 - s) / 4) := by
      rw [← Int.tdiv_eq_ediv_of_nonneg (by omega), ← Int.neg_tdiv, neg_sub]
    simp only [show ¬ 1 < s by omega, hs, if_true, if_false, decide_eq_true_eq]
    by_cases hfits : Fits (s - 3)
    · simp only [int32, hfits, if_true, Option.bind_eq_bind, Option.bind_some, hdiv]
      unfold Fits at hfits
      split <;> rename_i hsum <;> unfold Fits at hsum <;> simp <;> omega
    · simp only [int32, hfits, if_false, Option.bind_eq_bind, Option.bind_none]
      unfold Fits at hfits
      simp
      omega
  · obtain ⟨hlo, hhi⟩ := abs_le.mp hs
    simp only [show ¬ 1 < s by omega, show ¬ s < -1 by omega, if_false, decide_eq_true_eq, int32]
    split <;> rename_i hfits <;> unfold Fits at hfits <;> simp <;> omega

/-- No value of a run leaves the range of an `int` just when every call is within the bounds. -/
theorem adjustAll_isSome_iff (amounts : List Int32) : (adjustAll amounts).isSome = true ↔
    ∀ pre amount, pre ++ [amount] <+: amounts →
      withinBounds (pre.foldl (fun k a => k.adjusted a.toInt) new) amount = true := by
  rw [← along_iff]
  refine foldlM_isSome_iff_along (I := fun k => Fits k.closeOffset)
    (fun k amount hk => adjustCloseTime_isSome amount hk) ?_ (by decide)
  intro k amount k' hk h
  exact adjustCloseTime_eq_some h hk

/-- The sum for the largest amount overflows in the first call. -/
theorem adjustAll_largest : adjustAll [Int32.maxValue] = none ∧
    ¬ Fits (Int32.maxValue.toInt + 3) := by
  decide

/-! ## Exact arithmetic -/

theorem adjusted_neg (k : ManualTimeKeeper) (s : Int) :
    ({ k with closeOffset := -k.closeOffset }.adjusted (-s)).closeOffset =
      -(k.adjusted s).closeOffset := by
  rcases large_or_small s with hs | hs | hs
  · rw [adjusted_of_large hs, adjusted_of_large_neg (by omega)]
    have hdiv : (-s - 3).tdiv 4 = -(s + 3).tdiv 4 := by rw [← Int.neg_tdiv, neg_add']
    dsimp only
    omega
  · rw [adjusted_of_large_neg hs, adjusted_of_large (by omega)]
    have hdiv : (-s + 3).tdiv 4 = -(s - 3).tdiv 4 := by
      rw [← Int.neg_tdiv, neg_sub, neg_add_eq_sub]
    dsimp only
    omega
  · rw [adjusted_of_small hs, adjusted_of_small (by rwa [abs_neg])]
    simp only [neg_mul, Int.neg_tdiv]

/-- The quotient that the code takes of a large amount is the quarter rounded up. -/
theorem ceil_quarter (h : 0 ≤ s) : ⌈(s : ℚ) / 4⌉ = (s + 3).tdiv 4 := by
  obtain ⟨hlo, hhi⟩ := tdiv_four_bounds (x := s + 3) (by omega)
  rw [Int.ceil_eq_iff]
  generalize (s + 3).tdiv 4 = q at hlo hhi
  have hlo' : (4 * q : ℚ) ≤ s + 3 := by exact_mod_cast hlo
  have hhi' : (s : ℚ) ≤ 4 * q := by exact_mod_cast (by omega : s ≤ 4 * q)
  constructor <;> linarith

theorem adjusted_large (h : 1 < |s|) :
    (k.adjusted s).closeOffset = k.closeOffset + s.sign * ⌈((|s| : Int) : ℚ) / 4⌉ := by
  rcases lt_abs.mp h with hs | hs
  · rw [adjusted_of_large hs, abs_of_pos (by omega), Int.sign_eq_one_of_pos (by omega),
      ceil_quarter (by omega), one_mul]
  · rw [adjusted_of_large_neg (by omega), abs_of_neg (by omega),
      Int.sign_eq_neg_one_of_neg (by omega), ceil_quarter (by omega), neg_one_mul,
      ← Int.neg_tdiv, neg_add', neg_neg]

/-- A small amount keeps the side of the offset and shrinks it unless it is zero. -/
theorem adjusted_small (h : |s| ≤ 1) :
    (0 ≤ k.closeOffset → 0 ≤ (k.adjusted s).closeOffset) ∧
    (k.closeOffset ≤ 0 → (k.adjusted s).closeOffset ≤ 0) ∧
    (k.closeOffset ≠ 0 → |(k.adjusted s).closeOffset| < |k.closeOffset|) := by
  rw [adjusted_of_small h]
  dsimp only
  rcases le_total 0 k.closeOffset with hc | hc
  · have hdiv := tdiv_four_bounds (x := k.closeOffset * 3) (by omega)
    rw [abs_of_nonneg hc, abs_of_nonneg (by omega)]
    omega
  · have hdiv := tdiv_four_bounds_of_nonpos (x := k.closeOffset * 3) (by omega)
    rw [abs_of_nonpos hc, abs_of_nonpos (by omega)]
    omega

/-- What a run of small amounts keeps; with `n` calls it loses `n` of the magnitude at least. -/
theorem foldl_adjusted_small {ss : List Int} (hss : ∀ s ∈ ss, |s| ≤ 1) :
    (0 ≤ k.closeOffset → 0 ≤ (ss.foldl adjusted k).closeOffset) ∧
    (k.closeOffset ≤ 0 → (ss.foldl adjusted k).closeOffset ≤ 0) ∧
    (ss.foldl adjusted k).closeOffset.natAbs ≤ k.closeOffset.natAbs - ss.length := by
  induction ss generalizing k with
  | nil => simp
  | cons s ss ih =>
    obtain ⟨hs, hss'⟩ := List.forall_mem_cons.mp hss
    obtain ⟨hpos, hneg, hlt⟩ := adjusted_small (k := k) hs
    obtain ⟨ihpos, ihneg, ihlen⟩ := ih (k := k.adjusted s) hss'
    refine ⟨fun h => ihpos (hpos h), fun h => ihneg (hneg h), ?_⟩
    have hstep : (k.adjusted s).closeOffset.natAbs ≤ k.closeOffset.natAbs - 1 := by
      by_cases hc : k.closeOffset = 0
      · have := hpos hc.ge
        have := hneg hc.le
        omega
      · have hlt' := hlt hc
        rw [Int.abs_eq_natAbs, Int.abs_eq_natAbs] at hlt'
        omega
    simp only [List.foldl_cons, List.length_cons]
    omega

/-- Close time adjustment in exact arithmetic: it is symmetric, a large amount counts for a quarter
rounded up, and small amounts bring the offset down to zero without passing it. -/
theorem adjusted_settles (k : ManualTimeKeeper) :
    (∀ s, ({ k with closeOffset := -k.closeOffset }.adjusted (-s)).closeOffset =
      -(k.adjusted s).closeOffset) ∧
    (∀ s, 1 < |s| →
      (k.adjusted s).closeOffset = k.closeOffset + s.sign * ⌈((|s| : Int) : ℚ) / 4⌉ ∧
      (k.adjusted s).closeTime = k.closeTime + s.sign * ⌈((|s| : Int) : ℚ) / 4⌉) ∧
    (∀ ss : List Int, (∀ s ∈ ss, |s| ≤ 1) →
      (0 ≤ k.closeOffset → 0 ≤ (ss.foldl adjusted k).closeOffset) ∧
      (k.closeOffset ≤ 0 → (ss.foldl adjusted k).closeOffset ≤ 0) ∧
      (∀ s, |s| ≤ 1 → (ss.foldl adjusted k).closeOffset ≠ 0 →
        |((ss.foldl adjusted k).adjusted s).closeOffset| < |(ss.foldl adjusted k).closeOffset|) ∧
      (k.closeOffset.natAbs ≤ ss.length → (ss.foldl adjusted k).closeOffset = 0)) := by
  refine ⟨adjusted_neg k, fun s hs => ⟨adjusted_large hs, ?_⟩, fun ss hss => ?_⟩
  · unfold closeTime
    rw [adjusted_large hs, adjusted_now, add_assoc]
  · obtain ⟨hpos, hneg, hlen⟩ := foldl_adjusted_small (k := k) hss
    exact ⟨hpos, hneg, fun s hs => (adjusted_small hs).2.2, fun hn => by omega⟩

end ManualTimeKeeper

end Metcalfe.TimeKeeper
