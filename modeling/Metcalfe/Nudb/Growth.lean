import Metcalfe.Library.LinearHash
import Metcalfe.Nudb.Format

/-!
# The growth of the key file

`bucket_index` is the index of linear hashing. The modulus is not stored: a store that is opened
computes it with `ceil_pow2` from the number of buckets, and gets the modulus that the store
before it had reached by doubling (`ceilPow2_eq`).
-/

namespace Metcalfe.Nudb

open LinearHash

theorem bucketIndex_eq (h buckets modulus : Nat) :
    bucketIndex h buckets modulus = index h buckets modulus := rfl

/-- Where a key goes when a bucket is added. -/
theorem bucketIndex_grow {buckets modulus : Nat} (h : Sized buckets modulus) (hash : Nat) :
    (bucketIndex hash (buckets + 1) (nextModulus buckets modulus) = buckets ∧
        bucketIndex hash buckets modulus = splitFrom buckets modulus) ∨
      bucketIndex hash (buckets + 1) (nextModulus buckets modulus) =
        bucketIndex hash buckets modulus := by
  simp only [bucketIndex_eq]
  exact index_grow h hash

/-- The mask of a round has the upper half of the bits that are left. -/
theorem land_mask_eq_zero_iff {x j : Nat} (hx : x < 2 ^ (j + j)) :
    x &&& (2 ^ j - 1) * 2 ^ j = 0 ↔ x < 2 ^ j := by
  constructor
  · intro h
    by_contra hge
    have hpos : 0 < 2 ^ j := by positivity
    have hdiv : 0 < x / 2 ^ j := Nat.div_pos (not_lt.mp hge) hpos
    have hlt : x / 2 ^ j < 2 ^ j := by
      rw [Nat.div_lt_iff_lt_mul hpos, ← pow_add]
      exact hx
    -- Shifted down, the mask leaves the quotient as it is.
    have hshift : (x &&& (2 ^ j - 1) * 2 ^ j) >>> j = x / 2 ^ j := by
      rw [Nat.shiftRight_and_distrib, Nat.shiftRight_eq_div_pow, Nat.shiftRight_eq_div_pow,
        Nat.mul_div_cancel _ hpos, Nat.and_two_pow_sub_one_eq_mod, Nat.mod_eq_of_lt hlt]
    rw [h, Nat.zero_shiftRight] at hshift
    omega
  · exact land_eq_zero_of_lt (Dvd.intro_left _ rfl)

/-- What the rounds compute of a number of `2 * j` bits: the position of its leading bit. -/
theorem ceilPow2Loop_round {rounds : List (Nat × Nat)} {x y j : Nat} (hx : x < 2 ^ (j + j))
    (hpos : 0 < x) : ∃ k, k ≤ j ∧ 2 ^ k ≤ x ∧ x >>> k < 2 ^ j ∧
      ceilPow2Loop (((2 ^ j - 1) * 2 ^ j, j) :: rounds) x y =
        ceilPow2Loop rounds (x >>> k) (y + k) := by
  rw [ceilPow2Loop]
  by_cases hlt : x < 2 ^ j
  · refine ⟨0, Nat.zero_le j, hpos, hlt, ?_⟩
    rw [if_pos ((land_mask_eq_zero_iff hx).mpr hlt)]
  · refine ⟨j, le_rfl, not_lt.mp hlt, ?_, ?_⟩
    · rw [Nat.shiftRight_eq_div_pow, Nat.div_lt_iff_lt_mul (by positivity), ← pow_add]
      exact hx
    · rw [if_neg fun h => hlt ((land_mask_eq_zero_iff hx).mp h)]

/-- The rounds with shifts 32, 16, 8, 4, 2, 1, from the one with shift `2 ^ i` on. -/
theorem ceilPow2Loop_eq (i : Nat) {x y : Nat} (hx : x < 2 ^ (2 ^ i)) (hpos : 0 < x) :
    ∃ k, 2 ^ k ≤ x ∧ x < 2 ^ (k + 1) ∧
      ceilPow2Loop ((List.range i).reverse.map fun i => ((2 ^ 2 ^ i - 1) * 2 ^ 2 ^ i, 2 ^ i)) x y =
        2 ^ (y + k) := by
  induction i generalizing x y with
  | zero =>
    have hone : x = 1 := by
      rw [pow_zero, pow_one] at hx
      omega
    exact ⟨0, hpos, by omega, rfl⟩
  | succ i ih =>
    have hdouble : 2 ^ (i + 1) = 2 ^ i + 2 ^ i := by rw [pow_succ, mul_two]
    rw [hdouble] at hx
    rw [List.range_succ, List.reverse_append, List.reverse_singleton, List.singleton_append,
      List.map_cons]
    obtain ⟨k, -, hk, hshift, hround⟩ := ceilPow2Loop_round (y := y) hx hpos
    rw [hround]
    have hpow : 0 < 2 ^ k := by positivity
    rw [Nat.shiftRight_eq_div_pow] at hshift ⊢
    obtain ⟨k', hle, hlt, hloop⟩ := ih (y := y + k) hshift (Nat.div_pos hk hpow)
    refine ⟨k + k', ?_, ?_, by rw [hloop, add_assoc]⟩
    · rw [pow_add, mul_comm]
      exact (Nat.le_div_iff_mul_le hpow).mp hle
    · rw [add_assoc, pow_add, mul_comm]
      exact (Nat.div_lt_iff_lt_mul hpow).mp hlt

theorem ceilPow2Rounds_eq : ceilPow2Rounds =
    (List.range 6).reverse.map fun i => ((2 ^ 2 ^ i - 1) * 2 ^ 2 ^ i, 2 ^ i) := by
  decide

/-- A number is a power of two exactly when it has no bit in common with its predecessor. -/
theorem land_pred_eq_zero_iff {x k : Nat} (hk : 2 ^ k ≤ x) (hlt : x < 2 ^ (k + 1)) :
    x &&& (x - 1) = 0 ↔ x = 2 ^ k := by
  constructor
  · intro h
    by_contra hne
    -- The leading bit is in both.
    have hbit : (x &&& (x - 1)).testBit k = true := by
      rw [Nat.testBit_and, Bool.and_eq_true_iff]
      have hdiv : ∀ z, 2 ^ k ≤ z → z < 2 ^ (k + 1) → z.testBit k = true := by
        intro z hz hz'
        have hone : z / 2 ^ k = 1 := by
          apply Nat.div_eq_of_lt_le
          · omega
          · rw [pow_succ] at hz'
            omega
        rw [Nat.testBit_eq_decide_div_mod_eq, hone]
        rfl
      exact ⟨hdiv x hk hlt, hdiv (x - 1) (by omega) (by omega)⟩
    rw [h, Nat.zero_testBit] at hbit
    cases hbit
  · rintro rfl
    rw [Nat.and_two_pow_sub_one_eq_mod, Nat.mod_self]

/-- `ceil_pow2` is the least power of two that is not less. -/
theorem ceilPow2_sized {buckets : Nat} (hpos : 0 < buckets) (hbound : buckets < 2 ^ 64) :
    Sized buckets (ceilPow2 buckets) := by
  obtain ⟨k, hk, hlt, hloop⟩ :=
    ceilPow2Loop_eq 6 (y := if buckets &&& (buckets - 1) = 0 then 0 else 1) hbound hpos
  rw [← ceilPow2Rounds_eq] at hloop
  rw [ceilPow2, hloop]
  by_cases hpow : buckets = 2 ^ k
  · rw [if_pos ((land_pred_eq_zero_iff hk hlt).mpr hpow), zero_add, ← hpow]
    exact ⟨⟨k, hpow⟩, le_rfl, by omega⟩
  · rw [if_neg fun h0 => hpow ((land_pred_eq_zero_iff hk hlt).mp h0), add_comm]
    refine ⟨⟨k + 1, rfl⟩, hlt.le, ?_⟩
    rw [pow_succ]
    omega

/-- A store that is opened when a bucket has been added. -/
theorem bucketIndex_added {buckets : Nat} (h : Sized buckets (ceilPow2 buckets))
    (hbound : buckets + 1 < 2 ^ 64) (hash : Nat) :
    (bucketIndex hash (buckets + 1) (ceilPow2 (buckets + 1)) = buckets ∧
        bucketIndex hash buckets (ceilPow2 buckets) = buckets - ceilPow2 (buckets + 1) / 2) ∨
      bucketIndex hash (buckets + 1) (ceilPow2 (buckets + 1)) =
        bucketIndex hash buckets (ceilPow2 buckets) := by
  have hnext : ceilPow2 (buckets + 1) = nextModulus buckets (ceilPow2 buckets) :=
    (ceilPow2_sized (Nat.succ_pos _) hbound).unique h.next
  rw [hnext]
  exact bucketIndex_grow h hash

/-- `ceil_pow2` of the number of buckets is the modulus of a table of that size. -/
theorem ceilPow2_eq {buckets modulus : Nat} (h : Sized buckets modulus)
    (hbound : buckets < 2 ^ 64) : ceilPow2 buckets = modulus :=
  (ceilPow2_sized h.pos hbound).unique h

/-- However many buckets are added, a key is found in the bucket that it was in or in one that was
added since, and only keys of the bucket that is split go to the one that is added next. -/
theorem bucketIndex_grown {b b' : Nat} (hpos : 0 < b) (hle : b ≤ b') (hbound : b' < 2 ^ 32)
    (hash : Nat) :
    bucketIndex hash b' (ceilPow2 b') < b' ∧
      (bucketIndex hash b' (ceilPow2 b') = bucketIndex hash b (ceilPow2 b) ∨
        b ≤ bucketIndex hash b' (ceilPow2 b')) ∧
      (bucketIndex hash (b' + 1) (ceilPow2 (b' + 1)) = b' ∧
          bucketIndex hash b' (ceilPow2 b') = b' - ceilPow2 (b' + 1) / 2 ∨
        bucketIndex hash (b' + 1) (ceilPow2 (b' + 1)) = bucketIndex hash b' (ceilPow2 b')) := by
  have hsized : ∀ n, b ≤ n → n ≤ b' → Sized n (ceilPow2 n) :=
    fun n hn hn' => ceilPow2_sized (by omega) (by omega)
  have hstep := fun n hn hn' => bucketIndex_added (hsized n hn hn') (by omega) hash
  refine ⟨index_lt (hsized b' hle le_rfl) hash, ?_, hstep b' hle le_rfl⟩
  induction b', hle using Nat.le_induction with
  | base => exact .inl rfl
  | succ n hn ih =>
    have hkept := ih (by omega) (fun m hm hm' => hsized m hm (by omega))
      fun m hm hm' => hstep m hm (by omega)
    rcases hstep n hn (by omega) with ⟨hnew, -⟩ | hsame
    · exact .inr (by rwa [hnew])
    · rwa [hsame]

theorem bucketIndex_grown_five : bucketIndex 13 5 (ceilPow2 5) < 5 ∧
    (bucketIndex 13 5 (ceilPow2 5) = bucketIndex 13 3 (ceilPow2 3) ∨
      3 ≤ bucketIndex 13 5 (ceilPow2 5)) ∧
    (bucketIndex 13 6 (ceilPow2 6) = 5 ∧ bucketIndex 13 5 (ceilPow2 5) = 5 - ceilPow2 6 / 2 ∨
      bucketIndex 13 6 (ceilPow2 6) = bucketIndex 13 5 (ceilPow2 5)) :=
  bucketIndex_grown (by norm_num) (by norm_num) (by norm_num) 13

end Metcalfe.Nudb
