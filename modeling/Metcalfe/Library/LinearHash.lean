import Mathlib.Tactic

/-!
# Linear hashing

A table of `buckets` buckets grows by one bucket at a time. A hash is taken modulo a power of two
that is not less than the number of buckets; where that bucket does not exist yet, the hash goes
to the bucket with half the modulus less. When a bucket is added, only the hashes of one bucket,
`splitFrom`, are shared out anew: each stays or goes to the new bucket, and every other hash stays
where it is (`index_grow`).
-/

namespace Metcalfe.LinearHash

def index (h buckets modulus : Nat) : Nat :=
  let n := h % modulus
  if n ≥ buckets then n - modulus / 2 else n

/-- The modulus is the least power of two that is not less than the number of buckets. -/
structure Sized (buckets modulus : Nat) : Prop where
  pow : ∃ k, modulus = 2 ^ k
  le : buckets ≤ modulus
  lt : modulus < 2 * buckets

/-- The modulus once a bucket is added. -/
def nextModulus (buckets modulus : Nat) : Nat := if buckets = modulus then modulus * 2 else modulus

/-- The bucket whose hashes are shared out when a bucket is added. -/
def splitFrom (buckets modulus : Nat) : Nat := buckets - nextModulus buckets modulus / 2

variable {buckets modulus : Nat}

theorem Sized.pos (h : Sized buckets modulus) : 0 < buckets := by
  have := h.lt
  omega

theorem Sized.unique {modulus' : Nat} (h : Sized buckets modulus) (h' : Sized buckets modulus') :
    modulus = modulus' := by
  obtain ⟨k, rfl⟩ := h.pow
  obtain ⟨k', rfl⟩ := h'.pow
  have h1 := h.le
  have h2 := h.lt
  have h3 := h'.le
  have h4 := h'.lt
  have hk : 2 ^ k < 2 ^ (k' + 1) := by
    rw [pow_succ]
    omega
  have hk' : 2 ^ k' < 2 ^ (k + 1) := by
    rw [pow_succ]
    omega
  have := (Nat.pow_lt_pow_iff_right (by omega)).mp hk
  have := (Nat.pow_lt_pow_iff_right (by omega)).mp hk'
  congr 1
  omega

/-- A modulus above one is even. -/
theorem Sized.even (h : Sized buckets modulus) (hne : modulus ≠ 1) : modulus % 2 = 0 := by
  obtain ⟨k, rfl⟩ := h.pow
  cases k with
  | zero => exact absurd rfl hne
  | succ k => rw [pow_succ, Nat.mul_mod_left]

theorem Sized.modulus_le (h : Sized buckets modulus) {k : Nat} (hle : buckets ≤ 2 ^ k) :
    modulus ≤ 2 ^ k := by
  obtain ⟨j, rfl⟩ := h.pow
  have hlt : 2 ^ j < 2 ^ (k + 1) := by
    have := h.lt
    rw [pow_succ]
    omega
  exact Nat.pow_le_pow_right (by omega) (by
    have := (Nat.pow_lt_pow_iff_right (by omega)).mp hlt
    omega)

theorem Sized.next (h : Sized buckets modulus) :
    Sized (buckets + 1) (nextModulus buckets modulus) := by
  have hle := h.le
  have hlt := h.lt
  obtain ⟨k, hk⟩ := h.pow
  unfold nextModulus
  split
  · exact ⟨⟨k + 1, by rw [hk, pow_succ]⟩, by omega, by omega⟩
  · exact ⟨⟨k, hk⟩, by omega, by omega⟩

theorem index_lt (h : Sized buckets modulus) (hash : Nat) :
    index hash buckets modulus < buckets := by
  have hle := h.le
  have hlt := h.lt
  have hmod := Nat.mod_lt hash (show 0 < modulus by omega)
  unfold index
  by_cases hone : modulus = 1
  · subst hone
    simp only
    split <;> omega
  · have heven := h.even hone
    simp only
    split <;> omega

/-- Doubling the modulus of a full table moves nothing. -/
theorem index_nextModulus (h : Sized buckets modulus) (hash : Nat) :
    index hash buckets (nextModulus buckets modulus) = index hash buckets modulus := by
  unfold nextModulus
  split
  · rename_i heq
    subst heq
    have hpos := h.pos
    have hlt : hash % buckets < buckets := Nat.mod_lt _ hpos
    have hmod : hash % (buckets * 2) = hash % buckets + buckets * (hash / buckets % 2) :=
      Nat.mod_mul
    have htwo := Nat.mod_two_eq_zero_or_one (hash / buckets)
    unfold index
    simp only [hmod]
    rcases htwo with hz | ho
    · rw [hz, Nat.mul_zero, Nat.add_zero, if_neg (by omega), if_neg (by omega)]
    · rw [ho, Nat.mul_one, if_pos (by omega), if_neg (by omega)]
      omega
  · rfl

/-- Where a hash goes when a bucket is added. -/
theorem index_grow (h : Sized buckets modulus) (hash : Nat) :
    (index hash (buckets + 1) (nextModulus buckets modulus) = buckets ∧
        index hash buckets modulus = splitFrom buckets modulus) ∨
      index hash (buckets + 1) (nextModulus buckets modulus) = index hash buckets modulus := by
  rw [← index_nextModulus h hash, splitFrom]
  generalize nextModulus buckets modulus = modulus'
  unfold index
  simp only
  by_cases hn : hash % modulus' = buckets
  · left
    rw [hn, if_neg (by omega), if_pos le_rfl]
    exact ⟨rfl, rfl⟩
  · right
    by_cases hge : hash % modulus' ≥ buckets
    · rw [if_pos (show hash % modulus' ≥ buckets + 1 by omega), if_pos hge]
    · rw [if_neg (show ¬ hash % modulus' ≥ buckets + 1 by omega), if_neg hge]

theorem splitFrom_lt (h : Sized buckets modulus) : splitFrom buckets modulus < buckets := by
  have hpos := h.pos
  have hlt := h.next.le
  unfold splitFrom
  have hle := h.le
  unfold nextModulus at *
  split <;> omega

end Metcalfe.LinearHash
