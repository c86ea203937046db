import Mathlib.Tactic
import Mathlib.Data.List.Sort

/-!
# Binary search for a threshold

The search keeps a range `[first, first + count)` that holds the least index where `below`
fails, and halves it each round. When `below` holds on an initial part of the indexes and
nowhere after it, the search finds where that part ends.
-/

namespace Metcalfe.Search

variable {below : Nat → Bool}

/-- One round halves the range, so `fuel` rounds search a range of at most `fuel` indexes. -/
def lowerBound (below : Nat → Bool) : (fuel first count : Nat) → Nat
  | 0, first, _ => first
  | fuel + 1, first, count =>
    if count = 0 then first
    else
      let step := count / 2
      let i := first + step
      if below i then lowerBound below fuel (i + 1) (count - (step + 1))
      else lowerBound below fuel first step

/-- What the range being searched satisfies. -/
structure Range (below : Nat → Bool) (n first count : Nat) : Prop where
  bound : first + count ≤ n
  left : ∀ i < first, below i = true
  right : ∀ i, first + count ≤ i → i < n → below i = false

/-- `r` is where `below` stops holding. -/
structure Threshold (below : Nat → Bool) (n r : Nat) : Prop where
  bound : r ≤ n
  left : ∀ i < r, below i = true
  right : ∀ i, r ≤ i → i < n → below i = false

theorem lowerBound_threshold {n fuel first count : Nat}
    (hmono : ∀ i j, i ≤ j → j < n → below j = true → below i = true)
    (h : Range below n first count) (hfuel : count ≤ fuel) :
    Threshold below n (lowerBound below fuel first count) := by
  have hbound := h.bound
  -- The range is all there is to know between two rounds.
  induction fuel generalizing first count with
  | zero =>
    have hcount : count = 0 := by omega
    subst hcount
    show Threshold below n first
    exact ⟨by omega, h.left, h.right⟩
  | succ fuel ih =>
    rw [lowerBound]
    by_cases hcount : count = 0
    · subst hcount
      rw [if_pos rfl]
      exact ⟨by omega, h.left, h.right⟩
    · rw [if_neg hcount]
      have hmid : first + count / 2 < n := by omega
      by_cases hbelow : below (first + count / 2) = true
      · simp only [hbelow, if_true]
        have hrange : Range below n (first + count / 2 + 1) (count - (count / 2 + 1)) := by
          refine ⟨by omega, fun i hi => ?_, fun i hi hin => ?_⟩
          · exact hmono i _ (by omega) hmid hbelow
          · exact h.right i (by omega) hin
        exact ih hrange (by omega) hrange.bound
      · simp only [hbelow]
        have hrange : Range below n first (count / 2) := by
          refine ⟨by omega, h.left, fun i hi hin => ?_⟩
          by_contra htrue
          exact hbelow (hmono _ i hi hin (by simpa using htrue))
        exact ih hrange (by omega) hrange.bound

/-- The whole range `[0, n)`. -/
theorem lowerBound_spec {n : Nat}
    (hmono : ∀ i j, i ≤ j → j < n → below j = true → below i = true) :
    Threshold below n (lowerBound below n 0 n) := by
  apply lowerBound_threshold hmono _ le_rfl
  exact ⟨by omega, fun i hi => absurd hi (by omega), fun i hi hin => absurd hin (by omega)⟩

/-- An ordered insertion is one in front of the first element that is not smaller. -/
theorem orderedInsert_eq_take_append {α : Type} {r : α → α → Prop} [DecidableRel r] {a : α}
    {l : List α} {i : Nat} (hi : i ≤ l.length) (hleft : ∀ b ∈ l.take i, ¬ r a b)
    (hright : ∀ b ∈ l.drop i, r a b) :
    l.orderedInsert r a = l.take i ++ a :: l.drop i := by
  induction l generalizing i with
  | nil => simp
  | cons b l ih =>
    cases i with
    | zero =>
      have hb : r a b := hright b (by simp)
      simp [hb]
    | succ i =>
      have hb : ¬ r a b := hleft b (by simp)
      rw [List.orderedInsert_of_not_le _ _ hb, ih (by simpa using hi)]
      · simp
      · intro c hc
        exact hleft c (by simp [hc])
      · intro c hc
        exact hright c (by simpa using hc)

end Metcalfe.Search
