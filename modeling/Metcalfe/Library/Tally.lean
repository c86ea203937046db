import Mathlib.Tactic

/-!
# Sums over the parties of a system

Party `id < k` is in the state `f id`, and a state has the value `v`. When one party changes its
state, the sum changes by the difference of the two values. With values 0 and 1 the sum counts the
parties in some kind of state; with a rank it is the measure of a termination argument.
-/

namespace Metcalfe.Tally

variable {α : Type} {k id : Nat} {f : Nat → α} {v : α → Nat}

def tally (k : Nat) (f : Nat → α) (v : α → Nat) : Nat := ∑ id ∈ Finset.range k, v (f id)

theorem tally_update (hid : id < k) (x : α) :
    tally k (Function.update f id x) v + v (f id) = tally k f v + v x := by
  have hmem : id ∈ Finset.range k := Finset.mem_range.mpr hid
  have hcomp : ∀ j, v (Function.update f id x j) = Function.update (v ∘ f) id (v x) j := by
    intro j
    by_cases hj : j = id
    · subst hj
      simp
    · simp [hj]
  unfold tally
  rw [Finset.sum_congr rfl fun j _ => hcomp j, Finset.sum_update_of_mem hmem,
    Finset.sdiff_singleton_eq_erase, ← Finset.add_sum_erase _ _ hmem]
  simp only [Function.comp_apply]
  omega

/-- A change between states of one value. -/
theorem tally_update_of_eq (hid : id < k) {x : α} (h : v x = v (f id)) :
    tally k (Function.update f id x) v = tally k f v := by
  have := tally_update (f := f) (v := v) hid x
  omega

theorem tally_eq_mul {c : Nat} (h : ∀ id < k, v (f id) = c) : tally k f v = k * c := by
  unfold tally
  rw [Finset.sum_congr rfl fun id hid => h id (Finset.mem_range.mp hid), Finset.sum_const,
    Finset.card_range, smul_eq_mul]

/-- With a party of value 0 among parties of value at most 1 the sum is less than their number. -/
theorem tally_lt (hv : ∀ x, v x ≤ 1) (hid : id < k) (h : v (f id) = 0) : tally k f v < k := by
  have hlt : ∑ j ∈ Finset.range k, v (f j) < ∑ _j ∈ Finset.range k, 1 :=
    Finset.sum_lt_sum (fun j _ => hv (f j)) ⟨id, Finset.mem_range.mpr hid, by omega⟩
  simpa [tally] using hlt

end Metcalfe.Tally
