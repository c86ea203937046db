import Mathlib.Data.List.Chain
import Mathlib.Tactic

/-!
# Rising sequences modulo a number

A sequence that rises by less than `m` in each step still rises modulo `m` only as long as it
stays below `m`: where it first reaches `m`, the remainder falls.
-/

namespace Metcalfe.Wrapping

theorem lt_of_isChain_mod {m a : Nat} {l : List Nat} (ha : a < m)
    (hstep : (a :: l).IsChain fun x y => y < x + m)
    (hrise : ((a :: l).map (· % m)).IsChain (· ≤ ·)) : ∀ x ∈ a :: l, x < m := by
  induction l generalizing a with
  | nil => simpa using ha
  | cons b l ih =>
    obtain ⟨hb, hstep⟩ := List.isChain_cons_cons.mp hstep
    obtain ⟨hab, hrise⟩ := List.isChain_cons_cons.mp hrise
    have hlt : b < m := by
      by_contra hge
      -- The first value that is not below `m` leaves less than the value before it.
      have hmod : b % m = b - m := by
        rw [Nat.mod_eq_sub_mod (not_lt.mp hge)]
        exact Nat.mod_eq_of_lt (by omega)
      have hle : a % m ≤ b % m := hab
      rw [Nat.mod_eq_of_lt ha, hmod] at hle
      omega
    intro x hx
    rcases List.mem_cons.mp hx with rfl | hx
    · exact ha
    · exact ih hlt hstep hrise x hx

end Metcalfe.Wrapping
