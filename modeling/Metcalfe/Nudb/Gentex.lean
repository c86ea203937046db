import Mathlib.Data.Fintype.Card
import Mathlib.Logic.Function.Basic

/-!
# The generations of the readers

`detail/gentex.hpp`. A reader locks the current generation. `start` begins a new one, and `finish`
waits until no reader is left of those before. Two counters are kept; `Counts` says what they
count, over the generations that the threads have locked, and each operation keeps that. So the
counters are never decremented at zero, and `finish` returns only when every reader that is left has
locked the generation that `start` began.
-/

namespace Metcalfe.Nudb

structure Gentex where
  gen : Nat
  cur : Nat
  prev : Nat
  deriving DecidableEq, Repr

namespace Gentex

def start (g : Gentex) : Gentex := ⟨g.gen + 1, 0, g.prev + g.cur⟩

def lockGen (g : Gentex) : Gentex := { g with cur := g.cur + 1 }

def unlockGen (g : Gentex) (gen : Nat) : Gentex :=
  if gen = g.gen then { g with cur := g.cur - 1 } else { g with prev := g.prev - 1 }

/-- `finish` does not wait. -/
def Finished (g : Gentex) : Prop := g.prev = 0

variable {ι : Type} [Fintype ι] {g : Gentex} {held : ι → Option Nat} {i : ι} {n : Nat}

/-- The threads that have locked a generation that meets a condition. -/
def lockers (held : ι → Option Nat) (p : Nat → Bool) : Finset ι :=
  Finset.univ.filter fun i => (held i).any p = true

/-- What the two counters count. -/
structure Counts (g : Gentex) (held : ι → Option Nat) : Prop where
  le : ∀ i n, held i = some n → n ≤ g.gen
  cur : g.cur = (lockers held fun n => n = g.gen).card
  prev : g.prev = (lockers held fun n => n ≠ g.gen).card

theorem counts_init (gen : Nat) : Counts ⟨gen, 0, 0⟩ (fun _ : ι => none) := by
  refine ⟨by simp, ?_, ?_⟩ <;> simp [lockers]

/-- The counter that `unlockGen` decrements is not zero. -/
theorem Counts.pos (h : g.Counts held) (hi : held i = some n) :
    if n = g.gen then 0 < g.cur else 0 < g.prev := by
  have h1 := h.cur
  have h2 := h.prev
  split
  · rename_i hn
    rw [h1, Finset.card_pos]
    exact ⟨i, by simp [lockers, hi, hn]⟩
  · rename_i hn
    rw [h2, Finset.card_pos]
    exact ⟨i, by simp [lockers, hi, hn]⟩

/-- Once `finish` returns, the readers that are left have locked the current generation. -/
theorem Counts.current (h : g.Counts held) (hg : g.Finished) (hi : held i = some n) :
    n = g.gen := by
  by_contra hne
  have hpos := h.pos hi
  rw [if_neg hne] at hpos
  exact hpos.ne' hg

variable [DecidableEq ι]

theorem lockers_lock {p : Nat → Bool} (hi : held i = none) (n : Nat) :
    (lockers (Function.update held i (some n)) p).card =
      (lockers held p).card + if p n = true then 1 else 0 := by
  by_cases hp : p n = true
  · have heq : lockers (Function.update held i (some n)) p = insert i (lockers held p) := by
      ext j
      by_cases hj : j = i
      · subst hj
        simp [lockers, hp]
      · simp [lockers, hj]
    rw [heq, Finset.card_insert_of_notMem (by simp [lockers, hi]), if_pos hp]
  · have heq : lockers (Function.update held i (some n)) p = lockers held p := by
      ext j
      by_cases hj : j = i
      · subst hj
        simp [lockers, hp, hi]
      · simp [lockers, hj]
    rw [heq, if_neg hp, Nat.add_zero]

theorem lockers_unlock {p : Nat → Bool} (hi : held i = some n) :
    (lockers held p).card =
      (lockers (Function.update held i none) p).card + if p n = true then 1 else 0 := by
  have hself : Function.update (Function.update held i none) i (some n) = held := by
    rw [Function.update_idem, ← hi, Function.update_eq_self]
  conv_lhs => rw [← hself]
  exact lockers_lock (Function.update_self _ _ _) n

theorem Counts.lock (h : g.Counts held) (hi : held i = none) :
    g.lockGen.Counts (Function.update held i (some g.gen)) := by
  refine ⟨fun j n hj => ?_, ?_, ?_⟩
  · by_cases hji : j = i
    · subst hji
      rw [Function.update_self, Option.some.injEq] at hj
      exact hj.ge
    · rw [Function.update_of_ne hji] at hj
      exact h.le j n hj
  · show g.cur + 1 = _
    rw [lockers_lock hi, if_pos (by simp [lockGen]), h.cur]
    rfl
  · show g.prev = _
    rw [lockers_lock hi, if_neg (by simp [lockGen]), h.prev]
    rfl

theorem Counts.unlock (h : g.Counts held) (hi : held i = some n) :
    (g.unlockGen n).Counts (Function.update held i none) := by
  have hcur := lockers_unlock (p := fun n => n = g.gen) hi
  have hprev := lockers_unlock (p := fun n => n ≠ g.gen) hi
  have hle : ∀ j m, Function.update held i none j = some m → m ≤ g.gen := by
    intro j m hj
    by_cases hji : j = i
    · subst hji
      rw [Function.update_self] at hj
      cases hj
    · rw [Function.update_of_ne hji] at hj
      exact h.le j m hj
  have h1 := h.cur
  have h2 := h.prev
  unfold unlockGen
  by_cases hn : n = g.gen
  · rw [if_pos hn]
    refine ⟨hle, ?_, ?_⟩
    · show g.cur - 1 = (lockers _ fun n => n = g.gen).card
      rw [if_pos (by simpa using hn)] at hcur
      omega
    · show g.prev = (lockers _ fun n => n ≠ g.gen).card
      rw [if_neg (by simpa using hn)] at hprev
      omega
  · rw [if_neg hn]
    refine ⟨hle, ?_, ?_⟩
    · show g.cur = (lockers _ fun n => n = g.gen).card
      rw [if_neg (by simpa using hn)] at hcur
      omega
    · show g.prev - 1 = (lockers _ fun n => n ≠ g.gen).card
      rw [if_pos (by simpa using hn)] at hprev
      omega

theorem Counts.start (h : g.Counts held) : g.start.Counts held := by
  have hlt : ∀ i n, held i = some n → n < g.gen + 1 :=
    fun i n hi => Nat.lt_succ_of_le (h.le i n hi)
  refine ⟨fun i n hi => (hlt i n hi).le, ?_, ?_⟩
  · symm
    rw [Gentex.start, Finset.card_eq_zero, lockers, Finset.filter_eq_empty_iff]
    intro i _
    cases hi : held i with
    | none => simp
    | some n =>
      have := hlt i n hi
      simp
      omega
  · show g.prev + g.cur = (lockers held fun n => n ≠ g.gen + 1).card
    rw [h.prev, h.cur, Nat.add_comm, ← Finset.card_union_of_disjoint]
    · congr 1
      ext i
      cases hi : held i with
      | none => simp [lockers, hi]
      | some n =>
        have := hlt i n hi
        simp [lockers, hi]
        omega
    · rw [Finset.disjoint_left]
      intro i hi hi'
      cases hj : held i with
      | none => simp [lockers, hj] at hi
      | some n => simp_all [lockers]

end Gentex

end Metcalfe.Nudb
