import Mathlib.Data.List.Count
import Mathlib.Data.List.Perm.Subperm

/-!
# Comparing path sets

`same` of `Path_test.cpp` is meant to compare a path set with its arguments up to order. It looks
at the sizes and finds each argument in the set, but it does not count: with `{p, q}` on one side
and `p, p` on the other it answers true, and false when the two change places. `same_iff_perm_iff`
says when the answer is the right one.
-/

namespace Metcalfe.Path

/-! `Path` is `STPath` with its `==`, and a list of paths is an `STPathSet`. -/

variable {Path : Type} [DecidableEq Path]

/-- `stpathset_append`: one `push_back` for each argument. -/
def stpathsetAppend (st : List Path) : List Path → List Path
  | [] => st
  | p :: args => stpathsetAppend (st ++ [p]) args

/-- The loop of `same` over the second set. -/
def allFound (st1 : List Path) : List Path → Bool
  | [] => true
  | p :: st2 => if st1.find? (· == p) = none then false else allFound st1 st2

def same (st1 args : List Path) : Bool :=
  let st2 := stpathsetAppend [] args
  if st1.length ≠ st2.length then false else allFound st1 st2

omit [DecidableEq Path] in
theorem stpathsetAppend_eq (st args : List Path) : stpathsetAppend st args = st ++ args := by
  induction args generalizing st with
  | nil => simp [stpathsetAppend]
  | cons p args ih => simp [stpathsetAppend, ih]

theorem allFound_eq_true (st1 st2 : List Path) :
    allFound st1 st2 = true ↔ ∀ p ∈ st2, p ∈ st1 := by
  induction st2 with
  | nil => simp [allFound]
  | cons p st2 ih =>
    have hfind : st1.find? (· == p) = none ↔ p ∉ st1 := by
      simp only [List.find?_eq_none, beq_iff_eq]
      exact ⟨fun h hp => h p hp rfl, fun h q hq hqp => h (hqp ▸ hq)⟩
    unfold allFound
    split <;> simp_all

theorem same_eq_true (st1 args : List Path) :
    same st1 args = true ↔ st1.length = args.length ∧ ∀ p ∈ args, p ∈ st1 := by
  unfold same
  rw [stpathsetAppend_eq, List.nil_append]
  dsimp only
  split
  · simp_all
  · rw [allFound_eq_true]
    simp_all

/-- The sizes differ, an argument is missing, or no path is given more often than the set has it. -/
def Counted (st1 args : List Path) : Prop :=
  st1.length ≠ args.length ∨ (∃ p ∈ args, p ∉ st1) ∨ ∀ p, args.count p ≤ st1.count p

theorem perm_of_count_le {st1 args : List Path} (hlen : st1.length = args.length)
    (hcount : ∀ p, args.count p ≤ st1.count p) : st1.Perm args := by
  have hsub : args.Subperm st1 := List.subperm_ext_iff.mpr fun p _ => hcount p
  exact (hsub.perm_of_length_le (Nat.le_of_eq hlen)).symm

theorem same_of_perm {st1 args : List Path} (h : st1.Perm args) : same st1 args = true :=
  (same_eq_true st1 args).mpr ⟨h.length_eq, fun _ hp => h.mem_iff.mpr hp⟩

theorem same_iff_perm_of_counted {st1 args : List Path} (h : Counted st1 args) :
    same st1 args = true ↔ st1.Perm args := by
  refine ⟨fun hsame => ?_, same_of_perm⟩
  obtain ⟨hlen, hmem⟩ := (same_eq_true st1 args).mp hsame
  rcases h with hne | ⟨p, hp, hnot⟩ | hcount
  · exact absurd hlen hne
  · exact absurd (hmem p hp) hnot
  · exact perm_of_count_le hlen hcount

theorem counted_of_same_iff_perm {st1 args : List Path}
    (h : same st1 args = true ↔ st1.Perm args) : Counted st1 args := by
  by_contra hnot
  simp only [Counted, not_or, not_exists, not_and, not_not] at hnot
  obtain ⟨hlen, hmem, hcount⟩ := hnot
  have hperm : st1.Perm args := h.mp ((same_eq_true st1 args).mpr ⟨hlen, hmem⟩)
  exact hcount fun p => Nat.le_of_eq (hperm.count_eq p).symm

/-- When `same` decides equality up to order, and when it does so from both sides. -/
theorem same_iff_perm_iff (st1 args : List Path) :
    ((same st1 args = true ↔ st1.Perm args) ↔ Counted st1 args) ∧
    (((same st1 args = true ↔ st1.Perm args) ∧ same st1 args = same args st1) ↔
      Counted st1 args ∧ Counted args st1) := by
  refine ⟨⟨counted_of_same_iff_perm, same_iff_perm_of_counted⟩, ?_⟩
  constructor
  · rintro ⟨hiff, hsymm⟩
    refine ⟨counted_of_same_iff_perm hiff, counted_of_same_iff_perm ?_⟩
    rw [← hsymm, hiff, List.perm_comm]
  · rintro ⟨hst1, hargs⟩
    refine ⟨same_iff_perm_of_counted hst1, Bool.eq_iff_iff.mpr ?_⟩
    rw [same_iff_perm_of_counted hst1, same_iff_perm_of_counted hargs, List.perm_comm]

/-- One path twice against two paths. -/
theorem same_repeated_path : same [1, 2] [1, 1] = true ∧ ¬ [1, 2].Perm [1, 1] ∧
    same [1, 1] [1, 2] = false := by
  decide

end Metcalfe.Path
