import Mathlib.Data.List.Basic

/-!
# Runs under a condition

A run is a list of operations that a step function folds into a state. `along` says that every
step of the run meets a condition in the state before it, and `invariant` is the rule for such
runs: what each step that meets the condition preserves holds at the end. It applies to every
state on the way too, since the beginning of such a run is such a run (`along_of_isPrefix`).
-/

namespace Metcalfe.Steps

variable {σ α : Type} {step : σ → α → σ} {ok : σ → α → Bool} {s : σ} {ops pre : List α}

variable (step ok) in
def along : σ → List α → Bool
  | _, [] => true
  | s, op :: ops => ok s op && along (step s op) ops

theorem along_append (ops' : List α) : along step ok s (ops ++ ops') =
    (along step ok s ops && along step ok (ops.foldl step s) ops') := by
  induction ops generalizing s with
  | nil => rfl
  | cons op ops ih => simp [along, ih, Bool.and_assoc]

theorem along_of_isPrefix (hpre : pre <+: ops) (hok : along step ok s ops = true) :
    along step ok s pre = true := by
  obtain ⟨rest, rfl⟩ := hpre
  rw [along_append] at hok
  exact (Bool.and_eq_true_iff.mp hok).1

/-- Every step of the run meets the condition. -/
theorem along_iff : along step ok s ops = true ↔
    ∀ pre op, pre ++ [op] <+: ops → ok (pre.foldl step s) op = true := by
  constructor
  · intro hok pre op hpre
    have hpre' := along_of_isPrefix hpre hok
    rw [along_append] at hpre'
    simpa [along] using (Bool.and_eq_true_iff.mp hpre').2
  · intro h
    induction ops generalizing s with
    | nil => rfl
    | cons op ops ih =>
      refine Bool.and_eq_true_iff.mpr ⟨h [] op (by simp), ih fun pre op' hpre => ?_⟩
      exact h (op :: pre) op' (List.cons_prefix_cons.mpr ⟨rfl, hpre⟩)

theorem invariant {I : σ → Prop} (hstep : ∀ s op, ok s op = true → I s → I (step s op)) (hs : I s)
    (hok : along step ok s ops = true) : I (ops.foldl step s) := by
  induction ops generalizing s with
  | nil => exact hs
  | cons op ops ih =>
    obtain ⟨hop, hops⟩ := Bool.and_eq_true_iff.mp hok
    exact ih (hstep s op hop hs) hops

/-- A run of steps that may fail, each of which does what `step` does if it does not fail: the run
goes through just when every step meets the condition under which it succeeds. -/
theorem foldlM_isSome_iff_along {I : σ → Prop} {step? : σ → α → Option σ}
    (hok : ∀ s op, I s → ((step? s op).isSome = true ↔ ok s op = true))
    (hstep : ∀ s op s', I s → step? s op = some s' → s' = step s op ∧ I s') (hs : I s) :
    (ops.foldlM step? s).isSome = true ↔ along step ok s ops = true := by
  induction ops generalizing s with
  | nil => simp [along]
  | cons op ops ih =>
    rw [List.foldlM_cons, along, Bool.and_eq_true_iff, ← hok s op hs]
    cases h : step? s op with
    | none => simp
    | some s' =>
      obtain ⟨rfl, hs'⟩ := hstep s op s' hs h
      simpa using ih hs'

end Metcalfe.Steps
