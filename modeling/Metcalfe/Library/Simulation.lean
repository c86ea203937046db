import Mathlib.Data.List.Basic

/-!
# Simulation of one system by another

The steps of a system are silent or have an event. `Trace step s l s'` says that the system goes
from `s` to `s'` and the events on the way are `l`. When each step of a system is answered by
steps of another one with the same event, every trace of the first is a trace of the second
(`Trace.simulated`): whatever is known of the events of the second holds of those of the first.

`Trace.invariant` is the rule for what every step preserves.
-/

namespace Metcalfe.Simulation

variable {σ τ ε : Type}

inductive Trace (step : σ → Option ε → σ → Prop) : σ → List ε → σ → Prop
  | nil (s : σ) : Trace step s [] s
  | cons {s s' s'' : σ} {e : Option ε} {l : List ε} (h : step s e s') (ht : Trace step s' l s'') :
      Trace step s (e.toList ++ l) s''

section Traces

variable {step : σ → Option ε → σ → Prop} {s s' s'' : σ} {l l' : List ε}

theorem Trace.single {e : Option ε} (h : step s e s') : Trace step s e.toList s' := by
  rw [← List.append_nil e.toList]
  exact .cons h (.nil s')

theorem Trace.silent (h : step s none s') : Trace step s [] s' :=
  show Trace step s (none : Option ε).toList s' from .single h

theorem Trace.event {e : ε} (h : step s (some e) s') : Trace step s [e] s' :=
  show Trace step s (some e).toList s' from .single h

theorem Trace.append (h : Trace step s l s') (h' : Trace step s' l' s'') :
    Trace step s (l ++ l') s'' := by
  induction h with
  | nil => exact h'
  | cons hstep _ ih =>
    rw [List.append_assoc]
    exact .cons hstep (ih h')

/-- A trace passes through a state between its events. -/
theorem Trace.split (h : Trace step s (l ++ l') s'') :
    ∃ s', Trace step s l s' ∧ Trace step s' l' s'' := by
  generalize hl : l ++ l' = m at h
  induction h generalizing l with
  | nil s =>
    obtain ⟨rfl, rfl⟩ := List.append_eq_nil_iff.mp hl
    exact ⟨s, .nil s, .nil s⟩
  | @cons s₁ s₂ s₃ e m' hstep ht ih =>
    cases e with
    | none =>
      obtain ⟨s', h₁, h₂⟩ := ih hl
      exact ⟨s', (Trace.silent hstep).append h₁, h₂⟩
    | some e =>
      cases l with
      | nil =>
        obtain rfl : l' = e :: m' := hl
        exact ⟨s₁, .nil s₁, .cons hstep ht⟩
      | cons e' l =>
        obtain ⟨rfl, hl'⟩ := List.cons.inj hl
        obtain ⟨s', h₁, h₂⟩ := ih hl'
        exact ⟨s', .cons hstep h₁, h₂⟩

/-- The step of the first event. -/
theorem Trace.first {e : ε} (h : Trace step s (e :: l) s'') :
    ∃ a b, Trace step s [] a ∧ step a (some e) b ∧ Trace step b l s'' := by
  generalize hl : e :: l = m at h
  induction h with
  | nil => cases hl
  | @cons s₁ s₂ s₃ e' m' hstep ht ih =>
    cases e' with
    | none =>
      obtain ⟨a, b, h₁, h₂, h₃⟩ := ih hl
      exact ⟨a, b, (Trace.silent hstep).append h₁, h₂, h₃⟩
    | some e' =>
      obtain ⟨rfl, rfl⟩ := List.cons.inj hl
      exact ⟨s₁, s₂, .nil s₁, hstep, ht⟩

theorem Trace.invariant {I : σ → Prop} (h : Trace step s l s')
    (hstep : ∀ s e s', I s → step s e s' → I s') (hs : I s) : I s' := by
  induction h with
  | nil => exact hs
  | cons hs' _ ih => exact ih (hstep _ _ _ hs hs')

/-- An invariant that the events are part of. -/
theorem Trace.history {I : List ε → σ → Prop} (h : Trace step s l s')
    (hstep : ∀ l s e s', I l s → step s e s' → I (l ++ e.toList) s') {l₀ : List ε} (hs : I l₀ s) :
    I (l₀ ++ l) s' := by
  induction h generalizing l₀ with
  | nil => rwa [List.append_nil]
  | cons hs' _ ih =>
    rw [← List.append_assoc]
    exact ih (hstep _ _ _ _ hs hs')

end Traces

/-- Every step of the first system is answered by the second, which stays related to it. -/
def Simulates (step : σ → Option ε → σ → Prop) (step' : τ → Option ε → τ → Prop)
    (R : σ → τ → Prop) : Prop :=
  ∀ s e s' t, R s t → step s e s' → ∃ t', R s' t' ∧ Trace step' t e.toList t'

theorem Trace.simulated {step : σ → Option ε → σ → Prop} {step' : τ → Option ε → τ → Prop}
    {R : σ → τ → Prop} (hR : Simulates step step' R) {s s' : σ} {l : List ε}
    (h : Trace step s l s') {t : τ} (ht : R s t) : ∃ t', R s' t' ∧ Trace step' t l t' := by
  induction h generalizing t with
  | nil => exact ⟨t, ht, .nil t⟩
  | cons hstep _ ih =>
    obtain ⟨t', ht', htrace⟩ := hR _ _ _ _ ht hstep
    obtain ⟨t'', ht'', htrace'⟩ := ih ht'
    exact ⟨t'', ht'', htrace.append htrace'⟩

end Metcalfe.Simulation
