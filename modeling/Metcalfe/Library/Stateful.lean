import Metcalfe.Library.Outcome

/-!
# Computations that keep their state when they stop

A computation in `EStateM ε σ` that stops leaves the state in which it stopped. `Leads x s Q C`
says where `x` leads from the state `s`: to a value and a state with `Q` when it returns, and to
a state with `C` when it stops. With a state that survives, such as the files of a program that
is interrupted, `C` is what the next program finds.

The rules follow the ways a computation is put together, as those of `Ends` do for computations
without a state. `Follows` compares a computation with one that has no such state, by the same
rules.
-/

namespace Metcalfe.Stateful

open Outcome

variable {ε σ α β τ : Type} {s : σ}

def Leads (x : EStateM ε σ α) (s : σ) (Q : α → σ → Prop) (C : ε → σ → Prop) : Prop :=
  match x s with
  | .ok a s' => Q a s'
  | .error e s' => C e s'

variable {Q : α → σ → Prop} {C : ε → σ → Prop}

theorem leads_pure {a : α} (h : Q a s) : Leads (pure a : EStateM ε σ α) s Q C := h

theorem leads_throw {e : ε} (h : C e s) : Leads (throw e : EStateM ε σ α) s Q C := h

theorem Leads.of_ok {x : EStateM ε σ α} {a : α} {s' : σ} (h : Leads x s Q C)
    (hx : x s = .ok a s') : Q a s' := by
  unfold Leads at h
  rwa [hx] at h

theorem Leads.of_error {x : EStateM ε σ α} {e : ε} {s' : σ} (h : Leads x s Q C)
    (hx : x s = .error e s') : C e s' := by
  unfold Leads at h
  rwa [hx] at h

theorem Leads.mono {x : EStateM ε σ α} {Q' : α → σ → Prop} {C' : ε → σ → Prop}
    (h : Leads x s Q C) (hQ : ∀ a s', Q a s' → Q' a s') (hC : ∀ e s', C e s' → C' e s') :
    Leads x s Q' C' := by
  unfold Leads at h ⊢
  cases hx : x s with
  | ok a s' =>
    rw [hx] at h
    exact hQ a s' h
  | error e s' =>
    rw [hx] at h
    exact hC e s' h

theorem Leads.bind {x : EStateM ε σ α} {f : α → EStateM ε σ β} {R : α → σ → Prop}
    {Q : β → σ → Prop} (hx : Leads x s R C) (hf : ∀ a s', R a s' → Leads (f a) s' Q C) :
    Leads (x >>= f) s Q C := by
  unfold Leads at hx
  show Leads (EStateM.bind x f) s Q C
  unfold Leads EStateM.bind
  cases h : x s with
  | ok a s' =>
    rw [h] at hx
    exact hf a s' hx
  | error e s' =>
    rw [h] at hx
    exact hx

/-- A first step that is known. -/
theorem leads_bind_of_eq_ok {x : EStateM ε σ α} {f : α → EStateM ε σ β} {Q : β → σ → Prop} {a : α}
    {s' : σ} (hx : x s = .ok a s') (hf : Leads (f a) s' Q C) : Leads (x >>= f) s Q C := by
  show Leads (EStateM.bind x f) s Q C
  unfold Leads EStateM.bind
  rw [hx]
  exact hf

/-- A computation without a state, whose failures are stops. -/
def lift (stop : τ → ε) (x : Except τ α) : EStateM ε σ α := fun s =>
  match x with
  | .ok a => .ok a s
  | .error t => .error (stop t) s

@[simp]
theorem lift_ok_bind {stop : τ → ε} {a : α} {f : α → EStateM ε σ β} :
    (lift stop (.ok a) >>= f) = f a := rfl

theorem leads_lift {stop : τ → ε} {x : Except τ α} {R : α → Prop} {E : τ → Prop} (hx : Ends x R E)
    (hQ : ∀ a, R a → Q a s) (hC : ∀ t, E t → C (stop t) s) : Leads (lift stop x) s Q C := by
  cases x with
  | ok a => exact hQ a hx
  | error t => exact hC t hx

/-- The invariant rule of a fold, with the part of the list that is done. -/
theorem leads_foldlM {f : β → α → EStateM ε σ β} {l : List α} {I : List α → β → σ → Prop}
    {C : ε → σ → Prop}
    (hf : ∀ done a rest, l = done ++ a :: rest → ∀ b s, I done b s →
      Leads (f b a) s (I (done ++ [a])) C)
    {b : β} (hs : I [] b s) : Leads (l.foldlM f b) s (I l) C := by
  suffices h : ∀ rest done b s, l = done ++ rest → I done b s → Leads (rest.foldlM f b) s (I l) C
    from h l [] b s rfl hs
  intro rest
  induction rest with
  | nil =>
    intro done b s hl hI
    rw [List.append_nil] at hl
    subst hl
    exact hI
  | cons a rest ih =>
    intro done b s hl hI
    rw [List.foldlM_cons]
    refine (hf done a rest hl b s hI).bind fun b' s' hI' => ?_
    exact ih (done ++ [a]) b' s' (by rw [hl, List.append_assoc]; rfl) hI'

/-! ## Failures that are caught -/

/-- A failure that is caught becomes a value; the state is as the computation left it. -/
def attempt (caught : ε → Bool) (x : EStateM ε σ α) : EStateM ε σ (Except ε α) := fun s =>
  match x s with
  | .ok a s' => .ok (.ok a) s'
  | .error e s' => if caught e then .ok (.error e) s' else .error e s'

theorem leads_attempt {caught : ε → Bool} {x : EStateM ε σ α} {R : Except ε α → σ → Prop}
    (hx : Leads x s Q C) (hok : ∀ a s', Q a s' → R (.ok a) s')
    (herror : ∀ e s', C e s' → caught e = true → R (.error e) s') :
    Leads (attempt caught x) s R (fun e s' => C e s' ∧ caught e = false) := by
  unfold Leads attempt at *
  cases h : x s with
  | ok a s' =>
    rw [h] at hx
    exact hok a s' hx
  | error e s' =>
    rw [h] at hx
    dsimp only at hx ⊢
    cases hc : caught e with
    | true => exact herror e s' hx hc
    | false => exact ⟨hx, hc⟩

/-! ## Parts of the state that a computation leaves alone -/

/-- `x` does not change the part `f` of the state. -/
def Frames {φ : Type} (f : σ → φ) (x : EStateM ε σ α) : Prop :=
  ∀ s, Leads x s (fun _ s' => f s' = f s) (fun _ s' => f s' = f s)

variable {φ : Type} {f : σ → φ}

theorem frames_pure (a : α) : Frames f (pure a : EStateM ε σ α) := fun _ => leads_pure rfl

theorem frames_throw (e : ε) : Frames f (throw e : EStateM ε σ α) := fun _ => leads_throw rfl

theorem frames_lift (stop : τ → ε) (x : Except τ α) : Frames f (lift (σ := σ) stop x) := by
  intro s
  cases x <;> rfl

theorem Frames.bind {x : EStateM ε σ α} {g : α → EStateM ε σ β} (hx : Frames f x)
    (hg : ∀ a, Frames f (g a)) : Frames f (x >>= g) := fun s =>
  (hx s).bind fun a s' hs' =>
    (hg a s').mono (fun _ _ h => h.trans hs') fun _ _ h => h.trans hs'

theorem Frames.attempt {caught : ε → Bool} {x : EStateM ε σ α} (hx : Frames f x) :
    Frames f (attempt caught x) := fun s =>
  (leads_attempt (hx s) (fun _ _ h => h) fun _ _ h _ => h).mono (fun _ _ h => h) fun _ _ h => h.1

theorem frames_foldlM {x : β → α → EStateM ε σ β} (hx : ∀ b a, Frames f (x b a)) (l : List α)
    (b : β) : Frames f (l.foldlM x b) := by
  induction l generalizing b with
  | nil => exact frames_pure b
  | cons a l ih =>
    rw [List.foldlM_cons]
    exact (hx b a).bind ih

/-- What is left alone is known afterwards. -/
theorem Leads.and_frames {x : EStateM ε σ α} (h : Leads x s Q C) (hx : Frames f x) :
    Leads x s (fun a s' => Q a s' ∧ f s' = f s) (fun e s' => C e s' ∧ f s' = f s) := by
  have hf := hx s
  unfold Leads at *
  cases hs : x s with
  | ok a s' =>
    rw [hs] at h hf
    exact ⟨h, hf⟩
  | error e s' =>
    rw [hs] at h hf
    exact ⟨h, hf⟩

/-! ## Two models of one computation -/

/-- `x`, from the state `s`, ends as `y` does: with values that are related, or for the same
reason. -/
def Follows (stop : τ → ε) (x : EStateM ε σ α) (s : σ) (y : Except τ β) (R : α → σ → β → Prop) :
    Prop :=
  match y with
  | .ok b => Leads x s (fun a s' => R a s' b) fun _ _ => False
  | .error t => Leads x s (fun _ _ => False) fun e _ => e = stop t

section Follows

variable {γ : Type} {stop : τ → ε} {x : EStateM ε σ α} {y : Except τ β} {R : α → σ → β → Prop}

theorem follows_pure {a : α} {b : β} (h : R a s b) :
    Follows stop (pure a : EStateM ε σ α) s (pure b : Except τ β) R := h

theorem follows_throw (t : τ) :
    Follows stop (throw (stop t) : EStateM ε σ α) s (throw t : Except τ β) R :=
  (rfl : stop t = stop t)

theorem follows_lift (stop : τ → ε) (x : Except τ α) (s : σ) :
    Follows stop (lift stop x) s x fun a s' b => a = b ∧ s' = s := by
  cases x with
  | ok a => exact ⟨rfl, rfl⟩
  | error t => rfl

theorem Follows.bind {α' : Type} {f : α → EStateM ε σ α'} {g : β → Except τ γ}
    {R' : α' → σ → γ → Prop} (h : Follows stop x s y R)
    (hf : ∀ a s' b, R a s' b → Follows stop (f a) s' (g b) R') :
    Follows stop (x >>= f) s (y >>= g) R' := by
  cases y with
  | error t => exact Leads.bind h fun _ _ h => h.elim
  | ok b =>
    have hy : (Except.ok b : Except τ β) >>= g = g b := rfl
    rw [hy]
    cases hg : g b with
    | ok c =>
      refine (Leads.mono h (fun _ _ h => h) fun _ _ h => h.elim).bind fun a s' ha => ?_
      have hfa := hf a s' b ha
      rwa [hg] at hfa
    | error t =>
      refine (Leads.mono h (fun _ _ h => h) fun _ _ h => h.elim).bind fun a s' ha => ?_
      have hfa := hf a s' b ha
      rwa [hg] at hfa

/-- A step that only the first of the two takes. -/
theorem Follows.first {α' : Type} {f : α → EStateM ε σ α'} {Q : α → σ → Prop}
    {R' : α' → σ → β → Prop} (h : Leads x s Q fun _ _ => False)
    (hf : ∀ a s', Q a s' → Follows stop (f a) s' y R') : Follows stop (x >>= f) s y R' := by
  cases y with
  | ok b => exact (h.mono (fun _ _ h => h) fun _ _ h => h.elim).bind hf
  | error t => exact (h.mono (fun _ _ h => h) fun _ _ h => h.elim).bind hf

/-- What the one returns, the other returns as well. -/
theorem Follows.returns {b : β} (h : Follows stop x s y R) (hy : y = .ok b) :
    ∃ a s', x s = .ok a s' ∧ R a s' b := by
  subst hy
  unfold Follows Leads at h
  cases hx : x s with
  | ok a s' =>
    rw [hx] at h
    exact ⟨a, s', rfl, h⟩
  | error e s' =>
    rw [hx] at h
    exact h.elim

end Follows

end Metcalfe.Stateful
