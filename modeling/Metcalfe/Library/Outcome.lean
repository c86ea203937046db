import Mathlib.Tactic

/-!
# Postconditions of computations that may fail

`Ends x Q E` says that `x` meets `Q` when it returns and `E` when it fails. The two sides
are proved together, by the rules below: one for each way a computation is put together
(`pure`, `throw`, `>>=`, a fold over a list). `Rel R x y` compares two computations, by the
same rules: both return, with values related by `R`, or both fail alike.
-/

namespace Metcalfe.Outcome

variable {ε α β σ : Type}

/-- `Q` holds of the value returned, or `E` of the failure. -/
def Ends (x : Except ε α) (Q : α → Prop) (E : ε → Prop) : Prop :=
  match x with
  | .ok a => Q a
  | .error e => E e

@[simp]
theorem ends_ok {Q : α → Prop} {E : ε → Prop} {a : α} : Ends (.ok a) Q E ↔ Q a := Iff.rfl

@[simp]
theorem ends_error {Q : α → Prop} {E : ε → Prop} {e : ε} : Ends (.error e) Q E ↔ E e := Iff.rfl

theorem Ends.of_ok {x : Except ε α} {Q : α → Prop} {E : ε → Prop} {a : α}
    (h : Ends x Q E) (hx : x = .ok a) : Q a := by
  subst hx
  exact h

theorem Ends.of_error {x : Except ε α} {Q : α → Prop} {E : ε → Prop} {e : ε}
    (h : Ends x Q E) (hx : x = .error e) : E e := by
  subst hx
  exact h

theorem Ends.mono {x : Except ε α} {Q Q' : α → Prop} {E E' : ε → Prop} (h : Ends x Q E)
    (hQ : ∀ a, Q a → Q' a) (hE : ∀ e, E e → E' e) : Ends x Q' E' := by
  cases x with
  | ok a => exact hQ a h
  | error e => exact hE e h

theorem Ends.bind {x : Except ε α} {f : α → Except ε β} {R : α → Prop} {Q : β → Prop}
    {E : ε → Prop} (hx : Ends x R E) (hf : ∀ a, R a → Ends (f a) Q E) :
    Ends (x >>= f) Q E := by
  cases x with
  | ok a => exact hf a hx
  | error e => exact hx

/-- A sequence that returns is two computations that return. -/
theorem bind_eq_ok {x : Except ε α} {f : α → Except ε β} {b : β} :
    x >>= f = .ok b ↔ ∃ a, x = .ok a ∧ f a = .ok b := by
  constructor
  · intro h
    cases x with
    | ok a => exact ⟨a, rfl, h⟩
    | error e => cases h
  · rintro ⟨a, rfl, h⟩
    exact h

/-- The invariant rule of a fold: what each round keeps, the fold keeps. -/
theorem ends_foldlM {f : σ → α → Except ε σ} {I : σ → Prop} {E : ε → Prop} (l : List α)
    (hf : ∀ a ∈ l, ∀ s, I s → Ends (f s a) I E) {s : σ} (hs : I s) :
    Ends (l.foldlM f s) I E := by
  induction l generalizing s with
  | nil => exact hs
  | cons a l ih =>
    rw [List.foldlM_cons]
    refine (hf a List.mem_cons_self s hs).bind fun s' hs' => ?_
    exact ih (fun b hb => hf b (List.mem_cons_of_mem _ hb)) hs'

/-- A check of the value returned, for computations that are evaluated. -/
theorem exists_ok_of_any {x : Except ε α} {p : α → Bool} (h : x.toOption.any p = true) :
    ∃ a, x = .ok a ∧ p a = true := by
  cases x with
  | ok a => exact ⟨a, rfl, h⟩
  | error e => cases h

/-! ## Two computations -/

variable {α' β' σ' : Type}

def Rel (R : α → α' → Prop) (x : Except ε α) (y : Except ε α') : Prop :=
  match x, y with
  | .ok a, .ok b => R a b
  | .error e, .error e' => e = e'
  | _, _ => False

theorem Rel.of_ok {R : α → α' → Prop} {x : Except ε α} {y : Except ε α'} {a : α}
    (h : Rel R x y) (hx : x = .ok a) : ∃ b, y = .ok b ∧ R a b := by
  subst hx
  cases y with
  | ok b => exact ⟨b, rfl, h⟩
  | error e => exact h.elim

theorem Rel.bind {R : α → α' → Prop} {S : β → β' → Prop} {x : Except ε α} {y : Except ε α'}
    {f : α → Except ε β} {g : α' → Except ε β'} (h : Rel R x y)
    (hfg : ∀ a b, R a b → Rel S (f a) (g b)) : Rel S (x >>= f) (y >>= g) := by
  cases x with
  | ok a =>
    cases y with
    | ok b => exact hfg a b h
    | error e => exact h.elim
  | error e =>
    cases y with
    | ok b => exact h.elim
    | error e' => exact h

theorem rel_foldlM {f : σ → α → Except ε σ} {g : σ' → α → Except ε σ'} {R : σ → σ' → Prop}
    (hfg : ∀ s s' a, R s s' → Rel R (f s a) (g s' a)) (l : List α) {s : σ} {s' : σ'}
    (hs : R s s') : Rel R (l.foldlM f s) (l.foldlM g s') := by
  induction l generalizing s s' with
  | nil => exact hs
  | cons a l ih =>
    rw [List.foldlM_cons, List.foldlM_cons]
    exact (hfg s s' a hs).bind fun _ _ h => ih h

end Metcalfe.Outcome
