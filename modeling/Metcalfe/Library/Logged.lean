import Metcalfe.Library.Outcome

/-!
# Computations that report what they do

A `Logged` computation may fail, and keeps the reports it has made by then. `Logs x l Q E` says
that `x` reports `l`: all of it when it returns, and then `Q` holds of the value, or the first
part of it when it fails, and then `E` holds of the failure. The rules follow the ways a
computation is put together, as those of `Ends` do.
-/

namespace Metcalfe.Outcome

variable {τ ε α β : Type}

structure Logged (τ ε α : Type) where
  log : List τ
  result : Except ε α

namespace Logged

/-- A computation that reports nothing. -/
def lift (x : Except ε α) : Logged τ ε α := ⟨[], x⟩

def tell (t : τ) : Logged τ ε Unit := ⟨[t], .ok ()⟩

protected def bind (x : Logged τ ε α) (f : α → Logged τ ε β) : Logged τ ε β :=
  match x.result with
  | .ok a => ⟨x.log ++ (f a).log, (f a).result⟩
  | .error e => ⟨x.log, .error e⟩

instance : Monad (Logged τ ε) where
  pure a := lift (.ok a)
  bind := Logged.bind

instance : MonadLift (Except ε) (Logged τ ε) where
  monadLift := lift

@[simp]
theorem result_liftM (x : Except ε α) : (liftM x : Logged τ ε α).result = x := rfl

@[simp]
theorem result_tell (t : τ) : (tell t : Logged τ ε Unit).result = .ok () := rfl

@[simp]
theorem result_pure (a : α) : (pure a : Logged τ ε α).result = .ok a := rfl

@[simp]
theorem result_bind (x : Logged τ ε α) (f : α → Logged τ ε β) :
    (x >>= f).result = x.result >>= fun a => (f a).result := by
  show (Logged.bind x f).result = _
  unfold Logged.bind
  cases x.result with
  | ok a => rfl
  | error e => rfl

end Logged

open Logged

def Logs (x : Logged τ ε α) (l : List τ) (Q : α → Prop) (E : ε → Prop) : Prop :=
  x.log <+: l ∧ Ends x.result (fun a => x.log = l ∧ Q a) E

theorem Logs.mono {x : Logged τ ε α} {l : List τ} {Q Q' : α → Prop} {E E' : ε → Prop}
    (h : Logs x l Q E) (hQ : ∀ a, Q a → Q' a) (hE : ∀ e, E e → E' e) : Logs x l Q' E' :=
  ⟨h.1, h.2.mono (fun a ha => ⟨ha.1, hQ a ha.2⟩) hE⟩

theorem logs_lift {x : Except ε α} {Q : α → Prop} {E : ε → Prop} (h : Ends x Q E) :
    Logs (lift x : Logged τ ε α) [] Q E :=
  ⟨List.prefix_refl _, h.mono (fun _ ha => ⟨rfl, ha⟩) (fun _ he => he)⟩

theorem logs_tell (t : τ) (E : ε → Prop) : Logs (tell t) [t] (fun _ => True) E :=
  ⟨List.prefix_refl _, rfl, trivial⟩

theorem Logs.bind {x : Logged τ ε α} {f : α → Logged τ ε β} {l l' : List τ} {R : α → Prop}
    {Q : β → Prop} {E : ε → Prop} (hx : Logs x l R E) (hf : ∀ a, R a → Logs (f a) l' Q E) :
    Logs (x >>= f) (l ++ l') Q E := by
  obtain ⟨hpre, hends⟩ := hx
  show Logs (Logged.bind x f) _ _ _
  unfold Logged.bind
  cases hres : x.result with
  | ok a =>
    obtain ⟨hlog, ha⟩ := hends.of_ok hres
    obtain ⟨hpre', hends'⟩ := hf a ha
    rw [hlog]
    refine ⟨(List.prefix_append_right_inj l).mpr hpre', ?_⟩
    exact hends'.mono (fun b hb => ⟨congrArg (l ++ ·) hb.1, hb.2⟩) (fun _ he => he)
  | error e => exact ⟨hpre.trans (List.prefix_append _ _), hends.of_error hres⟩

end Metcalfe.Outcome
