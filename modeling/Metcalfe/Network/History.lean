import Metcalfe.Network.Effects

/-!
# Reading the history

The record of a run is a list of events, oldest first. The three notions below are read off
it: a link is up at a moment when it was made before and not broken since, a message is
dropped when its link is broken while it is pending, and a link has lasted since a message
was sent when it was up at every moment from then on. Each comes with its equation for one
more event. `invocations` are the calls of handlers, each with the time at which it happened.
-/

namespace Metcalfe.Network

variable {P : Type}

namespace Event

/-- The event makes a link between the two peers. -/
def Joins (a b : P) : Event P → Prop
  | .connected x y => x = a ∧ y = b ∨ x = b ∧ y = a
  | _ => False

/-- The event breaks the link between the two peers. -/
def Breaks (a b : P) : Event P → Prop
  | .disconnected x y => x = a ∧ y = b ∨ x = b ∧ y = a
  | _ => False

theorem Joins.not_breaks {a b : P} {e : Event P} (h : e.Joins a b) : ¬ e.Breaks a b := by
  cases e <;> simp_all [Joins, Breaks]

end Event

/-- The link between the two peers was made and has not been broken since. -/
def LinkUp (h : List (Event P)) (a b : P) : Prop :=
  ∃ u e v, h = u ++ e :: v ∧ e.Joins a b ∧ ∀ e' ∈ v, ¬ e'.Breaks a b

/-- The link was up at every moment since the message was sent. -/
def Lasting (h : List (Event P)) (m : Msg P) (a b : P) : Prop :=
  ∀ x y, h = x ++ y → .sent m ∈ x → LinkUp x a b

/-- The link between the two peers was broken when the message had been sent and not yet
delivered. -/
def Dropped (h : List (Event P)) (m : Msg P) (a b : P) : Prop :=
  ∃ u e v, h = u ++ e :: v ∧ e.Breaks a b ∧ .sent m ∈ u ∧ .invoked m ∉ u

/-- Splitting a list with one more element at its end. -/
theorem snoc_split {α : Type} {h x y : List α} {e : α} (heq : h ++ [e] = x ++ y) :
    y = [] ∧ x = h ++ [e] ∨ ∃ y', y = y' ++ [e] ∧ h = x ++ y' := by
  rcases List.eq_nil_or_concat y with rfl | ⟨y', e', rfl⟩
  · exact Or.inl ⟨rfl, by simpa using heq.symm⟩
  · rw [List.concat_eq_append, ← List.append_assoc] at heq
    obtain ⟨h₁, h₂⟩ := List.append_inj' heq rfl
    cases h₂
    exact Or.inr ⟨y', by simp, h₁⟩

/-- A place in a list with one more element at its end is that element or a place before it. -/
theorem exists_split_snoc {α : Type} {h : List α} {e : α} {p : List α → α → List α → Prop} :
    (∃ u x v, h ++ [e] = u ++ x :: v ∧ p u x v) ↔
      p h e [] ∨ ∃ u x v, h = u ++ x :: v ∧ p u x (v ++ [e]) := by
  constructor
  · rintro ⟨u, x, v, heq, hp⟩
    rcases snoc_split heq with ⟨hnil, -⟩ | ⟨y, hy, rfl⟩
    · cases hnil
    · cases y with
      | nil =>
        cases hy
        exact Or.inl (by simpa using hp)
      | cons x' v' =>
        cases hy
        exact Or.inr ⟨u, x, v', rfl, hp⟩
  · rintro (hp | ⟨u, x, v, rfl, hp⟩)
    · exact ⟨h, e, [], rfl, hp⟩
    · exact ⟨u, x, v ++ [e], by simp, hp⟩

theorem linkUp_snoc {h : List (Event P)} {e : Event P} {a b : P} :
    LinkUp (h ++ [e]) a b ↔ e.Joins a b ∨ LinkUp h a b ∧ ¬ e.Breaks a b := by
  unfold LinkUp
  rw [exists_split_snoc]
  refine or_congr (by simp) ⟨?_, ?_⟩
  · rintro ⟨u, e₀, v, heq, hj, hv⟩
    exact ⟨⟨u, e₀, v, heq, hj, fun x hx => hv x (by simp [hx])⟩, hv e (by simp)⟩
  · rintro ⟨⟨u, e₀, v, heq, hj, hv⟩, hb⟩
    refine ⟨u, e₀, v, heq, hj, fun x hx => ?_⟩
    rcases List.mem_append.mp hx with hx | hx
    · exact hv x hx
    · rw [List.mem_singleton.mp hx]
      exact hb

theorem dropped_snoc {h : List (Event P)} {e : Event P} {m : Msg P} {a b : P} :
    Dropped (h ++ [e]) m a b ↔
      Dropped h m a b ∨ e.Breaks a b ∧ .sent m ∈ h ∧ .invoked m ∉ h := by
  unfold Dropped
  rw [exists_split_snoc, or_comm]

theorem Lasting.snoc {h : List (Event P)} {e : Event P} {m : Msg P} {a b : P}
    (hl : Lasting h m a b) (hup : LinkUp (h ++ [e]) a b) : Lasting (h ++ [e]) m a b := by
  intro x y heq hx
  rcases snoc_split heq with ⟨-, rfl⟩ | ⟨y', -, rfl⟩
  · exact hup
  · exact hl x y' rfl hx

theorem lasting_sent {h : List (Event P)} {m : Msg P} {a b : P} (hm : .sent m ∉ h)
    (hup : LinkUp (h ++ [.sent m]) a b) : Lasting (h ++ [.sent m]) m a b := by
  intro x y heq hx
  rcases snoc_split heq with ⟨-, rfl⟩ | ⟨y', -, rfl⟩
  · exact hup
  · exact absurd (List.mem_append_left _ hx) hm

theorem Dropped.sent_mem {h : List (Event P)} {m : Msg P} {a b : P} (hd : Dropped h m a b) :
    .sent m ∈ h := by
  obtain ⟨u, e, v, rfl, -, hs, -⟩ := hd
  exact List.mem_append_left _ hs

theorem linkUp_symm {h : List (Event P)} {a b : P} (hup : LinkUp h a b) : LinkUp h b a := by
  obtain ⟨u, e, v, rfl, hj, hv⟩ := hup
  refine ⟨u, e, v, rfl, ?_, fun e' he' hb => hv e' he' ?_⟩
  · cases e <;> simp_all [Event.Joins]
    tauto
  · cases e' <;> simp_all [Event.Breaks]
    tauto

/-! ## Calls of handlers -/

/-- One event seen by an observer who knows the time and writes down the invocations. -/
def observe (seen : Int × List (Msg P × Int)) : Event P → Int × List (Msg P × Int)
  | .clockSet _ time => (time, seen.2)
  | .invoked m => (seen.1, seen.2 ++ [(m, seen.1)])
  | _ => seen

/-- The invocations of a history that began at `epoch`, each with the value of `now()` inside. -/
def invocations (epoch : Int) (h : List (Event P)) : List (Msg P × Int) :=
  (h.foldl observe (epoch, [])).2

theorem invocations_snoc {h : List (Event P)} {e : Event P} (he : ∀ m, e ≠ .invoked m)
    (epoch : Int) : invocations epoch (h ++ [e]) = invocations epoch h := by
  unfold invocations
  rw [List.foldl_append]
  cases e with
  | invoked m => exact absurd rfl (he m)
  | _ => rfl

theorem invocations_delivery {h : List (Event P)} {t t' : Int} {m : Msg P} (epoch : Int) :
    invocations epoch (h ++ [.clockSet t t'] ++ [.invoked m]) =
      invocations epoch h ++ [(m, t')] := by
  simp [invocations, List.foldl_append, observe]

theorem mem_invocations {h : List (Event P)} {m : Msg P} (epoch : Int) :
    m ∈ (invocations epoch h).map Prod.fst ↔ .invoked m ∈ h := by
  induction h using List.reverseRecOn with
  | nil => simp [invocations]
  | append_singleton h e ih =>
    by_cases he : ∃ x, e = .invoked x
    · obtain ⟨x, rfl⟩ := he
      have hlast : invocations epoch (h ++ [.invoked x]) =
          invocations epoch h ++ [(x, (h.foldl observe (epoch, [])).1)] := by
        simp [invocations, List.foldl_append, observe]
      rw [hlast, List.map_append, List.mem_append, ih]
      simp
    · push Not at he
      rw [invocations_snoc he, ih]
      simp [(he m).symm]

end Metcalfe.Network
