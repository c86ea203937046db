import Metcalfe.Network.Clock
import Metcalfe.Network.History

/-!
# Stepping composes

Stepping to one time and then to a later one is stepping to the later one. A handler is here a
function of its message and of the state of the network, so it is the same function in all calls,
repeated as often as it is needed; it does not see the history, which is not part of that state.

The two ways of stepping differ in one move of the clock in the middle. `step_one` sets the clock
before it calls the handler, so nothing that comes later depends on it: two networks that differ
in the clock and the history only take the same steps (`stepDue_alike`).
-/

namespace Metcalfe.Network

open Outcome

variable {P : Type} [LinearOrder P]

/-- A handler that is a function of the network state. -/
abbrev Pure (P : Type) [LinearOrder P] :=
  Msg P → Queue P → (P → FlatMap P LinkType) → Int → List (Op P)

def Pure.handler (f : Pure P) : Handler P := fun m net => f m net.queue net.links net.now

/-- The same queue and links after the same invocations. -/
structure Alike (net net' : Net P) : Prop where
  queue : net'.queue = net.queue
  links : net'.links = net.links
  invocations : ∀ epoch, invocations epoch net'.history = invocations epoch net.history

/-- The same state after the same invocations. -/
structure Same (net net' : Net P) : Prop extends Alike net net' where
  now : net'.now = net.now

namespace Alike

variable {net net' net'' : Net P}

theorem refl (net : Net P) : Alike net net := ⟨rfl, rfl, fun _ => rfl⟩

theorem symm (h : Alike net net') : Alike net' net :=
  ⟨h.queue.symm, h.links.symm, fun epoch => (h.invocations epoch).symm⟩

theorem trans (h : Alike net net') (h' : Alike net' net'') : Alike net net'' :=
  ⟨h'.queue.trans h.queue, h'.links.trans h.links,
    fun epoch => (h'.invocations epoch).trans (h.invocations epoch)⟩

end Alike

namespace Same

variable {net net' : Net P}

theorem refl (net : Net P) : Same net net := ⟨.refl net, rfl⟩

theorem eq (h : Same net net') : net' = { net with history := net'.history } := by
  cases net
  cases net'
  have hq := h.queue
  have hl := h.links
  have hn := h.now
  simp_all

/-- The same event is recorded on both sides. -/
theorem snoc (h : Same net net') {e : Event P} (he : ∀ m, e ≠ .invoked m) (epoch : Int) :
    invocations epoch (net'.history ++ [e]) = invocations epoch (net.history ++ [e]) := by
  rw [invocations_snoc he, invocations_snoc he, h.invocations]

theorem connect (h : Same net net') (a b : P) (d : Int) :
    Rel (fun r r' => r'.1 = r.1 ∧ Same r.2 r'.2) (net.connect a b d) (net'.connect a b d) := by
  rw [h.eq]
  unfold Net.connect
  dsimp only
  split
  · exact ⟨rfl, ⟨rfl, rfl, h.invocations⟩, rfl⟩
  · split
    · exact ⟨rfl, ⟨rfl, rfl, h.invocations⟩, rfl⟩
    · split
      · rfl
      · exact ⟨rfl, ⟨rfl, rfl, h.snoc (by simp)⟩, rfl⟩

theorem disconnect (h : Same net net') (a b : P) :
    Rel (fun r r' => r'.1 = r.1 ∧ Same r.2 r'.2) (net.disconnect a b) (net'.disconnect a b) := by
  rw [h.eq]
  unfold Net.disconnect
  dsimp only
  split
  · exact ⟨rfl, ⟨rfl, rfl, h.invocations⟩, rfl⟩
  · split
    · rfl
    · cases net.queue.remove a b with
      | none => rfl
      | some q => exact ⟨rfl, ⟨rfl, rfl, h.snoc (by simp)⟩, rfl⟩

theorem erase (h : Same net net') (m : Msg P) : Rel Same (net.erase m) (net'.erase m) := by
  rw [h.eq]
  unfold Net.erase
  cases net.queue.erase m with
  | none => rfl
  | some q => exact ⟨⟨rfl, rfl, h.invocations⟩, rfl⟩

theorem apply (h : Same net net') (op : Op P) : Rel Same (net.apply op) (net'.apply op) := by
  cases op with
  | connect a b d => exact (h.connect a b d).bind fun _ _ hr => hr.2
  | disconnect a b => exact (h.disconnect a b).bind fun _ _ hr => hr.2
  | send a b =>
    rw [h.eq]
    simp only [Net.apply, Net.send]
    cases (net.links a).find? b with
    | none => rfl
    | some l => exact ⟨⟨rfl, rfl, h.snoc (by simp)⟩, rfl⟩
  | timerAt w =>
    rw [h.eq]
    exact ⟨⟨rfl, rfl, h.snoc (by simp)⟩, rfl⟩
  | timerAfter d =>
    rw [h.eq]
    exact ⟨⟨rfl, rfl, h.snoc (by simp)⟩, rfl⟩
  | cancel m =>
    exact (h.erase m).bind fun _ _ hn => ⟨⟨hn.queue, hn.links, hn.snoc (by simp)⟩, hn.now⟩

end Same

/-! ## Deliveries -/

variable {net net' : Net P} (f : Pure P)

theorem stepOne_alike (h : Alike net net') :
    Rel (fun r r' => r'.1 = r.1 ∧ Alike r.2 r'.2) (Net.stepOne anything f.handler net)
      (Net.stepOne anything f.handler net') := by
  unfold Net.stepOne
  rw [h.queue]
  cases net.queue.byWhen with
  | nil => exact ⟨rfl, h⟩
  | cons m rest =>
    -- the clock is set on both sides before the handler runs
    have hstart : Same ((net.setClock m.when_).record (.invoked m))
        ((net'.setClock m.when_).record (.invoked m)) := by
      refine ⟨⟨h.queue, h.links, fun epoch => ?_⟩, rfl⟩
      simp only [Net.record, Net.setClock]
      rw [invocations_delivery, invocations_delivery, h.invocations]
    have hops : f.handler m ((net'.setClock m.when_).record (.invoked m)) =
        f.handler m ((net.setClock m.when_).record (.invoked m)) := by
      rw [hstart.eq]
      rfl
    dsimp only
    rw [hops]
    refine (rel_foldlM (fun n n' op hn => hn.apply op) _ hstart).bind fun n n' hn => ?_
    exact (hn.erase m).bind fun _ _ hs => ⟨rfl, hs.toAlike⟩

theorem stepDue_alike (h : Alike net net') (until_ : Int) (n : Nat) :
    Rel Alike (Net.stepDue anything until_ (List.replicate n f.handler) net)
      (Net.stepDue anything until_ (List.replicate n f.handler) net') := by
  induction n generalizing net net' with
  | zero => rfl
  | succ n ih =>
    rw [List.replicate_succ]
    refine (stepOne_alike f h).bind fun r r' hr => ?_
    dsimp only
    rw [hr.2.queue]
    split
    · exact hr.2
    · split
      · exact ih hr.2
      · exact hr.2

/-! ## Delivering everything that is due -/

/-- The first entry of the queue is due at the given time. -/
def Net.due (until_ : Int) (net : Net P) : Bool :=
  match net.queue.byWhen with
  | [] => false
  | m :: _ => decide (m.when_ ≤ until_)

theorem Net.due_mono {t₁ t₂ : Int} (ht : t₁ ≤ t₂) (h : net.due t₁ = true) : net.due t₂ = true := by
  unfold due at h ⊢
  split at h
  · exact h
  · rename_i m rest hq
    simp only [decide_eq_true_eq] at h ⊢
    exact h.trans ht

theorem Alike.due (h : Alike net net') (t : Int) : net'.due t = net.due t := by
  unfold Net.due
  rw [h.queue]

theorem Net.stepDue_cons (pol : Policy P) (until_ : Int) (handler : Handler P)
    (handlers : List (Handler P)) (net : Net P) :
    Net.stepDue pol until_ (handler :: handlers) net = (do
      let r ← Net.stepOne pol handler net
      if r.2.due until_ then Net.stepDue pol until_ handlers r.2 else pure r.2) := by
  rw [Net.stepDue]
  congr 1
  funext r
  cases hq : r.2.queue.byWhen with
  | nil => simp [due, hq]
  | cons m rest => simp [due, hq]

theorem Net.stepUntil_eq (pol : Policy P) (until_ : Int) (handlers : List (Handler P))
    (net : Net P) :
    Net.stepUntil pol until_ handlers net =
      (if net.due until_ then Net.stepDue pol until_ handlers net else pure net) >>=
        fun n => pure (decide (n.queue.byWhen ≠ []), n.setClock until_) := by
  unfold Net.stepUntil due
  cases hq : net.queue.byWhen with
  | nil => simp [hq, pure, Except.pure, bind, Except.bind]
  | cons m rest =>
    by_cases hm : m.when_ ≤ until_
    · simp only [hm, not_lt.mpr hm, decide_true, if_true, if_false]
      rfl
    · simp [hm, not_le.mp hm, hq, pure, Except.pure, bind, Except.bind]

/-- The deliveries of a call of `step_until` lead from `net` to `net'`. -/
def Delivers (until_ : Int) (net net' : Net P) : Prop :=
  ∃ n, (if net.due until_ then Net.stepDue anything until_ (List.replicate n f.handler) net
    else pure net) = .ok net'

theorem delivers_of_due {t : Int} (hdue : net.due t = true) :
    Delivers f t net net' ↔
      ∃ n, Net.stepDue anything t (List.replicate n f.handler) net = .ok net' := by
  simp [Delivers, hdue]

theorem delivers_of_not_due {t : Int} (hdue : net.due t = false) :
    Delivers f t net net' ↔ net' = net := by
  simp [Delivers, hdue, pure, Except.pure, eq_comm]

/-- The first delivery, and then the others. -/
theorem delivers_iff {t : Int} (hdue : net.due t = true) :
    Delivers f t net net' ↔
      ∃ r, Net.stepOne anything f.handler net = .ok r ∧ Delivers f t r.2 net' := by
  rw [delivers_of_due f hdue]
  constructor
  · rintro ⟨n, hn⟩
    cases n with
    | zero => cases hn
    | succ n =>
      rw [List.replicate_succ, Net.stepDue_cons] at hn
      cases hone : Net.stepOne anything f.handler net with
      | error e =>
        rw [hone] at hn
        cases hn
      | ok r =>
        rw [hone] at hn
        exact ⟨r, rfl, n, hn⟩
  · rintro ⟨r, hone, n, hn⟩
    refine ⟨n + 1, ?_⟩
    rw [List.replicate_succ, Net.stepDue_cons, hone]
    exact hn

theorem Alike.delivers (h : Alike net net') {t : Int} {net₁ : Net P}
    (hd : Delivers f t net net₁) : ∃ net₁', Delivers f t net' net₁' ∧ Alike net₁ net₁' := by
  cases hdue : net.due t with
  | false =>
    rw [(delivers_of_not_due f hdue).mp hd]
    exact ⟨net', (delivers_of_not_due f ((h.due t).trans hdue)).mpr rfl, h⟩
  | true =>
    obtain ⟨n, hn⟩ := (delivers_of_due f hdue).mp hd
    obtain ⟨net₁', hn', halike⟩ := (stepDue_alike f h t n).of_ok hn
    exact ⟨net₁', (delivers_of_due f ((h.due t).trans hdue)).mpr ⟨n, hn'⟩, halike⟩

/-- The deliveries up to a time are those up to an earlier time and the rest. -/
theorem delivers_comp {t₁ t₂ : Int} (ht : t₁ ≤ t₂) :
    Delivers f t₂ net net' ↔ ∃ net₁, Delivers f t₁ net net₁ ∧ Delivers f t₂ net₁ net' := by
  constructor
  · rintro ⟨n, hn⟩
    -- by induction on the handlers given to the long call
    induction n generalizing net with
    | zero =>
      refine ⟨net, ?_, 0, hn⟩
      cases hdue : net.due t₁ with
      | false => exact (delivers_of_not_due f hdue).mpr rfl
      | true =>
        rw [if_pos (Net.due_mono ht hdue)] at hn
        cases hn
    | succ n ih =>
      cases hdue : net.due t₁ with
      | false => exact ⟨net, (delivers_of_not_due f hdue).mpr rfl, n + 1, hn⟩
      | true =>
        rw [if_pos (Net.due_mono ht hdue), List.replicate_succ, Net.stepDue_cons] at hn
        cases hone : Net.stepOne anything f.handler net with
        | error e =>
          rw [hone] at hn
          cases hn
        | ok r =>
          rw [hone] at hn
          obtain ⟨net₁, h₁, h₂⟩ := ih hn
          exact ⟨net₁, (delivers_iff f hdue).mpr ⟨r, hone, h₁⟩, h₂⟩
  · rintro ⟨net₁, ⟨n, hn⟩, h₂⟩
    induction n generalizing net with
    | zero =>
      split at hn
      · cases hn
      · cases hn
        exact h₂
    | succ n ih =>
      cases hdue : net.due t₁ with
      | false =>
        rw [if_neg (by simp [hdue])] at hn
        cases hn
        exact h₂
      | true =>
        rw [if_pos hdue, List.replicate_succ, Net.stepDue_cons] at hn
        cases hone : Net.stepOne anything f.handler net with
        | error e =>
          rw [hone] at hn
          cases hn
        | ok r =>
          rw [hone] at hn
          exact (delivers_iff f (Net.due_mono ht hdue)).mpr ⟨r, hone, ih hn⟩

/-! ## Calls -/

/-- The call `step_until(until_)` returns `r` and leaves `net'`. -/
def UntilReturns (until_ : Int) (net : Net P) (r : Bool) (net' : Net P) : Prop :=
  ∃ n, Net.stepUntil anything until_ (List.replicate n f.handler) net = .ok (r, net')

/-- The call `step_for(amount)` returns `r` and leaves `net'`. -/
def ForReturns (amount : Int) (net : Net P) (r : Bool) (net' : Net P) : Prop :=
  ∃ n, Net.stepFor anything amount (List.replicate n f.handler) net = .ok (r, net')

/-- Two calls, one after the other, return exactly when the one call `whole` does, with the same
result, the same queue, links and clock, and the same invocations. -/
def Composes (first second whole : Net P → Bool → Net P → Prop) (net : Net P) : Prop :=
  (∀ r₁ net₁ r net₂, first net r₁ net₁ → second net₁ r net₂ →
    ∃ net', whole net r net' ∧ Same net₂ net') ∧
  ∀ r net', whole net r net' →
    ∃ r₁ net₁ net₂, first net r₁ net₁ ∧ second net₁ r net₂ ∧ Same net₂ net'

theorem untilReturns_iff {t : Int} {r : Bool} : UntilReturns f t net r net' ↔
    ∃ n, Delivers f t net n ∧ r = decide (n.queue.byWhen ≠ []) ∧ net' = n.setClock t := by
  unfold UntilReturns Delivers
  simp only [Net.stepUntil_eq]
  constructor
  · rintro ⟨k, hk⟩
    cases hs : (if net.due t then Net.stepDue anything t (List.replicate k f.handler) net
      else pure net) with
    | error e =>
      rw [hs] at hk
      cases hk
    | ok n =>
      rw [hs] at hk
      cases hk
      exact ⟨n, ⟨k, hs⟩, rfl, rfl⟩
  · rintro ⟨n, ⟨k, hk⟩, rfl, rfl⟩
    refine ⟨k, ?_⟩
    rw [hk]
    rfl

/-- A move of the clock is not seen by the deliveries that follow. -/
theorem alike_setClock (net : Net P) (t : Int) : Alike net (net.setClock t) :=
  ⟨rfl, rfl, fun epoch => invocations_snoc (by simp) epoch⟩

theorem Alike.setClock (h : Alike net net') (t : Int) : Same (net.setClock t) (net'.setClock t) :=
  ⟨(((alike_setClock net t).symm.trans h).trans (alike_setClock net' t)), rfl⟩

theorem until_composes {t₁ t₂ : Int} (ht : t₁ ≤ t₂) (net : Net P) :
    Composes (UntilReturns f t₁) (UntilReturns f t₂) (UntilReturns f t₂) net := by
  constructor
  · intro r₁ net₁ r net₂ h₁ h₂
    obtain ⟨n₁, hd₁, -, rfl⟩ := (untilReturns_iff f).mp h₁
    obtain ⟨n₂, hd₂, hr, rfl⟩ := (untilReturns_iff f).mp h₂
    -- the second call delivers the same from the state before the clock was set
    obtain ⟨n, hd, halike⟩ := (alike_setClock n₁ t₁).symm.delivers f hd₂
    refine ⟨n.setClock t₂, (untilReturns_iff f).mpr ⟨n, ?_, ?_, rfl⟩, halike.setClock t₂⟩
    · exact (delivers_comp f ht).mpr ⟨n₁, hd₁, hd⟩
    · rw [hr, halike.queue]
  · intro r net' h
    obtain ⟨n, hd, hr, rfl⟩ := (untilReturns_iff f).mp h
    obtain ⟨n₁, hd₁, hd₂⟩ := (delivers_comp f ht).mp hd
    obtain ⟨n₂, hd₂', halike⟩ := (alike_setClock n₁ t₁).delivers f hd₂
    refine ⟨_, _, n₂.setClock t₂, (untilReturns_iff f).mpr ⟨n₁, hd₁, rfl, rfl⟩,
      (untilReturns_iff f).mpr ⟨n₂, hd₂', ?_, rfl⟩, halike.symm.setClock t₂⟩
    rw [hr, halike.queue]

theorem UntilReturns.now_eq {t : Int} {r : Bool} (h : UntilReturns f t net r net') :
    net'.now = t := by
  obtain ⟨n, -, -, rfl⟩ := (untilReturns_iff f).mp h
  rfl

/-- Stepping composes. With handlers that are functions of the network state, `step_until(t₁)` and
then `step_until(t₂)` do what `step_until(t₂)` does, and `step_for(d₁)` and then `step_for(d₂)` do
what `step_for(d₁ + d₂)` does, when the times that they step to do not overflow. -/
theorem stepping_composes (net : Net P) :
    (∀ t₁ t₂, net.now ≤ t₁ → t₁ ≤ t₂ →
      Composes (UntilReturns f t₁) (UntilReturns f t₂) (UntilReturns f t₂) net) ∧
    ∀ d₁ d₂, 0 ≤ d₁ → 0 ≤ d₂ → Fits (net.now + d₁) → Fits (net.now + (d₁ + d₂)) →
      Composes (ForReturns f d₁) (ForReturns f d₂) (ForReturns f (d₁ + d₂)) net := by
  refine ⟨fun t₁ t₂ _ ht => until_composes f ht net, fun d₁ d₂ _ hd₂ hfits₁ hfits => ?_⟩
  have hle : plus net.now d₁ ≤ plus net.now (d₁ + d₂) := by
    rw [plus_of_fits hfits₁, plus_of_fits hfits]
    omega
  have hcomp := until_composes f hle net
  constructor
  · intro r₁ net₁ r net₂ h₁ h₂
    have h₂' : UntilReturns f (plus net₁.now d₂) net₁ r net₂ := h₂
    rw [UntilReturns.now_eq f h₁, plus_plus] at h₂'
    exact hcomp.1 r₁ net₁ r net₂ h₁ h₂'
  · intro r net' h
    obtain ⟨r₁, net₁, net₂, h₁, h₂, hsame⟩ := hcomp.2 r net' h
    refine ⟨r₁, net₁, net₂, h₁, ?_, hsame⟩
    change UntilReturns f (plus net₁.now d₂) net₁ r net₂
    rw [UntilReturns.now_eq f h₁, plus_plus]
    exact h₂

/-- A timer is due before a cut at `now + 1`. One step over the same time overflows and does not
serve it. -/
theorem not_composes_of_overflow :
    ∃ net : Net Nat, Net.run anything [.op (.timerAt (2 ^ 62))] (Net.new (2 ^ 62)) = .ok net ∧
      ¬ Composes (ForReturns (fun _ _ _ _ => []) 1) (ForReturns (fun _ _ _ _ => []) (2 ^ 62))
        (ForReturns (fun _ _ _ _ => []) (1 + 2 ^ 62)) net := by
  obtain ⟨net, net₁, net₂, hrun, h₁, h₂, hqueue, hnow⟩ : ∃ net net₁ net₂ : Net Nat,
      Net.run anything [.op (.timerAt (2 ^ 62))] (Net.new (2 ^ 62)) = .ok net ∧
      ForReturns (fun _ _ _ _ => []) 1 net false net₁ ∧
      ForReturns (fun _ _ _ _ => []) (2 ^ 62) net₁ false net₂ ∧
      net.queue.byWhen = [⟨0, none, none, 2 ^ 62⟩] ∧ net.now = 2 ^ 62 :=
    ⟨_, _, _, rfl, ⟨1, rfl⟩, ⟨0, rfl⟩, rfl, rfl⟩
  refine ⟨net, hrun, fun h => ?_⟩
  obtain ⟨net', ⟨n, hn⟩, -⟩ := h.1 _ _ _ _ h₁ h₂
  -- the timer is still there, and the call says so
  rw [Net.stepFor, hnow] at hn
  unfold Net.stepUntil at hn
  rw [hqueue] at hn
  cases hn

/-- A handler that sends a reply to the first two messages. -/
def replying : Pure Nat := fun m _ _ _ => if m.id < 2 then [.send 1 0] else []

/-- A message and two replies, with the cut between the first reply and the second. -/
theorem stepping_composes_reply :
    ∃ (net net₁ net₂ net' : Net Nat) (r₁ r : Bool),
      Net.run anything [.op (.connect 0 1 5), .op (.send 0 1)] (Net.new 0) = .ok net ∧
      UntilReturns replying 12 net r₁ net₁ ∧ UntilReturns replying 15 net₁ r net₂ ∧
      UntilReturns replying 15 net r net' ∧ Same net₂ net' := by
  obtain ⟨net, hrun, hnow⟩ : ∃ net : Net Nat, Net.run anything [.op (.connect 0 1 5),
      .op (.send 0 1)] (Net.new 0) = .ok net ∧ net.now = 0 := ⟨_, rfl, rfl⟩
  obtain ⟨net₁, net₂, h₁, h₂⟩ : ∃ net₁ net₂, UntilReturns replying 12 net true net₁ ∧
      UntilReturns replying 15 net₁ false net₂ := by
    cases hrun
    exact ⟨_, _, ⟨2, rfl⟩, ⟨1, rfl⟩⟩
  have hcomp := (stepping_composes replying net).1 12 15 (by omega) (by omega)
  obtain ⟨net', h, hsame⟩ := hcomp.1 _ _ _ _ h₁ h₂
  exact ⟨net, net₁, net₂, net', true, false, hrun, h₁, h₂, h, hsame⟩

end Metcalfe.Network
