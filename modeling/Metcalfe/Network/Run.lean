import Metcalfe.Library.Outcome
import Metcalfe.Network.Model

/-!
# Invariants of whole runs

An invariant of the network is a family `I`: `I none` holds between the calls of the owner
and `I (some m)` while the handler of `m` is running. `Preserved` lists the four things that
can happen to it (an operation, the start and the end of a delivery, a move of the clock by
`step_until`), and `Preserved.run` concludes for every sequence of calls.
-/

namespace Metcalfe.Network.Net

open Outcome

variable {P : Type} [LinearOrder P]

structure Preserved (pol : Policy P) (I : Option (Msg P) → Net P → Prop) (E : Stop → Prop) :
    Prop where
  op : ∀ running net op, I running net → pol.op net running op = true →
    Ends (net.apply op) (I running) E
  start : ∀ net m rest, I none net → net.queue.byWhen = m :: rest →
    I (some m) ((net.setClock m.when_).record (.invoked m))
  finish : ∀ net m, I (some m) net → Ends (net.erase m) (I none) E
  clock : ∀ net time, I none net → pol.until_ net time = true ∨ net.now ≤ time →
    (∀ m rest, net.queue.byWhen = m :: rest → time < m.when_) → I none (net.setClock time)
  excluded : E .excluded
  unfinished : E .unfinished

/-- No operation moves the clock. -/
theorem apply_now (net : Net P) (op : Op P) :
    Ends (net.apply op) (fun net' => net'.now = net.now) (fun _ => True) := by
  cases op with
  | connect a b d =>
    simp only [apply, connect]
    split_ifs <;> simp [record]
  | disconnect a b =>
    simp only [apply, disconnect]
    split_ifs
    · simp
    · simp
    · cases net.queue.remove a b <;> simp [record]
  | send a b =>
    simp only [apply, send]
    cases (net.links a).find? b <;> simp [record]
  | timerAt w => simp [apply, timerAt, record]
  | timerAfter d => simp [apply, timerAfter, timerAt, record]
  | cancel m =>
    simp only [apply, cancel, erase]
    cases net.queue.erase m <;> simp [record]

theorem erase_now (net : Net P) (m : Msg P) :
    Ends (net.erase m) (fun net' => net'.now = net.now) (fun _ => True) := by
  unfold erase
  cases net.queue.erase m <;> simp

theorem stepOne_now (pol : Policy P) (handler : Handler P) {net : Net P} {m : Msg P}
    {rest : List (Msg P)} (hq : net.queue.byWhen = m :: rest) :
    Ends (stepOne pol handler net) (fun r => r.2.now = m.when_) (fun _ => True) := by
  unfold stepOne
  rw [hq]
  refine (ends_foldlM (I := fun n => n.now = m.when_) _ ?_ rfl).bind ?_
  · intro op _ n hn
    unfold request
    split
    · exact (apply_now n op).mono (fun _ h => h.trans hn) fun _ _ => trivial
    · trivial
  · intro n hn
    exact ((erase_now n m).mono (fun _ h => h.trans hn) fun _ h => h).bind fun _ h => h

namespace Preserved

variable {pol : Policy P} {I : Option (Msg P) → Net P → Prop} {E : Stop → Prop}

theorem request (h : Preserved pol I E) {running : Option (Msg P)} {net : Net P} (op : Op P)
    (hI : I running net) : Ends (Net.request pol running net op) (I running) E := by
  unfold Net.request
  split
  · rename_i hp
    exact h.op running net op hI hp
  · exact h.excluded

theorem stepOne (h : Preserved pol I E) (handler : Handler P) {net : Net P} (hI : I none net) :
    Ends (Net.stepOne pol handler net) (fun r => I none r.2) E := by
  unfold Net.stepOne
  cases hq : net.queue.byWhen with
  | nil => exact hI
  | cons m rest =>
    refine (ends_foldlM _ (fun op _ n hn => h.request op hn) (h.start net m rest hI hq)).bind ?_
    intro n hn
    exact (h.finish n m hn).bind fun _ h' => h'

theorem stepAll (h : Preserved pol I E) (handlers : List (Handler P)) {net : Net P}
    (hI : I none net) : Ends (Net.stepAll pol handlers net) (I none) E := by
  induction handlers generalizing net with
  | nil =>
    unfold Net.stepAll
    split
    · exact hI
    · exact h.unfinished
  | cons handler handlers ih =>
    refine (h.stepOne handler hI).bind fun r hr => ?_
    split
    · exact ih hr
    · exact hr

theorem step (h : Preserved pol I E) {handlers : List (Handler P)} {net : Net P}
    (hI : I none net) : Ends (Net.step pol handlers net) (fun r => I none r.2) E := by
  unfold Net.step
  split
  · exact hI
  · exact (h.stepAll handlers hI).bind fun _ hr => hr

/-- The loop of `step_until` keeps the invariant, leaves the clock at a time that was due and
the queue with nothing that is due. -/
theorem stepDue (h : Preserved pol I E) {until_ : Int} (handlers : List (Handler P))
    {net : Net P} {m : Msg P} {rest : List (Msg P)} (hI : I none net)
    (hq : net.queue.byWhen = m :: rest) (hm : m.when_ ≤ until_) :
    Ends (Net.stepDue pol until_ handlers net)
      (fun n => I none n ∧ n.now ≤ until_ ∧
        ∀ m rest, n.queue.byWhen = m :: rest → until_ < m.when_) E := by
  induction handlers generalizing net m rest with
  | nil => exact h.unfinished
  | cons handler handlers ih =>
    have hone : Ends (Net.stepOne pol handler net) (fun r => I none r.2 ∧ r.2.now ≤ until_) E := by
      have hk := h.stepOne handler hI
      have hn := stepOne_now pol handler hq
      cases hs : Net.stepOne pol handler net with
      | ok r => exact ⟨hk.of_ok hs, (hn.of_ok hs).le.trans hm⟩
      | error e => exact hk.of_error hs
    refine hone.bind fun r hr => ?_
    dsimp only
    split
    · rename_i hq'
      exact ⟨hr.1, hr.2, by simp [hq']⟩
    · rename_i m' rest' hq'
      split
      · rename_i hm'
        exact ih hr.1 hq' hm'
      · rename_i hm'
        refine ⟨hr.1, hr.2, fun x xs hx => ?_⟩
        rw [hq'] at hx
        cases hx
        exact not_le.mp hm'

theorem stepUntil (h : Preserved pol I E) {until_ : Int} {handlers : List (Handler P)}
    {net : Net P} (hI : I none net) (hu : pol.until_ net until_ = true) :
    Ends (Net.stepUntil pol until_ handlers net) (fun r => I none r.2) E := by
  unfold Net.stepUntil
  cases hq : net.queue.byWhen with
  | nil => exact h.clock net until_ hI (Or.inl hu) (by simp [hq])
  | cons m rest =>
    dsimp only
    split
    · rename_i hm
      refine h.clock net until_ hI (Or.inl hu) fun x xs hx => ?_
      rw [hq] at hx
      cases hx
      exact hm
    · rename_i hm
      refine (h.stepDue handlers hI hq (not_lt.mp hm)).bind fun n hn => ?_
      exact h.clock n until_ hn.1 (Or.inr hn.2.1) hn.2.2

theorem call (h : Preserved pol I E) {net : Net P} (c : Call P) (hI : I none net) :
    Ends (Net.call pol net c) (I none) E := by
  cases c with
  | op op => exact h.request op hI
  | stepOne handler => exact (h.stepOne handler hI).bind fun _ hr => hr
  | step handlers => exact (h.step hI).bind fun _ hr => hr
  | stepUntil until_ handlers =>
    by_cases hu : pol.until_ net until_ = true
    · simp only [Net.call, hu, if_true]
      exact (h.stepUntil hI hu).bind fun _ hr => hr
    · simp only [Net.call, hu]
      exact h.excluded
  | stepFor amount handlers =>
    by_cases hu : pol.until_ net (plus net.now amount) = true
    · simp only [Net.call, hu, if_true]
      exact (h.stepUntil hI hu).bind fun _ hr => hr
    · simp only [Net.call, hu]
      exact h.excluded

/-- The run rule: what every step keeps holds after every sequence of calls. -/
theorem run (h : Preserved pol I E) (calls : List (Call P)) {net : Net P} (hI : I none net) :
    Ends (Net.run pol calls net) (I none) E :=
  ends_foldlM calls (fun c _ _ hn => h.call c hn) hI

end Preserved

end Metcalfe.Network.Net
