import Metcalfe.Network.Effects

/-!
# Network time

The clock is set from the delivery time of the first entry of the queue and from the time
given to `step_until`. It never goes back when nothing is scheduled in the past (`timely`): the
time of a message, of a timer and of `step_until` is, as a count of 64 bits, not before the current
one. The current time and a delay that is not negative then have a sum that does not overflow.
Nothing in `BasicNetwork` checks any of this; a single `step_until` with an earlier time moves the
clock back (`clock_back_of_stepUntil`).
-/

namespace Metcalfe.Network

open Outcome

variable {P : Type} [LinearOrder P]

/-- Every operation with every argument. -/
def anything : Policy P := ⟨fun _ _ _ => true, fun _ _ => true⟩

/-- Nothing is scheduled before the current time. -/
def timely : Policy P where
  op net _ op :=
    match op with
    | .send a b => decide (∀ l ∈ net.link a b, net.now ≤ plus net.now l.delay)
    | .timerAt w => decide (net.now ≤ w)
    | .timerAfter d => decide (net.now ≤ plus net.now d)
    | _ => true
  until_ net time := decide (net.now ≤ time)

/-- The values the clock was set to, oldest first. -/
def clockTimes (h : List (Event P)) : List Int :=
  h.filterMap fun e =>
    match e with
    | .clockSet _ time => some time
    | _ => none

omit [LinearOrder P] in
theorem clockTimes_snoc_of_ne {h : List (Event P)} {e : Event P}
    (he : ∀ t t', e ≠ .clockSet t t') : clockTimes (h ++ [e]) = clockTimes h := by
  unfold clockTimes
  rw [List.filterMap_append]
  cases e <;> simp_all

omit [LinearOrder P] in
theorem clockTimes_snoc {h : List (Event P)} {t t' : Int} :
    clockTimes (h ++ [.clockSet t t']) = clockTimes h ++ [t'] := by
  simp [clockTimes]

/-- The past is behind the clock and everything pending is ahead of it. -/
structure OnTime (epoch : Int) (net : Net P) : Prop where
  indexed : net.queue.Indexed
  ahead : ∀ m ∈ net.queue.byWhen, net.now ≤ m.when_
  forward : ∀ t t', .clockSet t t' ∈ net.history → t ≤ t'
  rising : (epoch :: clockTimes net.history).Pairwise (· ≤ ·)
  behind : ∀ t ∈ epoch :: clockTimes net.history, t ≤ net.now
  last : (epoch :: clockTimes net.history).getLast? = some net.now

namespace OnTime

variable {epoch : Int} {net net' : Net P}

theorem new (epoch : Int) : OnTime epoch (Net.new epoch : Net P) := by
  constructor <;> simp [Net.new, Queue.new, clockTimes]
  exact Queue.indexed_new

/-- The queue changes and an event is recorded that is no move of the clock. -/
theorem quiet (h : OnTime epoch net) {e : Event P} (hidx : net'.queue.Indexed)
    (hnow : net'.now = net.now) (hh : net'.history = net.history ++ [e])
    (he : ∀ t t', e ≠ .clockSet t t') (hahead : ∀ m ∈ net'.queue.byWhen, net.now ≤ m.when_) :
    OnTime epoch net' := by
  have htimes : clockTimes net'.history = clockTimes net.history := by
    rw [hh, clockTimes_snoc_of_ne he]
  refine ⟨hidx, hnow ▸ hahead, fun t t' ht => h.forward t t' ?_, ?_, ?_, ?_⟩
  · rw [hh] at ht
    simpa [(he t t').symm] using ht
  · rw [htimes]
    exact h.rising
  · rw [htimes, hnow]
    exact h.behind
  · rw [htimes, hnow]
    exact h.last

theorem effect {running : Option (Msg P)} {op : Op P} (h : OnTime epoch net)
    (hp : timely.op net running op = true) (he : Net.Effect net op net') :
    OnTime epoch net' := by
  have hidx := he.indexed h.indexed
  cases he with
  | refused => exact h
  | connected hne hab hba hqueue hnow hhistory hlink =>
    exact h.quiet hidx hnow hhistory (by simp) fun m hm => h.ahead m (hqueue ▸ hm)
  | disconnected hne hab hba hindexed hbyWhen hnextId hnow hhistory hlink =>
    refine h.quiet hidx hnow hhistory (by simp) fun m hm => h.ahead m ?_
    rw [hbyWhen] at hm
    exact List.mem_of_mem_filter hm
  | sent hl =>
    simp only [timely, hl, Option.mem_def, Option.some.injEq, forall_eq', decide_eq_true_eq] at hp
    refine h.quiet hidx rfl rfl (by simp) fun m hm => ?_
    rcases Queue.mem_insertWhen.mp hm with rfl | hm
    · exact hp
    · exact h.ahead m hm
  | timerSet w hop =>
    refine h.quiet hidx rfl rfl (by simp) fun m hm => ?_
    rcases Queue.mem_insertWhen.mp hm with rfl | hm
    · rcases hop with rfl | ⟨d, rfl, rfl⟩
      · simpa [timely] using hp
      · simpa [timely] using hp
    · exact h.ahead m hm
  | cancelled hmem hindexed hbyWhen hnextId =>
    refine h.quiet hidx rfl rfl (by simp) fun m hm => h.ahead m ?_
    simp only [Net.record, hbyWhen] at hm
    exact List.mem_of_mem_erase hm

/-- The clock is set to a time between the current one and the first entry of the queue. -/
theorem setClock (h : OnTime epoch net) {time : Int} (hnow : net.now ≤ time)
    (hlate : ∀ m ∈ net.queue.byWhen, time ≤ m.when_) : OnTime epoch (net.setClock time) := by
  have htimes : clockTimes (net.setClock time).history = clockTimes net.history ++ [time] :=
    clockTimes_snoc
  have hbehind : ∀ t ∈ epoch :: clockTimes net.history, t ≤ time :=
    fun t ht => (h.behind t ht).trans hnow
  refine ⟨h.indexed, hlate, fun t t' ht => ?_, ?_, ?_, ?_⟩
  · rcases List.mem_append.mp ht with ht | ht
    · exact h.forward t t' ht
    · cases List.mem_singleton.mp ht
      exact hnow
  · rw [htimes, ← List.cons_append]
    refine List.pairwise_append.mpr ⟨h.rising, List.pairwise_singleton _ _, ?_⟩
    intro t ht t' ht'
    rw [List.mem_singleton.mp ht']
    exact hbehind t ht
  · rw [htimes, ← List.cons_append]
    intro t ht
    rcases List.mem_append.mp ht with ht | ht
    · exact hbehind t ht
    · exact (List.mem_singleton.mp ht).le
  · rw [htimes, ← List.cons_append, List.getLast?_concat]
    rfl

/-- The first entry is the next one due: the others are not earlier. -/
theorem head_le {m : Msg P} {rest : List (Msg P)} (hidx : net.queue.Indexed)
    (hq : net.queue.byWhen = m :: rest) : ∀ x ∈ net.queue.byWhen, m.when_ ≤ x.when_ := by
  have hsorted := hidx.sorted
  rw [hq] at hsorted ⊢
  intro x hx
  rcases List.mem_cons.mp hx with rfl | hx
  · exact le_rfl
  · have := (List.pairwise_cons.mp hsorted).1 x hx
    unfold Queue.Precedes at this
    omega

theorem start (h : OnTime epoch net) {m : Msg P} {rest : List (Msg P)}
    (hq : net.queue.byWhen = m :: rest) :
    OnTime epoch ((net.setClock m.when_).record (.invoked m)) := by
  have hhead := head_le h.indexed hq
  have hm : m ∈ net.queue.byWhen := by simp [hq]
  exact (h.setClock (h.ahead m hm) hhead).quiet h.indexed rfl rfl (by simp) hhead

theorem finish (h : OnTime epoch net) (m : Msg P) :
    Ends (net.erase m) (OnTime epoch) (fun _ => True) := by
  refine (Net.erase_effect h.indexed m).mono ?_ fun _ _ => trivial
  rintro _ ⟨-, q, rfl, hidx, hwhen, -⟩
  refine ⟨hidx, fun x hx => h.ahead x ?_, h.forward, h.rising, h.behind, h.last⟩
  simp only [hwhen] at hx
  exact List.mem_of_mem_erase hx

/-- A move of the clock by `step_until`. -/
theorem advance (h : OnTime epoch net) {time : Int} (hnow : net.now ≤ time)
    (hlate : ∀ m rest, net.queue.byWhen = m :: rest → time < m.when_) :
    OnTime epoch (net.setClock time) := by
  refine h.setClock hnow fun x hx => ?_
  cases hq : net.queue.byWhen with
  | nil => simp [hq] at hx
  | cons m rest => exact (hlate m rest hq).le.trans (head_le h.indexed hq x hx)

end OnTime

theorem onTime_preserved (epoch : Int) :
    Net.Preserved (P := P) timely (fun _ => OnTime epoch) (fun _ => True) where
  op running net op h hp := by
    have happly := Net.apply_effect h.indexed op
    cases ha : net.apply op with
    | ok net' => exact h.effect hp (happly.of_ok ha)
    | error e => trivial
  start net m rest h hq := h.start hq
  finish net m h := h.finish m
  clock net time h hp hlate := h.advance (hp.elim (by simp [timely]) id) hlate
  excluded := trivial
  unfinished := trivial

/-- Network time never goes back: in every run in which nothing is scheduled before the current
time the clock is set to no earlier time, and the values of `now` rise along the run. -/
theorem clock_rises {epoch : Int} {calls : List (Call P)} {net : Net P}
    (h : Net.run timely calls (Net.new epoch) = .ok net) :
    (∀ t t', .clockSet t t' ∈ net.history → t ≤ t') ∧
      (epoch :: clockTimes net.history).Pairwise (· ≤ ·) ∧
      (epoch :: clockTimes net.history).getLast? = some net.now := by
  have hT := ((onTime_preserved epoch).run calls (OnTime.new epoch)).of_ok h
  exact ⟨hT.forward, hT.rising, hT.last⟩

/-- A delivery that sends a reply, and then a step past it. -/
theorem clock_rises_reply :
    ∃ net : Net Nat, Net.run timely [.op (.connect 0 1 5), .op (.send 0 1),
        .stepOne fun _ _ => [.send 1 0], .stepUntil 20 [fun _ _ => []]] (Net.new 0) = .ok net ∧
      (0 :: clockTimes net.history).Pairwise (· ≤ ·) := by
  obtain ⟨net, hrun⟩ : ∃ net : Net Nat, Net.run timely [.op (.connect 0 1 5), .op (.send 0 1),
      .stepOne fun _ _ => [.send 1 0], .stepUntil 20 [fun _ _ => []]] (Net.new 0) = .ok net :=
    ⟨_, rfl⟩
  exact ⟨net, hrun, (clock_rises hrun).2.1⟩

/-- `step_until` with a time before the current one sets the clock back. -/
theorem clock_back_of_stepUntil :
    ∃ net : Net Nat, Net.run anything [.stepUntil 10 [], .stepUntil 5 []] (Net.new 0) = .ok net ∧
      .clockSet 10 5 ∈ net.history :=
  ⟨_, rfl, by decide⟩

end Metcalfe.Network
