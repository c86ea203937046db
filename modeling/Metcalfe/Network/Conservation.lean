import Metcalfe.Network.Ledger

/-!
# Nothing is erased twice, nothing is lost

Two results about whole runs, from one invariant (`Books`). `erase_present`: under the policy
`careful` every call of `queue_type::erase` finds its entry. `conservation`: each message ever
sent is delivered once, dropped with its link, or still pending on a link that has lasted;
each timer is invoked once, cancelled, or pending.

The policy `documented` asks only for the preconditions that `BasicNetwork.h` states. It lets
a handler break the link its own message came by. The message is still in the queue then:
`disconnect` erases it, and `step_one` erases it again when the handler returns
(`erase_absent_of_own_disconnect`).
-/

namespace Metcalfe.Network

open Outcome

variable {P : Type} [LinearOrder P]

/-- The documented preconditions: `cancel` takes the token of a timer not yet invoked. -/
def documented : Policy P where
  op net _ op :=
    match op with
    | .cancel m => decide (.timerSet m ∈ net.history ∧ .invoked m ∉ net.history)
    | _ => true
  until_ _ _ := true

/-- A handler does not break the link of its own message, and a timer is cancelled only while
it is pending. -/
def careful : Policy P where
  op net running op :=
    match op with
    | .disconnect a b => decide (∀ m ∈ running, ¬ Queue.Between a b m)
    | .cancel m => decide (.timerSet m ∈ net.history ∧ .invoked m ∉ net.history ∧
        .cancelled m ∉ net.history)
    | _ => true
  until_ _ _ := true

/-- The books are in order while the handler of `running` is at work. -/
structure Books (running : Option (Msg P)) (net : Net P) : Prop where
  entries : Entries running net.queue net.history
  linkage : Linkage net
  started : ∀ m, running = some m → Created net.history m

theorem books_new (epoch : Int) : Books none (Net.new epoch : Net P) where
  entries := by
    constructor <;> simp [Net.new, Queue.new, Created]
    exact Queue.indexed_new
  linkage := by
    constructor
    · simp [Net.new, Net.link]
    · simp [Net.new, Net.link, LinkUp]
  started := by simp

/-- An entry that may be cancelled is in the queue. -/
theorem Books.cancel_mem {running : Option (Msg P)} {net : Net P} (hB : Books running net)
    {m : Msg P} (hset : .timerSet m ∈ net.history) (hi : .invoked m ∉ net.history)
    (hc : .cancelled m ∉ net.history) : m ∈ net.queue.byWhen := by
  have hcount : net.history.count (.invoked m) = 0 := List.count_eq_zero.mpr hi
  cases hB.entries.timer m hset with
  | pending _ hq => exact hq
  | handling _ hq => exact hq
  | invoked _ _ hc' => omega
  | gone _ _ _ hg => exact absurd hg hc

theorem Books.effect {running : Option (Msg P)} {net net' : Net P} {op : Op P}
    (hB : Books running net) (hp : careful.op net running op = true)
    (h : Net.Effect net op net') : Books running net' := by
  have hstarted : ∀ {n : Net P} {e : Event P}, n.history = net.history ++ [e] →
      ∀ m, running = some m → Created n.history m := by
    intro n e hh m hm
    rw [hh]
    exact (hB.started m hm).snoc e
  cases h with
  | refused => exact hB
  | connected hne hab hba hqueue hnow hhistory hlink =>
    refine ⟨?_, hB.linkage.connect hne hhistory hlink, hstarted hhistory⟩
    rw [hqueue, hhistory]
    exact hB.entries.quiet (by simp) (by simp) (by simp) (by simp) (by simp [Event.Breaks])
  | disconnected hne hab hba hindexed hbyWhen hnextId hnow hhistory hlink =>
    refine ⟨?_, hB.linkage.disconnect hhistory hlink, hstarted hhistory⟩
    rw [hhistory]
    refine hB.entries.disconnect hindexed hbyWhen hnextId fun m hm => ?_
    simp only [careful, decide_eq_true_eq] at hp
    exact hp m hm
  | @sent a b l hl =>
    refine ⟨?_, hB.linkage.quiet (fun _ _ => rfl) rfl (by simp [Event.Joins])
      (by simp [Event.Breaks]), hstarted rfl⟩
    have hup : LinkUp net.history a b := (hB.linkage.up a b).mp (by simp [hl])
    exact hB.entries.create rfl (.message rfl rfl hup) hB.started
  | timerSet w hop =>
    refine ⟨?_, hB.linkage.quiet (fun _ _ => rfl) rfl (by simp [Event.Joins])
      (by simp [Event.Breaks]), hstarted rfl⟩
    exact hB.entries.create rfl (.timer rfl rfl) hB.started
  | cancelled hmem hindexed hbyWhen hnextId =>
    refine ⟨?_, hB.linkage.quiet (fun _ _ => rfl) rfl (by simp [Event.Joins])
      (by simp [Event.Breaks]), hstarted rfl⟩
    simp only [careful, decide_eq_true_eq] at hp
    exact hB.entries.cancel hindexed hbyWhen hnextId hp.1 hp.2.1

theorem Books.setClock {net : Net P} (hB : Books none net) (time : Int) :
    Books none (net.setClock time) where
  entries := hB.entries.quiet (by simp) (by simp) (by simp) (by simp) (by simp [Event.Breaks])
  linkage := hB.linkage.quiet (fun _ _ => rfl) rfl (by simp [Event.Joins])
    (by simp [Event.Breaks])
  started := by simp

theorem Books.start {net : Net P} (hB : Books none net) {m : Msg P} {rest : List (Msg P)}
    (hq : net.queue.byWhen = m :: rest) :
    Books (some m) ((net.setClock m.when_).record (.invoked m)) where
  entries := (hB.setClock m.when_).entries.start (show m ∈ net.queue.byWhen by simp [hq])
  linkage := (hB.setClock m.when_).linkage.quiet (fun _ _ => rfl) rfl (by simp [Event.Joins])
    (by simp [Event.Breaks])
  started := by
    intro x hx
    cases hx
    exact ((hB.setClock m.when_).entries.queued m (by simp [Net.setClock, Net.record, hq])).snoc _

theorem Books.finish {net : Net P} {m : Msg P} (hB : Books (some m) net) :
    Ends (net.erase m) (Books none) (· ≠ .eraseAbsent) := by
  have hmem := hB.entries.running_mem (hB.started m rfl)
  refine (Net.erase_effect hB.entries.indexed m).mono ?_ fun e he => absurd hmem he.2
  rintro _ ⟨-, q, rfl, hidx, hwhen, hnext⟩
  exact ⟨hB.entries.finish hidx hwhen hnext, ⟨hB.linkage.twin, hB.linkage.up⟩, by simp⟩

theorem books_preserved : Net.Preserved (P := P) careful Books (· ≠ .eraseAbsent) where
  op running net op hB hp := by
    have happly := Net.apply_effect hB.entries.indexed op
    cases ha : net.apply op with
    | ok net' => exact hB.effect hp (happly.of_ok ha)
    | error e =>
      intro he
      obtain ⟨m, rfl, hm⟩ := happly.of_error ha he
      simp only [careful, decide_eq_true_eq] at hp
      exact hm (hB.cancel_mem hp.1 hp.2.1 hp.2.2)
  start net m rest hB hq := hB.start hq
  finish net m hB := hB.finish
  clock net time hB _ _ := hB.setClock time
  excluded := by simp
  unfinished := by simp

theorem books_run (epoch : Int) (calls : List (Call P)) :
    Ends (Net.run careful calls (Net.new epoch)) (Books none) (· ≠ .eraseAbsent) :=
  books_preserved.run calls (books_new epoch)

/-- No entry of the queue is erased twice: in every run under `careful` each call of
`queue_type::erase` is made on an entry that is in the queue. -/
theorem erase_present (epoch : Int) (calls : List (Call P)) :
    Net.run careful calls (Net.new epoch) ≠ .error .eraseAbsent :=
  fun h => (books_run epoch calls).of_error h rfl

/-- A handler that breaks the link its own message came by, within the documented
preconditions: the message is erased by `disconnect` and again by `step_one`. -/
theorem erase_absent_of_own_disconnect :
    Net.run documented [.op (.connect 0 1 0), .op (.send 0 1),
      .stepOne fun _ _ => [.disconnect 0 1]] (Net.new 0 : Net Nat) = .error .eraseAbsent := rfl

/-! ## Conservation -/

/-- The three ends of a message. -/
inductive Fate where
  | invoked
  | dropped
  | pending

/-- What the fate of a message from `a` to `b` means. -/
def Fate.Of (net : Net P) (m : Msg P) (a b : P) : Fate → Prop
  | .invoked => net.history.count (.invoked m) = 1
  | .dropped => Dropped net.history m a b
  | .pending => m ∈ net.queue.byWhen

inductive TimerFate where
  | invoked
  | cancelled
  | pending

def TimerFate.Of (net : Net P) (m : Msg P) : TimerFate → Prop
  | .invoked => net.history.count (.invoked m) = 1
  | .cancelled => .cancelled m ∈ net.history
  | .pending => m ∈ net.queue.byWhen

theorem Standing.fate {net : Net P} {m : Msg P} {a b : P}
    (hs : MessageStanding none net.queue net.history m a b) :
    (∃! f : Fate, f.Of net m a b) ∧ net.history.count (.invoked m) ≤ 1 ∧
      (m ∈ net.queue.byWhen → Lasting net.history m a b) := by
  cases hs with
  | pending hr hq hc hg hl =>
    refine ⟨⟨.pending, hq, ?_⟩, by omega, fun _ => hl⟩
    rintro (_ | _ | _) hf
    · simp only [Fate.Of] at hf
      omega
    · exact absurd hf hg
    · rfl
  | handling hr => cases hr
  | invoked hr hq hc hg =>
    refine ⟨⟨.invoked, hc, ?_⟩, by omega, fun h' => absurd h' hq⟩
    rintro (_ | _ | _) hf
    · rfl
    · exact absurd hf hg
    · exact absurd hf hq
  | gone hr hq hc hg =>
    refine ⟨⟨.dropped, hg, ?_⟩, by omega, fun h' => absurd h' hq⟩
    rintro (_ | _ | _) hf
    · simp only [Fate.Of] at hf
      omega
    · rfl
    · exact absurd hf hq

theorem Standing.timerFate {net : Net P} {m : Msg P}
    (hs : TimerStanding none net.queue net.history m) :
    (∃! f : TimerFate, f.Of net m) ∧ net.history.count (.invoked m) ≤ 1 := by
  cases hs with
  | pending hr hq hc hg hl =>
    refine ⟨⟨.pending, hq, ?_⟩, by omega⟩
    rintro (_ | _ | _) hf
    · simp only [TimerFate.Of] at hf
      omega
    · exact absurd hf hg
    · rfl
  | handling hr => cases hr
  | invoked hr hq hc hg =>
    refine ⟨⟨.invoked, hc, ?_⟩, by omega⟩
    rintro (_ | _ | _) hf
    · rfl
    · exact absurd hf hg
    · exact absurd hf hq
  | gone hr hq hc hg =>
    refine ⟨⟨.cancelled, hg, ?_⟩, by omega⟩
    rintro (_ | _ | _) hf
    · simp only [TimerFate.Of] at hf
      omega
    · rfl
    · exact absurd hf hq

/-- A message that is delivered was not dropped before: no break of its link stands between
its sending and its delivery. -/
theorem not_invoked_after_break {net : Net P} {m : Msg P} {a b : P} {e : Event P}
    (hs : MessageStanding none net.queue net.history m a b) (he : e.Breaks a b) :
    ¬ [Event.sent m, e, Event.invoked m].Sublist net.history := by
  intro hsub
  obtain ⟨u, v, huv, hu, hv⟩ := List.append_sublist_iff.mp
    (show ([Event.sent m] ++ ([e] ++ [Event.invoked m])).Sublist net.history from hsub)
  obtain ⟨v₁, v₂, rfl, h₁, h₂⟩ := List.append_sublist_iff.mp hv
  obtain ⟨x, y, rfl⟩ := List.append_of_mem (List.singleton_sublist.mp h₁)
  have hsent : .sent m ∈ u ++ x := List.mem_append_left _ (List.singleton_sublist.mp hu)
  have hinv : .invoked m ∈ v₂ := List.singleton_sublist.mp h₂
  have hh : net.history = (u ++ x) ++ e :: (y ++ v₂) := by simp [huv]
  obtain ⟨⟨f, hf, huniq⟩, hle, -⟩ := Standing.fate hs
  have hpos₂ : 0 < v₂.count (.invoked m) := List.count_pos_iff.mpr hinv
  have hcount : net.history.count (.invoked m) =
      (u ++ x).count (.invoked m) + (e :: (y ++ v₂)).count (.invoked m) := by
    rw [hh, List.count_append]
  have htail : 0 < (e :: (y ++ v₂)).count (.invoked m) :=
    List.count_pos_iff.mpr (by simp [hinv])
  have hzero : .invoked m ∉ u ++ x := fun h' => by
    have := List.count_pos_iff.mpr h'
    omega
  have hone : Fate.Of net m a b .invoked := by
    simp only [Fate.Of]
    omega
  have hdrop : Fate.Of net m a b .dropped := ⟨u ++ x, e, y ++ v₂, hh, he, hsent, hzero⟩
  cases (huniq _ hone).trans (huniq _ hdrop).symm

/-- Conservation. After every sequence of calls each message ever sent was invoked once, or was
dropped because its link was broken while it was pending, or is pending on a link that has
lasted since it was sent, and it is not delivered after a break of its link. Each timer was
invoked once, was cancelled, or is pending, and `disconnect` does not touch it. -/
theorem conservation {epoch : Int} {calls : List (Call P)} {net : Net P}
    (h : Net.run careful calls (Net.new epoch) = .ok net) :
    (∀ m, .sent m ∈ net.history → ∃ a b, m.from_ = some a ∧ m.to_ = some b ∧
      (∃! f : Fate, f.Of net m a b) ∧ net.history.count (.invoked m) ≤ 1 ∧
      (m ∈ net.queue.byWhen →
        net.link a b ≠ none ∧ net.link b a ≠ none ∧ Lasting net.history m a b) ∧
      ∀ e : Event P, e.Breaks a b →
        ¬ [Event.sent m, e, Event.invoked m].Sublist net.history) ∧
    (∀ m, .timerSet m ∈ net.history →
      (∃! f : TimerFate, f.Of net m) ∧ net.history.count (.invoked m) ≤ 1 ∧
      ∀ a b, Ends (net.disconnect a b)
        (fun r => m ∈ r.2.queue.byWhen ↔ m ∈ net.queue.byWhen) (fun _ => True)) := by
  have hB := (books_run epoch calls).of_ok h
  constructor
  · intro m hm
    obtain ⟨ha, hb⟩ := hB.entries.sentPeers m hm
    obtain ⟨a, ha⟩ := Option.ne_none_iff_exists'.mp ha
    obtain ⟨b, hb⟩ := Option.ne_none_iff_exists'.mp hb
    have hs := hB.entries.message m a b hm ha hb
    obtain ⟨hfate, hle, hlast⟩ := Standing.fate hs
    refine ⟨a, b, ha, hb, hfate, hle, fun hq => ?_, fun e he => not_invoked_after_break hs he⟩
    have hup : LinkUp net.history a b := hlast hq net.history [] (by simp) hm
    exact ⟨(hB.linkage.up a b).mpr hup, (hB.linkage.up b a).mpr (linkUp_symm hup), hlast hq⟩
  · intro m hm
    obtain ⟨hfate, hle⟩ := Standing.timerFate (hB.entries.timer m hm)
    refine ⟨hfate, hle, fun a b => ?_⟩
    refine (Net.disconnect_effect hB.entries.indexed a b).mono ?_ fun _ _ => trivial
    rintro ⟨_, net'⟩ hr
    cases hr with
    | refused => exact Iff.rfl
    | disconnected _ _ _ _ hbyWhen =>
      rw [hbyWhen, List.mem_filter]
      simp [Queue.Between, (hB.entries.timerPeers m hm).1]
    | timerSet _ hop => simp at hop

/-- A message is sent, its link is broken and made again, and the network is run: the message
has one fate, and so has the timer set meanwhile. -/
theorem conservation_reconnect :
    ∃ net : Net Nat, Net.run careful [.op (.connect 0 1 5), .op (.send 0 1),
        .op (.disconnect 1 0), .op (.connect 0 1 1), .op (.timerAt 3), .step [fun _ _ => []]]
        (Net.new 0) = .ok net ∧
      (∃! f : Fate, f.Of net ⟨0, some 0, some 1, 5⟩ 0 1) ∧
      ∃! f : TimerFate, f.Of net ⟨1, none, none, 3⟩ := by
  obtain ⟨net, hrun, hsent, hset⟩ : ∃ net : Net Nat, Net.run careful [.op (.connect 0 1 5),
        .op (.send 0 1), .op (.disconnect 1 0), .op (.connect 0 1 1), .op (.timerAt 3),
        .step [fun _ _ => []]] (Net.new 0) = .ok net ∧
      .sent ⟨0, some 0, some 1, 5⟩ ∈ net.history ∧ .timerSet ⟨1, none, none, 3⟩ ∈ net.history :=
    ⟨_, rfl, by decide, by decide⟩
  obtain ⟨a, b, ha, hb, hfate, -⟩ := (conservation hrun).1 _ hsent
  cases ha
  cases hb
  exact ⟨net, hrun, hfate, ((conservation hrun).2 _ hset).1⟩

end Metcalfe.Network
