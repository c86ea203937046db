import Metcalfe.Network.Clock

/-!
# The table of links

Each link is stored twice, once for either end. `Reach running net` says that the network can
come into this state, between two calls of the owner (`running = none`) or inside the handler of
a message, with no restriction on what is asked for. In every such state the two halves of a
link agree (`Paired`), which is what the assertions of `connect` and `disconnect` rely on.

`disconnect` takes the messages between its two peers out of the queue, and nothing else; the
order of its arguments does not matter (`disconnect_exact`).
-/

namespace Metcalfe.Network

open Outcome

variable {P : Type} [LinearOrder P]

/-- The states of a network, with the message whose handler is running. -/
inductive Reach : Option (Msg P) → Net P → Prop where
  | new (epoch : Int) : Reach none (Net.new epoch)
  | op {running : Option (Msg P)} {net net' : Net P} (op : Op P) (h : Reach running net)
      (happly : net.apply op = .ok net') : Reach running net'
  | start {net : Net P} {m : Msg P} {rest : List (Msg P)} (h : Reach none net)
      (hq : net.queue.byWhen = m :: rest) :
      Reach (some m) ((net.setClock m.when_).record (.invoked m))
  | finish {net net' : Net P} {m : Msg P} (h : Reach (some m) net)
      (herase : net.erase m = .ok net') : Reach none net'
  /-- `step_until` sets the clock, and the owner may do so through `clock()`. -/
  | clock {net : Net P} (time : Int) (h : Reach none net) : Reach none (net.setClock time)

/-- Both halves of every link are there, and no peer is linked to itself. -/
structure Paired (net : Net P) : Prop where
  indexed : net.queue.Indexed
  twin : ∀ a b l, net.link a b = some l → net.link b a = some ⟨!l.inbound, l.delay⟩
  irrefl : ∀ a, net.link a a = none

namespace Net

variable {net : Net P} {a b : P}

/-! ## What `connect` and `disconnect` return -/

theorem connect_refused (d : Int) (h : a = b ∨ net.link a b ≠ none) :
    net.connect a b d = .ok (false, net) := by
  unfold connect
  by_cases hba : b = a
  · simp [hba]
  · have hsome : (net.links a).find? b ≠ none := h.resolve_left (Ne.symm hba)
    simp [hba, FlatMap.emplace_of_some hsome]

theorem connect_accepted (d : Int) (hne : a ≠ b) (hab : net.link a b = none)
    (hba : net.link b a = none) : ∃ net', net.connect a b d = .ok (true, net') := by
  have h₁ : ((net.links a).emplace b ⟨false, d⟩).1 = true := (FlatMap.emplace_fst _ _ _).mpr hab
  have h₂ : ((net.links b).emplace a ⟨true, d⟩).1 = true := (FlatMap.emplace_fst _ _ _).mpr hba
  simp [connect, hne.symm, h₁, h₂]

theorem disconnect_refused (hab : net.link a b = none) :
    net.disconnect a b = .ok (false, net) := by
  have h : ((net.links a).erase b).1 = 0 := (FlatMap.erase_fst _ _).mpr hab
  simp [disconnect, h, erase_of_find?_none hab]

/-- The table without the link between the two peers. -/
def unlink (links : P → FlatMap P LinkType) (a b : P) : P → FlatMap P LinkType :=
  Function.update (Function.update links a ((links a).erase b).2) b ((links b).erase a).2

theorem unlink_comm (links : P → FlatMap P LinkType) (hne : a ≠ b) :
    unlink links a b = unlink links b a :=
  Function.update_comm hne _ _ _

theorem find?_unlink (links : P → FlatMap P LinkType) (hne : a ≠ b) (x y : P) :
    (unlink links a b x).find? y =
      if x = a ∧ y = b ∨ x = b ∧ y = a then none else (links x).find? y := by
  unfold unlink
  rw [find?_update_two, FlatMap.find?_erase, FlatMap.find?_erase]
  by_cases hxb : x = b
  · subst hxb
    simp [hne.symm]
  · by_cases hxa : x = a
    · subst hxa
      simp [hxb]
    · simp [hxa, hxb]

theorem disconnect_accepted (hq : net.queue.Indexed) (hne : a ≠ b) (hab : net.link a b ≠ none)
    (hba : net.link b a ≠ none) :
    ∃ q, net.queue.remove a b = some q ∧ net.disconnect a b =
      .ok (true, { net with links := unlink net.links a b, queue := q }.record
        (.disconnected a b)) := by
  obtain ⟨q, hq', -⟩ := hq.remove a b
  have h₁ : ((net.links a).erase b).1 ≠ 0 := fun h => hab ((FlatMap.erase_fst _ _).mp h)
  have h₂ : ((net.links b).erase a).1 ≠ 0 := fun h => hba ((FlatMap.erase_fst _ _).mp h)
  refine ⟨q, hq', ?_⟩
  simp [disconnect, h₁, h₂, Function.update_of_ne hne.symm, hq', unlink]

end Net

namespace Paired

variable {net net' : Net P} {a b : P}

theorem new (epoch : Int) : Paired (Net.new epoch : Net P) where
  indexed := Queue.indexed_new
  twin := by simp [Net.new, Net.link]
  irrefl := by simp [Net.new, Net.link]

/-- The table is left alone. -/
theorem keep (h : Paired net) (hidx : net'.queue.Indexed) (hlinks : net'.links = net.links) :
    Paired net' where
  indexed := hidx
  twin a b l := by
    unfold Net.link
    rw [hlinks]
    exact h.twin a b l
  irrefl a := by
    unfold Net.link
    rw [hlinks]
    exact h.irrefl a

theorem none_iff (h : Paired net) : net.link a b = none ↔ net.link b a = none := by
  have hone : ∀ x y, net.link x y ≠ none → net.link y x ≠ none := by
    intro x y hxy
    obtain ⟨l, hl⟩ := Option.ne_none_iff_exists'.mp hxy
    rw [h.twin x y l hl]
    simp
  exact not_iff_not.mp ⟨hone a b, hone b a⟩

theorem ne (h : Paired net) (hab : net.link a b ≠ none) : a ≠ b := by
  rintro rfl
  exact hab (h.irrefl a)

theorem effect (h : Paired net) {op : Op P} (he : Net.Effect net op net') : Paired net' := by
  have hidx := he.indexed h.indexed
  cases he with
  | refused => exact h
  | @connected a b d net' hne hab hba hqueue hnow hhistory hlink =>
    refine ⟨hidx, fun x y l hl => ?_, fun x => ?_⟩
    · rw [hlink] at hl ⊢
      -- a link of the new table is one of the two new halves or an old one
      split at hl
      · rename_i hxy
        obtain ⟨rfl, rfl⟩ := hxy
        cases hl
        simp [hne.symm]
      · split at hl
        · rename_i hxy
          obtain ⟨rfl, rfl⟩ := hxy
          cases hl
          simp
        · rename_i h₁ h₂
          rw [if_neg fun h' => h₂ ⟨h'.2, h'.1⟩, if_neg fun h' => h₁ ⟨h'.2, h'.1⟩]
          exact h.twin x y l hl
    · rw [hlink, if_neg fun h' => hne (h'.1.symm.trans h'.2),
        if_neg fun h' => hne (h'.2.symm.trans h'.1)]
      exact h.irrefl x
  | @disconnected a b net' hne hab hba hindexed hbyWhen hnextId hnow hhistory hlink =>
    refine ⟨hidx, fun x y l hl => ?_, fun x => ?_⟩
    · rw [hlink] at hl ⊢
      split at hl
      · cases hl
      · rename_i h₁
        rw [if_neg fun h' => h₁ (by tauto)]
        exact h.twin x y l hl
    · rw [hlink]
      split
      · rfl
      · exact h.irrefl x
  | sent _ => exact h.keep hidx rfl
  | timerSet _ _ => exact h.keep hidx rfl
  | cancelled _ _ _ _ => exact h.keep hidx rfl

/-- The second half of a link is never found missing, or present, against the first. -/
theorem connect_returns (h : Paired net) (a b : P) (d : Int) :
    ∃ r net', net.connect a b d = .ok (r, net') ∧
      (r = true ↔ a ≠ b ∧ net.link a b = none ∧ net.link b a = none) ∧
      (r = false → net' = net) := by
  by_cases hc : a ≠ b ∧ net.link a b = none ∧ net.link b a = none
  · obtain ⟨net', hok⟩ := Net.connect_accepted d hc.1 hc.2.1 hc.2.2
    exact ⟨true, net', hok, by simpa using hc, by simp⟩
  · refine ⟨false, net, Net.connect_refused d ?_, by simpa using hc, fun _ => rfl⟩
    by_contra hno
    obtain ⟨hne, hab⟩ := not_or.mp hno
    have hab' : net.link a b = none := not_not.mp hab
    exact hc ⟨hne, hab', h.none_iff.mp hab'⟩

theorem disconnect_returns (h : Paired net) (a b : P) :
    ∃ r net', net.disconnect a b = .ok (r, net') ∧ (r = true ↔ net.link a b ≠ none) ∧
      (r = false → net' = net) := by
  by_cases hab : net.link a b = none
  · exact ⟨false, net, Net.disconnect_refused hab, by simpa using hab, fun _ => rfl⟩
  · obtain ⟨q, -, hok⟩ := Net.disconnect_accepted h.indexed (h.ne hab) hab
      fun hba => hab (h.none_iff.mpr hba)
    exact ⟨true, _, hok, by simpa using hab, by simp⟩

theorem apply_ne_assertion (h : Paired net) (op : Op P) : net.apply op ≠ .error .assertion := by
  cases op with
  | connect a b d =>
    obtain ⟨r, net', hok, -⟩ := h.connect_returns a b d
    simp [Net.apply, hok]
  | disconnect a b =>
    obtain ⟨r, net', hok, -⟩ := h.disconnect_returns a b
    simp [Net.apply, hok]
  | send a b =>
    simp only [Net.apply, Net.send]
    cases (net.links a).find? b <;> simp
  | timerAt w => simp [Net.apply]
  | timerAfter d => simp [Net.apply]
  | cancel m =>
    simp only [Net.apply, Net.cancel, Net.erase]
    cases net.queue.erase m <;> simp

end Paired

theorem Reach.paired {running : Option (Msg P)} {net : Net P} (h : Reach running net) :
    Paired net := by
  induction h with
  | new epoch => exact Paired.new epoch
  | op op _ happly ih => exact ih.effect ((Net.apply_effect ih.indexed op).of_ok happly)
  | start _ _ ih => exact ih.keep ih.indexed rfl
  | finish _ herase ih =>
    obtain ⟨-, q, rfl, hidx, -⟩ := (Net.erase_effect ih.indexed _).of_ok herase
    exact ih.keep hidx rfl
  | clock time _ ih => exact ih.keep ih.indexed rfl

/-- Every state that a sequence of calls goes through is one of `Reach`, whatever the policy. -/
theorem reach_preserved (pol : Policy P) :
    Net.Preserved pol (fun running => Reach (P := P) running) (· ≠ .assertion) where
  op running net op h _ := by
    cases ha : net.apply op with
    | ok net' => exact h.op op ha
    | error e =>
      rintro rfl
      exact h.paired.apply_ne_assertion op ha
  start net m rest h hq := h.start hq
  finish net m h := by
    have heff := Net.erase_effect h.paired.indexed m
    cases he : net.erase m with
    | ok net' => exact h.finish he
    | error e => simp [(heff.of_error he).1]
  clock net time h _ _ := h.clock time
  excluded := by simp
  unfinished := by simp

/-- Links are symmetric. No sequence of calls fails an assertion, and every state it goes
through, inside handlers too, has both halves of every link, with one delay and opposite
directions, and no link from a peer to itself. There `connect` returns true exactly for two
peers that are distinct and not linked either way, and a `connect` or `disconnect` that returns
false changes nothing. -/
theorem links_symmetric :
    (∀ (pol : Policy P) (epoch : Int) (calls : List (Call P)),
      Ends (Net.run pol calls (Net.new epoch)) (Reach none) (· ≠ .assertion)) ∧
    ∀ (running : Option (Msg P)) (net : Net P), Reach running net →
      (∀ a b l, net.link a b = some l ↔ net.link b a = some ⟨!l.inbound, l.delay⟩) ∧
      (∀ a, net.link a a = none) ∧
      (∀ a b d, ∃ r net', net.connect a b d = .ok (r, net') ∧
        (r = true ↔ a ≠ b ∧ net.link a b = none ∧ net.link b a = none) ∧
        (r = false → net' = net)) ∧
      ∀ a b, ∃ r net', net.disconnect a b = .ok (r, net') ∧
        (r = true ↔ net.link a b ≠ none) ∧ (r = false → net' = net) := by
  refine ⟨fun pol epoch calls => (reach_preserved pol).run calls (.new epoch), ?_⟩
  intro running net h
  refine ⟨fun a b l => ⟨h.paired.twin a b l, fun hl => ?_⟩, h.paired.irrefl,
    h.paired.connect_returns, h.paired.disconnect_returns⟩
  simpa using h.paired.twin b a _ hl

/-- Inside the handler of a message, after its link was made in the other direction. -/
theorem links_symmetric_handler :
    ∃ (m : Msg Nat) (net : Net Nat), Reach (some m) net ∧ net.link 0 1 = some ⟨false, 5⟩ ∧
      net.link 1 0 = some ⟨true, 5⟩ := by
  obtain ⟨net₁, h₁⟩ : ∃ net₁, (Net.new 0 : Net Nat).apply (.connect 0 1 5) = .ok net₁ := ⟨_, rfl⟩
  obtain ⟨net₂, h₂, m, rest, hq, hl⟩ : ∃ net₂, net₁.apply (.send 0 1) = .ok net₂ ∧
      ∃ m rest, net₂.queue.byWhen = m :: rest ∧ net₂.link 0 1 = some ⟨false, 5⟩ := by
    cases h₁
    exact ⟨_, rfl, _, _, rfl, rfl⟩
  have hreach : Reach (some m) _ := (((Reach.new 0).op _ h₁).op _ h₂).start hq
  exact ⟨m, _, hreach, hl, ((links_symmetric.2 _ _ hreach).1 0 1 ⟨false, 5⟩).mp hl⟩

/-! ## Breaking a link -/

namespace Queue

variable {q q₁ q₂ : Queue P} {a b : P}

omit [LinearOrder P] in
theorem between_comm {m : Msg P} : Between a b m ↔ Between b a m := or_comm

omit [LinearOrder P] in
/-- The list of a peer is determined by the queue. -/
theorem Lists.unique {l₁ l₂ : List (Msg P)} {p : Msg P → Prop} (h₁ : q₁.Lists l₁ p)
    (h₂ : q₂.Lists l₂ p) (hq : q₁.byWhen = q₂.byWhen) : l₁ = l₂ := by
  have hperm : l₁.Perm l₂ := (List.perm_ext_iff_of_nodup h₁.nodup h₂.nodup).mpr fun m => by
    rw [h₁.mem, h₂.mem, hq]
  exact hperm.eq_of_pairwise (fun x y _ _ hxy hyx => absurd hxy hyx.asymm) h₁.aged h₂.aged

omit [LinearOrder P] in
/-- So two queues with the same messages are the same. -/
theorem Indexed.ext (h₁ : q₁.Indexed) (h₂ : q₂.Indexed) (hq : q₁.byWhen = q₂.byWhen)
    (hn : q₁.nextId = q₂.nextId) : q₁ = q₂ := by
  have hto : q₁.byTo = q₂.byTo := funext fun p => (h₁.to_ p).unique (h₂.to_ p) hq
  have hfrom : q₁.byFrom = q₂.byFrom := funext fun p => (h₁.from_ p).unique (h₂.from_ p) hq
  cases q₁
  cases q₂
  simp_all

theorem Indexed.remove_comm (h : q.Indexed) (a b : P) : q.remove a b = q.remove b a := by
  obtain ⟨q₁, he₁, h₁, hn₁, hw₁⟩ := h.remove a b
  obtain ⟨q₂, he₂, h₂, hn₂, hw₂⟩ := h.remove b a
  have hw : q₁.byWhen = q₂.byWhen := by
    rw [hw₁, hw₂]
    exact List.filter_congr fun m _ => by simp [between_comm (a := a) (b := b)]
  rw [he₁, he₂, h₁.ext h₂ hw (hn₁.trans hn₂.symm)]

end Queue

/-- `disconnect` removes the traffic of one connection. In every state, for two linked peers, it
takes out of the queue the messages between them and leaves the others, the timers among them,
in their order; the three containers of the queue still agree, and every other link is as
before. `disconnect` with its arguments exchanged leads to the same state. -/
theorem disconnect_exact {running : Option (Msg P)} {net : Net P} (h : Reach running net)
    {a b : P} (hab : net.link a b ≠ none) :
    ∃ net₁ net₂, net.disconnect a b = .ok (true, net₁) ∧ net.disconnect b a = .ok (true, net₂) ∧
      net₁.queue.byWhen = net.queue.byWhen.filter (fun m => ¬ Queue.Between a b m) ∧
      net₁.queue.Indexed ∧ net₁.now = net.now ∧
      (∀ x y, net₁.link x y = if x = a ∧ y = b ∨ x = b ∧ y = a then none else net.link x y) ∧
      net₂.queue = net₁.queue ∧ net₂.links = net₁.links ∧ net₂.now = net₁.now := by
  have hP := h.paired
  have hne := hP.ne hab
  have hba : net.link b a ≠ none := fun hn => hab (hP.none_iff.mpr hn)
  obtain ⟨q₁, hq₁, hd₁⟩ := Net.disconnect_accepted hP.indexed hne hab hba
  obtain ⟨q₂, hq₂, hd₂⟩ := Net.disconnect_accepted hP.indexed hne.symm hba hab
  have hq : q₂ = q₁ := by
    rw [hP.indexed.remove_comm b a, hq₁] at hq₂
    exact (Option.some.inj hq₂).symm
  obtain ⟨q, hq', hindexed, -, hbyWhen⟩ := hP.indexed.remove a b
  cases hq₁.symm.trans hq'
  exact ⟨_, _, hd₁, hd₂, hbyWhen, hindexed, rfl, Net.find?_unlink net.links hne, hq,
    Net.unlink_comm _ hne.symm, rfl⟩

/-- Three messages and a timer are pending; the connection from 0 to 1 is broken. -/
theorem disconnect_exact_shared :
    ∃ net net' : Net Nat, Net.run anything [.op (.connect 0 1 5), .op (.connect 2 1 5),
        .op (.send 0 1), .op (.send 2 1), .op (.timerAt 5), .op (.send 1 0)] (Net.new 0) =
        .ok net ∧
      net.disconnect 1 0 = .ok (true, net') ∧ net'.queue.byWhen.map (·.id) = [1, 2] := by
  obtain ⟨net, hrun, hlink, hq⟩ : ∃ net : Net Nat, Net.run anything [.op (.connect 0 1 5),
        .op (.connect 2 1 5), .op (.send 0 1), .op (.send 2 1), .op (.timerAt 5),
        .op (.send 1 0)] (Net.new 0) = .ok net ∧ net.link 1 0 ≠ none ∧
      (net.queue.byWhen.filter fun m => ¬ Queue.Between 1 0 m).map (·.id) = [1, 2] :=
    ⟨_, rfl, by decide, by decide⟩
  have hreach : Reach none net := ((reach_preserved anything).run _ (.new 0)).of_ok hrun
  obtain ⟨net', -, hd, -, hw, -⟩ := disconnect_exact hreach hlink
  exact ⟨net, net', hrun, hd, by rw [hw, hq]⟩

end Metcalfe.Network
