import Metcalfe.Network.Compose
import Metcalfe.Network.Ledger
import Metcalfe.Network.Links

/-!
# What `step_until` delivers

The events of one call of `step_until` are what it adds to the history. An entry is known to the
call when it was pending at its start or was created in it; it is withdrawn when `cancel` or
`disconnect` took it out of the queue before it was invoked. `Served` says, at any moment of the
call, what has become of every entry known to it, in the terms of `Standing`: the call starts
from any state, so the history before it does not matter.
-/

namespace Metcalfe.Network

open Outcome

variable {P : Type}

/-- The event takes the entry out of the queue. -/
def Event.Removes (m : Msg P) : Event P → Prop
  | .cancelled x => x = m
  | .disconnected a b => Queue.Between a b m
  | _ => False

/-- The entry was pending at the start or was created since. -/
def Known (start : List (Msg P)) (h : List (Event P)) (m : Msg P) : Prop :=
  m ∈ start ∨ Created h m

/-- The entry was cancelled or discarded before its turn. -/
def Withdrawn (start : List (Msg P)) (h : List (Event P)) (m : Msg P) : Prop :=
  ∃ u e v, h = u ++ e :: v ∧ Known start u m ∧ .invoked m ∉ u ∧ e.Removes m

theorem Known.snoc {start : List (Msg P)} {h : List (Event P)} {m : Msg P} (e : Event P)
    (hm : Known start h m) : Known start (h ++ [e]) m :=
  hm.imp id fun hc => hc.imp (List.mem_append_left _) (List.mem_append_left _)

theorem known_snoc_iff {start : List (Msg P)} {h : List (Event P)} {m : Msg P} {e : Event P}
    (hs : e ≠ .sent m) (ht : e ≠ .timerSet m) : Known start (h ++ [e]) m ↔ Known start h m := by
  simp [Known, Created, hs.symm, ht.symm]

theorem withdrawn_snoc {start : List (Msg P)} {h : List (Event P)} {m : Msg P} {e : Event P} :
    Withdrawn start (h ++ [e]) m ↔
      Withdrawn start h m ∨ Known start h m ∧ .invoked m ∉ h ∧ e.Removes m := by
  unfold Withdrawn
  rw [exists_split_snoc, or_comm]

theorem Withdrawn.known {start : List (Msg P)} {h : List (Event P)} {m : Msg P}
    (hw : Withdrawn start h m) : Known start h m := by
  obtain ⟨u, e, v, rfl, hk, -⟩ := hw
  exact hk.imp id fun hc => hc.imp (List.mem_append_left _) (List.mem_append_left _)

variable [LinearOrder P]

/-- What handlers may ask for during `step_until`: nothing before the current time, and nothing
that takes away the entry they are running for. -/
def punctual : Policy P where
  op net running op := timely.op net running op &&
    match op with
    | .disconnect a b => decide (∀ m ∈ running, ¬ Queue.Between a b m)
    | .cancel m => decide (running ≠ some m)
    | _ => true
  until_ net time := decide (net.now ≤ time)

/-- The state of a call of `step_until(t)` that found `start` in the queue and has recorded `h`. -/
structure Served (t epoch : Int) (start : List (Msg P)) (running : Option (Msg P)) (now : Int)
    (q : Queue P) (h : List (Event P)) : Prop where
  indexed : q.Indexed
  fresh : ∀ m, Known start h m → m.id < q.nextId
  queued : ∀ m ∈ q.byWhen, Known start h m
  invoked : ∀ m, .invoked m ∈ h → Known start h m ∧ m.when_ ≤ t
  standing : ∀ m, Known start h m → Standing (running = some m) (m ∈ q.byWhen)
    (Withdrawn start h m) True (h.count (.invoked m))
  ordered : (invocations epoch h).Pairwise fun x y => Queue.Precedes x.1 y.1
  timed : ∀ x ∈ invocations epoch h, x.2 = x.1.when_
  /-- What was invoked comes before everything that waits. -/
  behind : ∀ m, .invoked m ∈ h → ∀ x ∈ q.byWhen, running ≠ some x → Queue.Precedes m x
  past : running ≠ none → ∀ m, .invoked m ∈ h → m.when_ ≤ now
  started : ∀ m, running = some m → Known start h m

namespace Served

variable {t epoch now now' : Int} {start : List (Msg P)} {running : Option (Msg P)}
  {q q' : Queue P} {h : List (Event P)} {e : Event P}

theorem init (hq : q.Indexed) : Served t epoch q.byWhen none now q [] where
  indexed := hq
  fresh m hm := hq.fresh m (hm.resolve_right (by simp [Created]))
  queued m hm := Or.inl hm
  invoked := by simp
  standing m hm := by
    refine .pending (by simp) (hm.resolve_right (by simp [Created])) (by simp) ?_ trivial
    simp [Withdrawn]
  ordered := by simp [invocations]
  timed := by simp [invocations]
  behind := by simp
  past := by simp
  started := by simp

/-- An event that creates and invokes nothing, and takes out of the queue what it removes. -/
theorem remove (hS : Served t epoch start running now q h) (hs : ∀ m, e ≠ .sent m)
    (ht : ∀ m, e ≠ .timerSet m) (hi : ∀ m, e ≠ .invoked m) (hq' : q'.Indexed)
    (hmem : ∀ m, m ∈ q'.byWhen ↔ m ∈ q.byWhen ∧ ¬ e.Removes m) (hnext : q'.nextId = q.nextId)
    (hown : ∀ m, running = some m → ¬ e.Removes m) (hnow : running ≠ none → now' = now) :
    Served t epoch start running now' q' (h ++ [e]) := by
  have hknown : ∀ m, Known start (h ++ [e]) m ↔ Known start h m :=
    fun m => known_snoc_iff (hs m) (ht m)
  have hinv : ∀ m, .invoked m ∈ h ++ [e] ↔ .invoked m ∈ h := fun m => by simp [(hi m).symm]
  constructor
  · exact hq'
  · exact fun m hm => hnext ▸ hS.fresh m ((hknown m).mp hm)
  · exact fun m hm => (hknown m).mpr (hS.queued m ((hmem m).mp hm).1)
  · intro m hm
    obtain ⟨hk, hw⟩ := hS.invoked m ((hinv m).mp hm)
    exact ⟨hk.snoc e, hw⟩
  · intro m hm
    have hk := (hknown m).mp hm
    rw [count_snoc_of_ne (hi m), hmem, withdrawn_snoc]
    by_cases hrem : e.Removes m
    · refine (hS.standing m hk).withdraw (fun hr => hown m hr hrem) (fun h' => h'.2 hrem) ?_
      simp [hk, hrem, List.count_eq_zero]
    · simpa [hrem] using hS.standing m hk
  · rw [invocations_snoc hi]
    exact hS.ordered
  · rw [invocations_snoc hi]
    exact hS.timed
  · exact fun m hm x hx hr => hS.behind m ((hinv m).mp hm) x ((hmem x).mp hx).1 hr
  · intro hr m hm
    rw [hnow hr]
    exact hS.past hr m ((hinv m).mp hm)
  · exact fun m hm => (hS.started m hm).snoc e

/-- A handler creates an entry, not before the current time. -/
theorem create (hS : Served t epoch start running now q h) {f t' : Option P} {w : Int} {m : Msg P}
    (hm : m = ⟨q.nextId, f, t', w⟩) (he : e = .sent m ∨ e = .timerSet m)
    (hrun : running ≠ none) (hw : now ≤ w) :
    Served t epoch start running now (q.emplace f t' w).2 (h ++ [e]) := by
  have hid : m.id = q.nextId := by rw [hm]
  have hwhen : m.when_ = w := by rw [hm]
  have hnew : ¬ Known start h m := fun hk => by
    have := hS.fresh m hk
    omega
  have hi : ∀ x, e ≠ .invoked x := by rcases he with rfl | rfl <;> simp
  have hrem : ∀ x, ¬ e.Removes x := by rcases he with rfl | rfl <;> simp [Event.Removes]
  have hinv : ∀ x, .invoked x ∈ h ++ [e] ↔ .invoked x ∈ h := fun x => by simp [(hi x).symm]
  have hknown : ∀ x, Known start (h ++ [e]) x ↔ x = m ∨ Known start h x := by
    intro x
    unfold Known Created
    rcases he with rfl | rfl
    · simp only [List.mem_append, List.mem_singleton, Event.sent.injEq, reduceCtorEq, or_false]
      tauto
    · simp only [List.mem_append, List.mem_singleton, Event.timerSet.injEq, reduceCtorEq, or_false]
      tauto
  have hwith : ∀ x, Withdrawn start (h ++ [e]) x ↔ Withdrawn start h x := fun x => by
    simp [withdrawn_snoc, hrem]
  have hmem : ∀ x, x ∈ (q.emplace f t' w).2.byWhen ↔ x = m ∨ x ∈ q.byWhen := by
    intro x
    rw [hm]
    exact Queue.mem_insertWhen
  constructor
  · exact hS.indexed.emplace f t' w
  · intro x hx
    rw [Queue.emplace_nextId]
    rcases (hknown x).mp hx with rfl | hx
    · omega
    · exact (hS.fresh x hx).trans (Nat.lt_succ_self _)
  · exact fun x hx => (hknown x).mpr (((hmem x).mp hx).imp id (hS.queued x))
  · intro x hx
    obtain ⟨hk, hle⟩ := hS.invoked x ((hinv x).mp hx)
    exact ⟨hk.snoc e, hle⟩
  · intro x hx
    rw [count_snoc_of_ne (hi x), hwith, hmem]
    rcases (hknown x).mp hx with rfl | hk
    · refine .pending (fun hr => hnew (hS.started x hr)) (Or.inl rfl) ?_ ?_ trivial
      · exact List.count_eq_zero.mpr fun h' => hnew (hS.invoked x h').1
      · exact fun h' => hnew h'.known
    · have hne : x ≠ m := fun h' => hnew (h' ▸ hk)
      simpa [hne] using hS.standing x hk
  · rw [invocations_snoc hi]
    exact hS.ordered
  · rw [invocations_snoc hi]
    exact hS.timed
  · intro y hy x hx hr
    have hy' := (hinv y).mp hy
    rcases (hmem x).mp hx with rfl | hx
    · -- the new entry is due no earlier than the handler runs, and it is the youngest
      have hle := hS.past hrun y hy'
      have hlt := hS.fresh y (hS.invoked y hy').1
      unfold Queue.Precedes
      omega
    · exact hS.behind y hy' x hx hr
  · exact fun hr x hx => hS.past hr x ((hinv x).mp hx)
  · exact fun x hx => (hS.started x hx).snoc e

/-- The first entry of the queue is due and is invoked, when the clock has been set to its time. -/
theorem invoke (hS : Served t epoch start none now q h) {m : Msg P} {rest : List (Msg P)}
    (hq : q.byWhen = m :: rest) (hdue : m.when_ ≤ t)
    (hclock : invocations epoch (h ++ [.invoked m]) = invocations epoch h ++ [(m, m.when_)]) :
    Served t epoch start (some m) m.when_ q (h ++ [.invoked m]) := by
  have hm : m ∈ q.byWhen := by simp [hq]
  have hk := hS.queued m hm
  have hsorted := hS.indexed.sorted
  rw [hq] at hsorted
  have hknown : ∀ x, Known start (h ++ [.invoked m]) x ↔ Known start h x :=
    fun x => known_snoc_iff (by simp) (by simp)
  have hinv : ∀ x, .invoked x ∈ h ++ [.invoked m] ↔ .invoked x ∈ h ∨ x = m := fun x => by simp
  have hwith : ∀ x, Withdrawn start (h ++ [.invoked m]) x ↔ Withdrawn start h x := fun x => by
    simp [withdrawn_snoc, Event.Removes]
  have hbefore : ∀ y, .invoked y ∈ h → Queue.Precedes y m :=
    fun y hy => hS.behind y hy m hm (by simp)
  have hobs : ∀ x ∈ invocations epoch h, .invoked x.1 ∈ h :=
    fun x hx => (mem_invocations epoch).mp (List.mem_map_of_mem hx)
  constructor
  · exact hS.indexed
  · exact fun x hx => hS.fresh x ((hknown x).mp hx)
  · exact fun x hx => (hknown x).mpr (hS.queued x hx)
  · intro x hx
    rw [hknown]
    rcases (hinv x).mp hx with hx | rfl
    · exact hS.invoked x hx
    · exact ⟨hk, hdue⟩
  · intro x hx
    rw [hwith]
    have hst := hS.standing x ((hknown x).mp hx)
    by_cases hxm : x = m
    · subst hxm
      cases hst with
      | pending _ hq hc hg _ => exact .handling rfl hq (by simp [hc]) hg
      | handling hr => cases hr
      | invoked _ hq => exact absurd hm hq
      | gone _ hq => exact absurd hm hq
    · rw [count_snoc_of_ne (by simp [Ne.symm hxm])]
      exact hst.starts hxm
  · rw [hclock]
    refine List.pairwise_append.mpr ⟨hS.ordered, List.pairwise_singleton _ _, fun x hx y hy => ?_⟩
    rw [List.mem_singleton.mp hy]
    exact hbefore x.1 (hobs x hx)
  · rw [hclock]
    intro x hx
    rcases List.mem_append.mp hx with hx | hx
    · exact hS.timed x hx
    · rw [List.mem_singleton.mp hx]
  · intro y hy x hx hr
    rcases (hinv y).mp hy with hy | rfl
    · exact hS.behind y hy x hx (by simp)
    · rw [hq] at hx
      rcases List.mem_cons.mp hx with rfl | hx
      · exact absurd rfl hr
      · exact (List.pairwise_cons.mp hsorted).1 x hx
  · intro _ y hy
    rcases (hinv y).mp hy with hy | rfl
    · have := hbefore y hy
      unfold Queue.Precedes at this
      omega
    · exact le_rfl
  · rintro x ⟨⟩
    exact hk.snoc _

/-- The handler returned and its entry is erased. -/
theorem finish {m : Msg P} (hS : Served t epoch start (some m) now q h) (hq' : q'.Indexed)
    (hwhen : q'.byWhen = q.byWhen.erase m) (hnext : q'.nextId = q.nextId) :
    Served t epoch start none now' q' h := by
  have hmem : ∀ x, x ∈ q'.byWhen ↔ x ≠ m ∧ x ∈ q.byWhen := by
    intro x
    rw [hwhen, hS.indexed.nodup.mem_erase_iff]
  refine ⟨hq', fun x hx => hnext ▸ hS.fresh x hx, fun x hx => hS.queued x ((hmem x).mp hx).2,
    hS.invoked, fun x hx => (hS.standing x hx).returns (hmem x), hS.ordered, hS.timed,
    fun y hy x hx _ => ?_, by simp, by simp⟩
  obtain ⟨hxm, hxq⟩ := (hmem x).mp hx
  exact hS.behind y hy x hxq fun h' => hxm (Option.some.inj h').symm

end Served

/-! ## The call -/

/-- The call `step_until(t)` made in the state `net₀` has come to the state `net`. -/
def Serves (t : Int) (net₀ : Net P) (running : Option (Msg P)) (net : Net P) : Prop :=
  ∃ h, net.history = net₀.history ++ h ∧
    Served t net₀.now net₀.queue.byWhen running net.now net.queue h

namespace Serves

variable {t : Int} {net₀ net net' : Net P} {running : Option (Msg P)} {m : Msg P}

/-- One event is recorded. -/
theorem snoc {h : List (Event P)} {e : Event P} (hh : net.history = net₀.history ++ h)
    (hh' : net'.history = net.history ++ [e])
    (hS : Served t net₀.now net₀.queue.byWhen running net'.now net'.queue (h ++ [e])) :
    Serves t net₀ running net' :=
  ⟨h ++ [e], by rw [hh', hh, List.append_assoc], hS⟩

theorem effect {op : Op P} (h : Serves t net₀ (some m) net)
    (hp : punctual.op net (some m) op = true) (he : Net.Effect net op net') :
    Serves t net₀ (some m) net' := by
  obtain ⟨h, hh, hS⟩ := h
  have hidx := he.indexed hS.indexed
  obtain ⟨htimely, hown⟩ := Bool.and_eq_true_iff.mp hp
  cases he with
  | refused => exact ⟨h, hh, hS⟩
  | connected hne hab hba hqueue hnow hhistory hlink =>
    refine snoc hh hhistory ?_
    rw [hqueue]
    exact hS.remove (by simp) (by simp) (by simp) hS.indexed (by simp [Event.Removes]) rfl
      (by simp [Event.Removes]) fun _ => hnow
  | disconnected hne hab hba hindexed hbyWhen hnextId hnow hhistory hlink =>
    refine snoc hh hhistory ?_
    refine hS.remove (by simp) (by simp) (by simp) hidx (fun x => ?_) hnextId ?_ fun _ => hnow
    · rw [hbyWhen, List.mem_filter, decide_eq_true_eq]
      rfl
    · simpa [Event.Removes] using hown
  | @sent a b l hl =>
    refine snoc hh rfl ?_
    have hdue : net.now ≤ plus net.now l.delay := by
      simpa [timely, hl] using htimely
    exact hS.create rfl (Or.inl rfl) (by simp) hdue
  | timerSet w hop =>
    refine snoc hh rfl ?_
    have hw : net.now ≤ w := by
      rcases hop with rfl | ⟨d, rfl, rfl⟩
      · simpa [timely] using htimely
      · simpa [timely] using htimely
    exact hS.create rfl (Or.inr rfl) (by simp) hw
  | @cancelled x q hmem hindexed hbyWhen hnextId =>
    refine snoc hh rfl ?_
    refine hS.remove (by simp) (by simp) (by simp) hidx (fun y => ?_) hnextId ?_ fun _ => rfl
    · change y ∈ q.byWhen ↔ _
      rw [hbyWhen, hS.indexed.nodup.mem_erase_iff, and_comm]
      exact and_congr_right fun _ => not_congr eq_comm
    · rintro y ⟨⟩ (hxm : x = m)
      simp [hxm] at hown

theorem setClock (h : Serves t net₀ none net) (time : Int) :
    Serves t net₀ none (net.setClock time) := by
  obtain ⟨h, hh, hS⟩ := h
  exact snoc hh rfl (hS.remove (by simp) (by simp) (by simp) hS.indexed
    (by simp [Event.Removes, Net.setClock, Net.record]) rfl (by simp [Event.Removes]) (by simp))

theorem start {rest : List (Msg P)} (h : Serves t net₀ none net)
    (hq : net.queue.byWhen = m :: rest) (hdue : m.when_ ≤ t) :
    Serves t net₀ (some m) ((net.setClock m.when_).record (.invoked m)) := by
  obtain ⟨h, hh, hS⟩ := h
  have hclock : Served t net₀.now net₀.queue.byWhen none m.when_ net.queue
      (h ++ [.clockSet net.now m.when_]) :=
    hS.remove (by simp) (by simp) (by simp) hS.indexed (by simp [Event.Removes]) rfl
      (by simp [Event.Removes]) (by simp)
  have hhistory : (net.setClock m.when_).history =
      net₀.history ++ (h ++ [.clockSet net.now m.when_]) := by
    simp [Net.setClock, Net.record, hh]
  refine snoc hhistory rfl (hclock.invoke hq hdue ?_)
  rw [invocations_delivery, invocations_snoc (by simp)]

theorem finish (h : Serves t net₀ (some m) net) :
    Ends (net.erase m) (Serves t net₀ none) (fun _ => True) := by
  obtain ⟨h, hh, hS⟩ := h
  refine (Net.erase_effect hS.indexed m).mono ?_ fun _ _ => trivial
  rintro _ ⟨-, q, rfl, hidx, hwhen, hnext⟩
  exact ⟨h, hh, hS.finish hidx hwhen hnext⟩

theorem stepOne {rest : List (Msg P)} (h : Serves t net₀ none net) (handler : Handler P)
    (hq : net.queue.byWhen = m :: rest) (hdue : m.when_ ≤ t) :
    Ends (Net.stepOne punctual handler net) (fun r => Serves t net₀ none r.2) (fun _ => True) := by
  unfold Net.stepOne
  rw [hq]
  refine (ends_foldlM _ (fun op _ n hn => ?_) (h.start hq hdue)).bind fun n hn => ?_
  · unfold Net.request
    split
    · rename_i hp
      have hidx := hn.choose_spec.2.indexed
      cases ha : n.apply op with
      | ok n' => exact hn.effect hp ((Net.apply_effect hidx op).of_ok ha)
      | error e => trivial
    · trivial
  · exact hn.finish.bind fun _ h' => h'

/-- The loop delivers until nothing is due. -/
theorem stepDue (h : Serves t net₀ none net) (handlers : List (Handler P))
    (hdue : net.due t = true) :
    Ends (Net.stepDue punctual t handlers net) (fun n => Serves t net₀ none n ∧ n.due t = false)
      (fun _ => True) := by
  induction handlers generalizing net with
  | nil => trivial
  | cons handler handlers ih =>
    rw [Net.stepDue_cons]
    cases hq : net.queue.byWhen with
    | nil => simp [Net.due, hq] at hdue
    | cons m rest =>
      have hm : m.when_ ≤ t := by simpa [Net.due, hq] using hdue
      refine (h.stepOne handler hq hm).bind fun r hr => ?_
      split
      · rename_i hdue'
        exact ih hr hdue'
      · rename_i hdue'
        exact ⟨hr, by simpa using hdue'⟩

theorem stepUntil {r : Bool} {handlers : List (Handler P)} (hq : net.queue.Indexed)
    (hstep : Net.stepUntil punctual t handlers net = .ok (r, net')) :
    Serves t net none net' ∧ net'.due t = false ∧ net'.now = t ∧
      r = decide (net'.queue.byWhen ≠ []) := by
  have hinit : Serves t net none net := ⟨[], by simp, Served.init hq⟩
  have hloop : Ends (if net.due t then Net.stepDue punctual t handlers net else pure net)
      (fun n => Serves t net none n ∧ n.due t = false) (fun _ => True) := by
    split
    · rename_i hdue
      exact hinit.stepDue handlers hdue
    · rename_i hdue
      exact ⟨hinit, by simpa using hdue⟩
  have hend := hloop.bind (f := fun n => pure (decide (n.queue.byWhen ≠ []), n.setClock t))
    (Q := fun r => Serves t net none r.2 ∧ r.2.due t = false ∧ r.2.now = t ∧
      r.1 = decide (r.2.queue.byWhen ≠ [])) fun n hn => ⟨hn.1.setClock t, hn.2, rfl, rfl⟩
  rw [Net.stepUntil_eq] at hstep
  exact hend.of_ok hstep

end Serves

/-- When the first entry is not due, nothing is. -/
theorem Net.due_eq_false {net : Net P} {t : Int} (hq : net.queue.Indexed) :
    net.due t = false ↔ ∀ m ∈ net.queue.byWhen, t < m.when_ := by
  unfold Net.due
  cases hw : net.queue.byWhen with
  | nil => simp
  | cons m rest =>
    have hhead := OnTime.head_le hq hw
    rw [hw] at hhead
    constructor
    · intro h x hx
      have hlate : t < m.when_ := by simpa using h
      exact hlate.trans_le (hhead x hx)
    · intro h
      simpa using h m List.mem_cons_self

/-- `step_until(t)` delivers what is due. From every state, when the call returns, it has invoked
exactly the entries due at `t` that were pending before it or created in it and were not
withdrawn before their turn: each once, by time and among equal times by age, with `now()` at the
time of the entry. Afterwards everything pending is later than `t`, the clock shows `t`, and the
result says whether anything is pending. -/
theorem stepUntil_serves {net net' : Net P} (h : Reach none net) {t : Int}
    {handlers : List (Handler P)} {r : Bool}
    (hstep : Net.stepUntil punctual t handlers net = .ok (r, net')) :
    ∃ H, net'.history = net.history ++ H ∧
      (∀ m, m ∈ (invocations net.now H).map Prod.fst ↔ m.when_ ≤ t ∧
        (m ∈ net.queue.byWhen ∨ Created H m) ∧ ¬ Withdrawn net.queue.byWhen H m) ∧
      ((invocations net.now H).map Prod.fst).Nodup ∧
      ((invocations net.now H).Pairwise fun x y => Queue.Precedes x.1 y.1) ∧
      (∀ x ∈ invocations net.now H, x.2 = x.1.when_) ∧
      (∀ m ∈ net'.queue.byWhen, t < m.when_) ∧ net'.now = t ∧
      (r = true ↔ net'.queue.byWhen ≠ []) := by
  obtain ⟨⟨H, hH, hS⟩, hdue, hnow, hr⟩ := Serves.stepUntil h.paired.indexed hstep
  have hlate := (Net.due_eq_false hS.indexed).mp hdue
  refine ⟨H, hH, fun m => ?_, ?_, hS.ordered, hS.timed, hlate, hnow, by simp [hr]⟩
  · rw [mem_invocations]
    constructor
    · intro hm
      obtain ⟨hk, hw⟩ := hS.invoked m hm
      have hpos : 0 < H.count (.invoked m) := List.count_pos_iff.mpr hm
      refine ⟨hw, hk, ?_⟩
      cases hS.standing m hk with
      | pending _ _ hc => omega
      | handling hr => cases hr
      | invoked _ _ _ hg => exact hg
      | gone _ _ hc => omega
    · rintro ⟨hw, hk, hg⟩
      cases hS.standing m hk with
      | pending _ hq =>
        have := hlate m hq
        omega
      | handling hr => cases hr
      | invoked _ _ hc => exact List.count_pos_iff.mp (by omega)
      | gone _ _ _ hg' => exact absurd hg' hg
  · rw [List.nodup_iff_pairwise_ne, List.pairwise_map]
    refine hS.ordered.imp fun hxy heq => ?_
    rw [heq] at hxy
    unfold Queue.Precedes at hxy
    omega

/-- Two timers are due at once; the handler of the first cancels the second and sets a third for
the same time, and a fourth for later. -/
theorem stepUntil_serves_cancel :
    ∃ (net net' : Net Nat) (H : List (Event Nat)),
      Net.run anything [.op (.timerAt 5), .op (.timerAt 5)] (Net.new 0) = .ok net ∧
      Net.stepUntil punctual 7 [fun _ _ => [.cancel ⟨1, none, none, 5⟩, .timerAfter 0,
        .timerAt 9], fun _ _ => []] net = .ok (true, net') ∧
      net'.history = net.history ++ H ∧ invocations net.now H =
        [(⟨0, none, none, 5⟩, 5), (⟨2, none, none, 5⟩, 5)] ∧
      ∀ m ∈ net'.queue.byWhen, 7 < m.when_ := by
  obtain ⟨net, net', hrun, hstep, hcreated⟩ : ∃ net net' : Net Nat,
      Net.run anything [.op (.timerAt 5), .op (.timerAt 5)] (Net.new 0) = .ok net ∧
      Net.stepUntil punctual 7 [fun _ _ => [.cancel ⟨1, none, none, 5⟩, .timerAfter 0,
        .timerAt 9], fun _ _ => []] net = .ok (true, net') ∧
      net'.history = net.history ++ [.clockSet 0 5, .invoked ⟨0, none, none, 5⟩,
        .cancelled ⟨1, none, none, 5⟩, .timerSet ⟨2, none, none, 5⟩, .timerSet ⟨3, none, none, 9⟩,
        .clockSet 5 5, .invoked ⟨2, none, none, 5⟩, .clockSet 5 7] :=
    ⟨_, _, rfl, rfl, rfl⟩
  have hreach : Reach none net := ((reach_preserved anything).run _ (.new 0)).of_ok hrun
  obtain ⟨H, hH, -, -, -, -, hlate, -⟩ := stepUntil_serves hreach hstep
  have hlog := List.append_cancel_left (hH.symm.trans hcreated)
  refine ⟨net, net', H, hrun, hstep, hH, ?_, hlate⟩
  rw [hlog]
  rfl

end Metcalfe.Network
