import Metcalfe.Network.History

/-!
# The books of a run

What has become of every message and timer, read off the history and kept in step with the
queue. An entry is pending, being delivered, delivered, or gone without delivery; `Standing`
has one constructor for each. A message goes by a break of its link, a timer by `cancel`.

`Entries` ties the queue to the history, one lemma for each thing that can happen to it.
`Linkage` does the same for the table of links.
-/

namespace Metcalfe.Network

variable {P : Type} [LinearOrder P]

/-- The state of one entry: whether its handler is running, whether it is queued, whether it
is gone without delivery, what holds as long as it is pending, and how often it was invoked. -/
inductive Standing (running queued gone live : Prop) (count : Nat) : Prop where
  | pending (hr : ¬ running) (hq : queued) (hc : count = 0) (hg : ¬ gone) (hl : live)
  | handling (hr : running) (hq : queued) (hc : count = 1) (hg : ¬ gone)
  | invoked (hr : ¬ running) (hq : ¬ queued) (hc : count = 1) (hg : ¬ gone)
  | gone (hr : ¬ running) (hq : ¬ queued) (hc : count = 0) (hg : gone)

theorem Standing.not_gone {running queued gone live : Prop} {count : Nat}
    (hs : Standing running queued gone live count) (hqueued : queued) : ¬ gone := by
  cases hs with
  | pending _ _ _ hg => exact hg
  | handling _ _ _ hg => exact hg
  | invoked _ hq => exact absurd hqueued hq
  | gone _ hq => exact absurd hqueued hq

omit [LinearOrder P] in
/-- The handler of another entry starts. -/
theorem Standing.starts {m x : Msg P} {queued gone live : Prop} {count : Nat} (hx : x ≠ m)
    (hs : Standing (none = some x) queued gone live count) :
    Standing (some m = some x) queued gone live count := by
  have hne : ¬ (some m = some x) := fun h => hx (Option.some.inj h).symm
  cases hs with
  | pending _ hq hc hg hl => exact .pending hne hq hc hg hl
  | handling hr => cases hr
  | invoked _ hq hc hg => exact .invoked hne hq hc hg
  | gone _ hq hc hg => exact .gone hne hq hc hg

omit [LinearOrder P] in
/-- The handler of `m` returns and `m` leaves the queue. -/
theorem Standing.returns {m x : Msg P} {queued queued' gone live : Prop} {count : Nat}
    (hs : Standing (some m = some x) queued gone live count)
    (hqueued : queued' ↔ x ≠ m ∧ queued) : Standing (none = some x) queued' gone live count := by
  have hne : ¬ (none = some x) := by simp
  cases hs with
  | pending hr hq hc hg hl =>
    exact .pending hne (hqueued.mpr ⟨fun h => hr (h ▸ rfl), hq⟩) hc hg hl
  | handling hr hq hc hg =>
    cases hr
    exact .invoked hne (fun h => (hqueued.mp h).1 rfl) hc hg
  | invoked hr hq hc hg => exact .invoked hne (fun h => hq (hqueued.mp h).2) hc hg
  | gone hr hq hc hg => exact .gone hne (fun h => hq (hqueued.mp h).2) hc hg

/-- An entry is taken out of the queue: it is gone if it was not invoked before. -/
theorem Standing.withdraw {running queued queued' gone gone' live live' : Prop} {count : Nat}
    (hs : Standing running queued gone live count) (hrun : ¬ running) (hqueued : ¬ queued')
    (hgone : gone' ↔ gone ∨ count = 0) : Standing running queued' gone' live' count := by
  cases hs with
  | pending _ _ hc _ _ => exact .gone hrun hqueued hc (hgone.mpr (Or.inr hc))
  | handling hr => exact absurd hr hrun
  | invoked _ _ hc hg =>
    refine .invoked hrun hqueued hc fun h => ?_
    rcases hgone.mp h with h | h
    · exact hg h
    · omega
  | gone _ _ hc hg => exact .gone hrun hqueued hc (hgone.mpr (Or.inl hg))

/-- The standing of a message from `a` to `b`. -/
def MessageStanding (running : Option (Msg P)) (q : Queue P) (h : List (Event P)) (m : Msg P)
    (a b : P) : Prop :=
  Standing (running = some m) (m ∈ q.byWhen) (Dropped h m a b) (Lasting h m a b)
    (h.count (.invoked m))

def TimerStanding (running : Option (Msg P)) (q : Queue P) (h : List (Event P)) (m : Msg P) :
    Prop :=
  Standing (running = some m) (m ∈ q.byWhen) (.cancelled m ∈ h) True (h.count (.invoked m))

/-- The entry was created by `send` or by `timer`. -/
def Created (h : List (Event P)) (m : Msg P) : Prop := .sent m ∈ h ∨ .timerSet m ∈ h

/-- The event by which `send` or `timer` creates the entry. -/
inductive Creates (h : List (Event P)) (m : Msg P) : Event P → Prop where
  | message {a b : P} (hfrom : m.from_ = some a) (hto : m.to_ = some b) (hup : LinkUp h a b) :
    Creates h m (.sent m)
  | timer (hfrom : m.from_ = none) (hto : m.to_ = none) : Creates h m (.timerSet m)

/-- The queue agrees with the history. -/
structure Entries (running : Option (Msg P)) (q : Queue P) (h : List (Event P)) : Prop where
  indexed : q.Indexed
  sentPeers : ∀ m, .sent m ∈ h → m.from_ ≠ none ∧ m.to_ ≠ none
  timerPeers : ∀ m, .timerSet m ∈ h → m.from_ = none ∧ m.to_ = none
  fresh : ∀ m, Created h m → m.id < q.nextId
  queued : ∀ m ∈ q.byWhen, Created h m
  invoked : ∀ m, .invoked m ∈ h → Created h m
  cancelled : ∀ m, .cancelled m ∈ h → Created h m
  message : ∀ m a b, .sent m ∈ h → m.from_ = some a → m.to_ = some b →
    MessageStanding running q h m a b
  timer : ∀ m, .timerSet m ∈ h → TimerStanding running q h m

/-! ## One more event -/

omit [LinearOrder P] in
theorem Created.snoc {h : List (Event P)} {m : Msg P} (e : Event P) (hm : Created h m) :
    Created (h ++ [e]) m :=
  hm.imp (List.mem_append_left _) (List.mem_append_left _)

namespace Creates

variable {h : List (Event P)} {m : Msg P} {e : Event P}

omit [LinearOrder P] in
theorem ne_invoked (he : Creates h m e) (x : Msg P) : e ≠ .invoked x := by
  cases he <;> simp

omit [LinearOrder P] in
theorem ne_cancelled (he : Creates h m e) (x : Msg P) : e ≠ .cancelled x := by
  cases he <;> simp

omit [LinearOrder P] in
theorem not_breaks (he : Creates h m e) (a b : P) : ¬ e.Breaks a b := by
  cases he <;> simp [Event.Breaks]

omit [LinearOrder P] in
theorem created (he : Creates h m e) : Created (h ++ [e]) m := by
  cases he <;> simp [Created]

omit [LinearOrder P] in
/-- Only the one entry is new. -/
theorem created_of_snoc (he : Creates h m e) {x : Msg P} (hx : Created (h ++ [e]) x) :
    Created h x ∨ x = m := by
  unfold Created at hx ⊢
  cases he <;> simp at hx <;> tauto

omit [LinearOrder P] in
theorem sent_of_snoc (he : Creates h m e) {x : Msg P} (hx : .sent x ∈ h ++ [e]) :
    .sent x ∈ h ∨ x = m ∧ e = .sent m ∧
      ∃ a b, m.from_ = some a ∧ m.to_ = some b ∧ LinkUp h a b := by
  cases he with
  | message hfrom hto hup =>
    refine (List.mem_append.mp hx).imp id fun hx => ?_
    cases List.mem_singleton.mp hx
    exact ⟨rfl, rfl, _, _, hfrom, hto, hup⟩
  | timer => exact Or.inl (by simpa using hx)

omit [LinearOrder P] in
theorem timerSet_of_snoc (he : Creates h m e) {x : Msg P} (hx : .timerSet x ∈ h ++ [e]) :
    .timerSet x ∈ h ∨ x = m ∧ m.from_ = none ∧ m.to_ = none := by
  cases he with
  | message => exact Or.inl (by simpa using hx)
  | timer hfrom hto =>
    refine (List.mem_append.mp hx).imp id fun hx => ?_
    cases List.mem_singleton.mp hx
    exact ⟨rfl, hfrom, hto⟩

end Creates

theorem count_snoc_of_ne {h : List (Event P)} {e : Event P} {m : Msg P} (he : e ≠ .invoked m) :
    (h ++ [e]).count (.invoked m) = h.count (.invoked m) := by
  simp [List.count_append, he]

/-- An event that is no delivery of the message and no break of its link changes nothing. -/
theorem MessageStanding.quiet {running : Option (Msg P)} {q q' : Queue P}
    {h : List (Event P)} {e : Event P} {m : Msg P} {a b : P}
    (hs : MessageStanding running q h m a b) (hsent : .sent m ∈ h) (hi : e ≠ .invoked m)
    (hb : ¬ e.Breaks a b) (hq : m ∈ q'.byWhen ↔ m ∈ q.byWhen) :
    MessageStanding running q' (h ++ [e]) m a b := by
  have hdrop : Dropped (h ++ [e]) m a b ↔ Dropped h m a b := by
    simp [dropped_snoc, hb]
  unfold MessageStanding at *
  rw [hq, hdrop, count_snoc_of_ne hi]
  cases hs with
  | pending hr hq hc hg hl =>
    have hup : LinkUp h a b := hl h [] (by simp) hsent
    exact .pending hr hq hc hg (hl.snoc (linkUp_snoc.mpr (Or.inr ⟨hup, hb⟩)))
  | handling hr hq hc hg => exact .handling hr hq hc hg
  | invoked hr hq hc hg => exact .invoked hr hq hc hg
  | gone hr hq hc hg => exact .gone hr hq hc hg

theorem TimerStanding.quiet {running : Option (Msg P)} {q q' : Queue P} {h : List (Event P)}
    {e : Event P} {m : Msg P} (hs : TimerStanding running q h m) (hi : e ≠ .invoked m)
    (hc : e ≠ .cancelled m) (hq : m ∈ q'.byWhen ↔ m ∈ q.byWhen) :
    TimerStanding running q' (h ++ [e]) m := by
  have hcan : .cancelled m ∈ h ++ [e] ↔ .cancelled m ∈ h := by simp [hc.symm]
  unfold TimerStanding at *
  rw [hq, hcan, count_snoc_of_ne hi]
  exact hs

/-- A break of the link takes a pending message out of the queue; a message that was delivered
before is not affected. -/
theorem MessageStanding.broken {running : Option (Msg P)} {q q' : Queue P}
    {h : List (Event P)} {e : Event P} {m : Msg P} {a b : P}
    (hs : MessageStanding running q h m a b) (hsent : .sent m ∈ h) (hi : e ≠ .invoked m)
    (hb : e.Breaks a b) (hr : running ≠ some m) (hq : m ∉ q'.byWhen) :
    MessageStanding running q' (h ++ [e]) m a b := by
  have hdrop : Dropped (h ++ [e]) m a b ↔ Dropped h m a b ∨ h.count (.invoked m) = 0 := by
    simp [dropped_snoc, hb, hsent, List.count_eq_zero]
  unfold MessageStanding at *
  rw [count_snoc_of_ne hi]
  exact hs.withdraw hr hq hdrop

namespace Entries

variable {running : Option (Msg P)} {q : Queue P} {h : List (Event P)}

omit [LinearOrder P] in
theorem created_snoc_iff {e : Event P} {m : Msg P} (hs : e ≠ .sent m) (ht : e ≠ .timerSet m) :
    Created (h ++ [e]) m ↔ Created h m := by
  simp [Created, hs.symm, ht.symm]

/-- An event that creates, delivers, cancels and breaks nothing. -/
theorem quiet (hE : Entries running q h) {e : Event P} (hs : ∀ m, e ≠ .sent m)
    (ht : ∀ m, e ≠ .timerSet m) (hi : ∀ m, e ≠ .invoked m) (hc : ∀ m, e ≠ .cancelled m)
    (hb : ∀ a b, ¬ e.Breaks a b) : Entries running q (h ++ [e]) where
  indexed := hE.indexed
  sentPeers m hm := hE.sentPeers m (by simpa [(hs m).symm] using hm)
  timerPeers m hm := hE.timerPeers m (by simpa [(ht m).symm] using hm)
  fresh m hm := hE.fresh m ((created_snoc_iff (hs m) (ht m)).mp hm)
  queued m hm := (hE.queued m hm).snoc e
  invoked m hm := (hE.invoked m (by simpa [(hi m).symm] using hm)).snoc e
  cancelled m hm := (hE.cancelled m (by simpa [(hc m).symm] using hm)).snoc e
  message m a b hm ha hb' := by
    have hm' : .sent m ∈ h := by simpa [(hs m).symm] using hm
    exact (hE.message m a b hm' ha hb').quiet hm' (hi m) (hb a b) Iff.rfl
  timer m hm :=
    (hE.timer m (by simpa [(ht m).symm] using hm)).quiet (hi m) (hc m) Iff.rfl

/-- A new entry: the message or timer just put into the queue, with an unused address. -/
theorem create (hE : Entries running q h) {f t : Option P} {w : Int} {e : Event P} {m : Msg P}
    (hm : m = ⟨q.nextId, f, t, w⟩) (he : Creates h m e)
    (hrun : ∀ m, running = some m → Created h m) :
    Entries running (q.emplace f t w).2 (h ++ [e]) := by
  have hid : m.id = q.nextId := by rw [hm]
  have hnew : ¬ Created h m := by
    intro hc
    have := hE.fresh m hc
    omega
  have hidle : running ≠ some m := fun hr => hnew (hrun m hr)
  have hmem : ∀ x, x ∈ (q.emplace f t w).2.byWhen ↔ x = m ∨ x ∈ q.byWhen := by
    intro x
    rw [hm]
    exact Queue.mem_insertWhen
  have hold : ∀ x, Created h x → (x ∈ (q.emplace f t w).2.byWhen ↔ x ∈ q.byWhen) := by
    intro x hx
    rw [hmem]
    exact ⟨fun h' => h'.resolve_left fun hxm => hnew (hxm ▸ hx), Or.inr⟩
  have hcount : (h ++ [e]).count (.invoked m) = 0 := by
    rw [count_snoc_of_ne (he.ne_invoked m)]
    exact List.count_eq_zero.mpr fun hi => hnew (hE.invoked m hi)
  constructor
  · exact hE.indexed.emplace f t w
  · intro x hx
    rcases he.sent_of_snoc hx with hx | ⟨rfl, -, a, b, hfrom, hto, -⟩
    · exact hE.sentPeers x hx
    · simp [hfrom, hto]
  · intro x hx
    rcases he.timerSet_of_snoc hx with hx | ⟨rfl, hnone⟩
    · exact hE.timerPeers x hx
    · exact hnone
  · intro x hx
    rw [Queue.emplace_nextId]
    rcases he.created_of_snoc hx with hx | rfl
    · exact (hE.fresh x hx).trans (Nat.lt_succ_self _)
    · omega
  · intro x hx
    rcases (hmem x).mp hx with rfl | hx
    · exact he.created
    · exact (hE.queued x hx).snoc e
  · exact fun x hx => (hE.invoked x (by simpa [(he.ne_invoked x).symm] using hx)).snoc e
  · exact fun x hx => (hE.cancelled x (by simpa [(he.ne_cancelled x).symm] using hx)).snoc e
  · intro x a b hx ha hb
    rcases he.sent_of_snoc hx with hx | ⟨rfl, rfl, a', b', hfrom, hto, hup⟩
    · exact (hE.message x a b hx ha hb).quiet hx (he.ne_invoked x) (he.not_breaks a b)
        (hold x (Or.inl hx))
    · cases ha.symm.trans hfrom
      cases hb.symm.trans hto
      refine .pending hidle ((hmem _).mpr (Or.inl rfl)) hcount ?_ ?_
      · exact fun hd => (dropped_snoc.mp hd).elim (fun hd => hnew (Or.inl hd.sent_mem))
          fun hd => he.not_breaks _ _ hd.1
      · exact lasting_sent (fun hs => hnew (Or.inl hs))
          (linkUp_snoc.mpr (Or.inr ⟨hup, he.not_breaks _ _⟩))
  · intro x hx
    rcases he.timerSet_of_snoc hx with hx | ⟨rfl, -⟩
    · exact (hE.timer x hx).quiet (he.ne_invoked x) (he.ne_cancelled x) (hold x (Or.inr hx))
    · refine .pending hidle ((hmem _).mpr (Or.inl rfl)) hcount (fun hc => ?_) trivial
      exact hnew (hE.cancelled x (by simpa [(he.ne_cancelled x).symm] using hc))

/-- A break of the link between `a` and `b`, which is not the link of the running message. -/
theorem disconnect (hE : Entries running q h) {a b : P} {q' : Queue P} (hq' : q'.Indexed)
    (hwhen : q'.byWhen = q.byWhen.filter fun m => ¬ Queue.Between a b m)
    (hnext : q'.nextId = q.nextId) (hown : ∀ m, running = some m → ¬ Queue.Between a b m) :
    Entries running q' (h ++ [.disconnected a b]) := by
  have hmem : ∀ m, m ∈ q'.byWhen ↔ m ∈ q.byWhen ∧ ¬ Queue.Between a b m := by
    intro m
    simp [hwhen, List.mem_filter]
  have hcreated : ∀ m, Created (h ++ [.disconnected a b]) m ↔ Created h m :=
    fun m => created_snoc_iff (by simp) (by simp)
  constructor
  · exact hq'
  · exact fun m hm => hE.sentPeers m (by simpa using hm)
  · exact fun m hm => hE.timerPeers m (by simpa using hm)
  · exact fun m hm => hnext ▸ hE.fresh m ((hcreated m).mp hm)
  · exact fun m hm => (hcreated m).mpr (hE.queued m ((hmem m).mp hm).1)
  · exact fun m hm => (hcreated m).mpr (hE.invoked m (by simpa using hm))
  · exact fun m hm => (hcreated m).mpr (hE.cancelled m (by simpa using hm))
  · intro m x y hm hx hy
    have hm' : .sent m ∈ h := by simpa using hm
    have hbet : Queue.Between a b m ↔ (Event.disconnected a b).Breaks x y := by
      simp only [Queue.Between, Event.Breaks, hx, hy, Option.some.injEq]
      grind
    by_cases hb : Queue.Between a b m
    · exact (hE.message m x y hm' hx hy).broken hm' (by simp) (hbet.mp hb)
        (fun hr => hown m hr hb) fun hq => ((hmem m).mp hq).2 hb
    · refine (hE.message m x y hm' hx hy).quiet hm' (by simp) (fun h' => hb (hbet.mpr h')) ?_
      rw [hmem]
      exact ⟨fun h' => h'.1, fun h' => ⟨h', hb⟩⟩
  · intro m hm
    have hm' : .timerSet m ∈ h := by simpa using hm
    refine (hE.timer m hm').quiet (by simp) (by simp) ?_
    rw [hmem]
    refine ⟨fun h' => h'.1, fun h' => ⟨h', ?_⟩⟩
    simp [Queue.Between, (hE.timerPeers m hm').1]

/-- A pending timer is cancelled. -/
theorem cancel (hE : Entries running q h) {m : Msg P} {q' : Queue P} (hq' : q'.Indexed)
    (hwhen : q'.byWhen = q.byWhen.erase m) (hnext : q'.nextId = q.nextId)
    (hset : .timerSet m ∈ h) (hi : .invoked m ∉ h) :
    Entries running q' (h ++ [.cancelled m]) := by
  have hmem : ∀ x, x ∈ q'.byWhen ↔ x ≠ m ∧ x ∈ q.byWhen := by
    intro x
    rw [hwhen, hE.indexed.nodup.mem_erase_iff]
  have hcreated : ∀ x, Created (h ++ [.cancelled m]) x ↔ Created h x :=
    fun x => created_snoc_iff (by simp) (by simp)
  have hother : ∀ x, x ≠ m → (x ∈ q'.byWhen ↔ x ∈ q.byWhen) := by
    intro x hx
    rw [hmem]
    exact ⟨fun h' => h'.2, fun h' => ⟨hx, h'⟩⟩
  constructor
  · exact hq'
  · exact fun x hx => hE.sentPeers x (by simpa using hx)
  · exact fun x hx => hE.timerPeers x (by simpa using hx)
  · exact fun x hx => hnext ▸ hE.fresh x ((hcreated x).mp hx)
  · exact fun x hx => (hcreated x).mpr (hE.queued x ((hmem x).mp hx).2)
  · exact fun x hx => (hcreated x).mpr (hE.invoked x (by simpa using hx))
  · intro x hx
    refine (hcreated x).mpr ?_
    rcases List.mem_append.mp hx with hx | hx
    · exact hE.cancelled x hx
    · cases List.mem_singleton.mp hx
      exact Or.inr hset
  · intro x a b hx ha hb
    have hx' : .sent x ∈ h := by simpa using hx
    have hxm : x ≠ m := by
      rintro rfl
      rw [(hE.timerPeers x hset).1] at ha
      cases ha
    exact (hE.message x a b hx' ha hb).quiet hx' (by simp) (by simp [Event.Breaks]) (hother x hxm)
  · intro x hx
    have hx' : .timerSet x ∈ h := by simpa using hx
    by_cases hxm : x = m
    · subst hxm
      have hcount : h.count (.invoked x) = 0 := List.count_eq_zero.mpr hi
      have hr : running ≠ some x := by
        cases hE.timer x hx' with
        | pending hr => exact hr
        | handling _ _ hc => omega
        | invoked hr => exact hr
        | gone hr => exact hr
      refine .gone hr (fun hq => ((hmem x).mp hq).1 rfl) ?_ (by simp)
      rw [count_snoc_of_ne (by simp), hcount]
    · exact (hE.timer x hx').quiet (by simp) (by simp [Ne.symm hxm]) (hother x hxm)

/-- Every entry has a standing, whichever call created it. -/
theorem standing (hE : Entries running q h) {m : Msg P} (hm : Created h m) :
    ∃ gone live, Standing (running = some m) (m ∈ q.byWhen) gone live (h.count (.invoked m)) := by
  rcases hm with hs | ht
  · obtain ⟨ha, hb⟩ := hE.sentPeers m hs
    obtain ⟨a, ha⟩ := Option.ne_none_iff_exists'.mp ha
    obtain ⟨b, hb⟩ := Option.ne_none_iff_exists'.mp hb
    exact ⟨_, _, hE.message m a b hs ha hb⟩
  · exact ⟨_, _, hE.timer m ht⟩

theorem pending_of_queued (hE : Entries none q h) {m : Msg P} (hm : m ∈ q.byWhen) :
    .invoked m ∉ h := by
  rw [← List.count_eq_zero (a := Event.invoked m)]
  obtain ⟨gone, live, hs⟩ := hE.standing (hE.queued m hm)
  cases hs with
  | pending _ _ hc => exact hc
  | handling hr => cases hr
  | invoked _ hq => exact absurd hm hq
  | gone _ _ hc => exact hc

/-- The first entry of the queue is invoked: its handler starts. -/
theorem start (hE : Entries none q h) {m : Msg P} (hm : m ∈ q.byWhen) :
    Entries (some m) q (h ++ [.invoked m]) := by
  have hcount : h.count (.invoked m) = 0 := List.count_eq_zero.mpr (hE.pending_of_queued hm)
  have hcount' : (h ++ [Event.invoked m]).count (Event.invoked m) = 1 := by
    simp [List.count_append, hcount]
  have hcreated : ∀ x, Created (h ++ [.invoked m]) x ↔ Created h x :=
    fun x => created_snoc_iff (by simp) (by simp)
  constructor
  · exact hE.indexed
  · exact fun x hx => hE.sentPeers x (by simpa using hx)
  · exact fun x hx => hE.timerPeers x (by simpa using hx)
  · exact fun x hx => hE.fresh x ((hcreated x).mp hx)
  · exact fun x hx => (hcreated x).mpr (hE.queued x hx)
  · intro x hx
    refine (hcreated x).mpr ?_
    rcases List.mem_append.mp hx with hx | hx
    · exact hE.invoked x hx
    · cases List.mem_singleton.mp hx
      exact hE.queued m hm
  · exact fun x hx => (hcreated x).mpr (hE.cancelled x (by simpa using hx))
  · intro x a b hx ha hb
    have hx' : .sent x ∈ h := by simpa using hx
    have hs := hE.message x a b hx' ha hb
    by_cases hxm : x = m
    · subst hxm
      refine .handling rfl hm hcount' fun hd => ?_
      rcases dropped_snoc.mp hd with hd | ⟨hb, -⟩
      · exact hs.not_gone hm hd
      · exact hb
    · exact (hs.quiet hx' (by simp [Ne.symm hxm]) (by simp [Event.Breaks]) Iff.rfl).starts hxm
  · intro x hx
    have hx' : .timerSet x ∈ h := by simpa using hx
    have hs := hE.timer x hx'
    by_cases hxm : x = m
    · subst hxm
      refine .handling rfl hm hcount' fun hc => ?_
      exact hs.not_gone hm (by simpa using hc)
    · exact (hs.quiet (by simp [Ne.symm hxm]) (by simp) Iff.rfl).starts hxm

/-- The entry being delivered is still queued when its handler returns. -/
theorem running_mem {m : Msg P} (hE : Entries (some m) q h) (hm : Created h m) :
    m ∈ q.byWhen := by
  obtain ⟨gone, live, hs⟩ := hE.standing hm
  cases hs with
  | pending _ hq => exact hq
  | handling _ hq => exact hq
  | invoked hr => exact absurd rfl hr
  | gone hr => exact absurd rfl hr

/-- The handler returned and its entry is erased. -/
theorem finish {m : Msg P} (hE : Entries (some m) q h) {q' : Queue P} (hq' : q'.Indexed)
    (hwhen : q'.byWhen = q.byWhen.erase m) (hnext : q'.nextId = q.nextId) :
    Entries none q' h := by
  have hmem : ∀ x, x ∈ q'.byWhen ↔ x ≠ m ∧ x ∈ q.byWhen := by
    intro x
    rw [hwhen, hE.indexed.nodup.mem_erase_iff]
  exact ⟨hq', hE.sentPeers, hE.timerPeers, fun x hx => hnext ▸ hE.fresh x hx,
    fun x hx => hE.queued x ((hmem x).mp hx).2, hE.invoked, hE.cancelled,
    fun x a b hx ha hb => (hE.message x a b hx ha hb).returns (hmem x),
    fun x hx => (hE.timer x hx).returns (hmem x)⟩

end Entries

/-! ## Links -/

/-- The table holds both halves of every link, with one delay, and agrees with the history. -/
structure Linkage (net : Net P) : Prop where
  twin : ∀ a b l, net.link a b = some l → ∃ l', net.link b a = some l' ∧ l'.delay = l.delay
  up : ∀ a b, net.link a b ≠ none ↔ LinkUp net.history a b

namespace Linkage

variable {net net' : Net P}

/-- The table and its history are left alone. -/
theorem quiet (hL : Linkage net) {e : Event P} (hlink : ∀ a b, net'.link a b = net.link a b)
    (hh : net'.history = net.history ++ [e]) (hj : ∀ a b, ¬ e.Joins a b)
    (hb : ∀ a b, ¬ e.Breaks a b) : Linkage net' where
  twin a b l := by
    rw [hlink, hlink]
    exact hL.twin a b l
  up a b := by
    rw [hlink, hh, linkUp_snoc, hL.up]
    simp [hj, hb]

theorem connect (hL : Linkage net) {a b : P} {d : Int} (hne : a ≠ b)
    (hh : net'.history = net.history ++ [.connected a b])
    (hlink : ∀ x y, net'.link x y = if x = a ∧ y = b then some ⟨false, d⟩
      else if x = b ∧ y = a then some ⟨true, d⟩ else net.link x y) : Linkage net' where
  twin x y l hl := by
    rw [hlink] at hl ⊢
    split at hl
    · rename_i hxy
      obtain ⟨rfl, rfl⟩ := hxy
      cases hl
      exact ⟨⟨true, d⟩, by simp [hne.symm], rfl⟩
    · split at hl
      · rename_i hxy
        obtain ⟨rfl, rfl⟩ := hxy
        cases hl
        exact ⟨⟨false, d⟩, by simp, rfl⟩
      · rename_i h₁ h₂
        have h₁' : ¬ (y = b ∧ x = a) := fun h' => h₁ ⟨h'.2, h'.1⟩
        have h₂' : ¬ (y = a ∧ x = b) := fun h' => h₂ ⟨h'.2, h'.1⟩
        simp only [h₁', h₂', if_false]
        exact hL.twin x y l hl
  up x y := by
    rw [hlink, hh, linkUp_snoc]
    simp only [Event.Joins, Event.Breaks, not_false_eq_true, and_true]
    have := hL.up x y
    split
    · rename_i h₁
      simp [h₁]
    · split
      · rename_i h₂
        simp [h₂]
      · rename_i h₁ h₂
        rw [this]
        grind

theorem disconnect (hL : Linkage net) {a b : P}
    (hh : net'.history = net.history ++ [.disconnected a b])
    (hlink : ∀ x y, net'.link x y =
      if x = a ∧ y = b ∨ x = b ∧ y = a then none else net.link x y) : Linkage net' where
  twin x y l hl := by
    rw [hlink] at hl ⊢
    split at hl
    · cases hl
    · rename_i h₁
      have h₁' : ¬ (y = a ∧ x = b ∨ y = b ∧ x = a) := fun h' => h₁ (by tauto)
      simp only [h₁', if_false]
      exact hL.twin x y l hl
  up x y := by
    rw [hlink, hh, linkUp_snoc]
    simp only [Event.Joins, Event.Breaks, false_or]
    have := hL.up x y
    split
    · rename_i h₁
      simp only [ne_eq, not_true_eq_false, false_iff, not_and, not_not]
      grind
    · rename_i h₁
      rw [this]
      grind

end Linkage

end Metcalfe.Network
