import Metcalfe.Network.Conservation
import Metcalfe.Network.Clock

/-!
# Messages arrive in the order they were sent

Two messages of one direction that are pending at the same time travel over one link, with
one delay: a break of the link would have dropped the first. So the later one is due no
earlier, and insertion is stable; the first is delivered first (`Orderly.ordered`). The
history then says when each was sent and delivered (`delivered_in_order`). All this is so as long as
the times of the messages do not overflow: then a later one may be due before an earlier one
(`overtaken_of_overflow`).
-/

namespace Metcalfe.Network

open Outcome

variable {P : Type} [LinearOrder P]

/-- `careful`, with link delays that are not negative and no time before the current one. -/
def orderly : Policy P where
  op net running op := careful.op net running op &&
    match op with
    | .connect _ _ d => decide (0 ≤ d)
    | .timerAt w => decide (net.now ≤ w)
    | .timerAfter d => decide (net.now ≤ plus net.now d)
    | _ => true
  until_ net time := decide (net.now ≤ time)

/-- `orderly`, and the time of no message overflows. -/
def unwrapped : Policy P where
  op net running op := orderly.op net running op &&
    match op with
    | .send a b => decide (∀ l ∈ net.link a b, Fits (net.now + l.delay))
    | _ => true
  until_ := orderly.until_

/-- The message was dropped by a break of the link between `a` and `b` that happened before
`later` was sent. -/
def DroppedBefore (h : List (Event P)) (m later : Msg P) (a b : P) : Prop :=
  ∃ u e v, h = u ++ e :: v ∧ e.Breaks a b ∧ .sent m ∈ u ∧ .invoked m ∉ u ∧ .sent later ∈ v

/-- Delivery of the later of two messages of one direction, as the history tells it. -/
def InOrder (h : List (Event P)) : Prop :=
  ∀ m₁ m₂ a b, m₁.from_ = some a → m₁.to_ = some b → m₂.from_ = some a → m₂.to_ = some b →
    [Event.sent m₁, Event.sent m₂].Sublist h → .invoked m₂ ∈ h →
      [Event.invoked m₁, Event.invoked m₂].Sublist h ∨ DroppedBefore h m₁ m₂ a b

structure Orderly (epoch : Int) (running : Option (Msg P)) (net : Net P) : Prop where
  books : Books running net
  onTime : OnTime epoch net
  delay : ∀ a b l, net.link a b = some l → 0 ≤ l.delay
  /-- A pending message is due before anything sent over its link from now on. -/
  due : ∀ m ∈ net.queue.byWhen, ∀ a b, m.from_ = some a → m.to_ = some b →
    running = some m ∧ m.when_ ≤ net.now ∨
      ∃ l, net.link a b = some l ∧ m.when_ ≤ net.now + l.delay
  ordered : ∀ m₁ ∈ net.queue.byWhen, ∀ m₂ ∈ net.queue.byWhen, m₁.from_ = m₂.from_ →
    m₁.to_ = m₂.to_ → m₁.from_ ≠ none → m₁.id < m₂.id → m₁.when_ ≤ m₂.when_
  aged : ∀ m₁ m₂, [Event.sent m₁, Event.sent m₂].Sublist net.history → m₁.id < m₂.id
  inOrder : InOrder net.history

/-! ## One more event -/

theorem pair_sublist_snoc {α : Type} {x y e : α} {h : List α} (hs : [x, y].Sublist (h ++ [e])) :
    [x, y].Sublist h ∨ x ∈ h ∧ y = e := by
  obtain ⟨l₁, l₂, heq, h₁, h₂⟩ := List.sublist_append_iff.mp hs
  rcases List.eq_nil_or_concat l₂ with rfl | ⟨l, z, rfl⟩
  · left
    simpa [heq] using h₁
  · right
    have hl : l = [] := by
      have := h₂.length_le
      simpa using this
    subst hl
    simp only [List.concat_eq_append, List.nil_append, List.singleton_sublist,
      List.mem_singleton] at heq h₂
    subst h₂
    have heq' : [x] ++ [y] = l₁ ++ [z] := by simpa using heq
    obtain ⟨h₃, h₄⟩ := List.append_inj' heq' rfl
    cases h₄
    subst h₃
    exact ⟨List.singleton_sublist.mp h₁, rfl⟩

omit [LinearOrder P] in
theorem DroppedBefore.snoc {h : List (Event P)} {m later : Msg P} {a b : P} (e : Event P)
    (hd : DroppedBefore h m later a b) : DroppedBefore (h ++ [e]) m later a b := by
  obtain ⟨u, x, v, rfl, hb, hs, hi, hl⟩ := hd
  exact ⟨u, x, v ++ [e], by simp, hb, hs, hi, List.mem_append_left _ hl⟩

omit [LinearOrder P] in
/-- An event that is no delivery, and no sending of a message already delivered, keeps the
order. -/
theorem InOrder.snoc {h : List (Event P)} {e : Event P} (ho : InOrder h)
    (hi : ∀ m, e ≠ .invoked m) (hs : ∀ m, e = .sent m → .invoked m ∉ h) : InOrder (h ++ [e]) := by
  intro m₁ m₂ a b ha₁ hb₁ ha₂ hb₂ hsent hinv
  have hinv' : .invoked m₂ ∈ h := by simpa [(hi m₂).symm] using hinv
  rcases pair_sublist_snoc hsent with hsent | ⟨-, heq⟩
  · rcases ho m₁ m₂ a b ha₁ hb₁ ha₂ hb₂ hsent hinv' with h' | h'
    · exact Or.inl (h'.trans (List.sublist_append_left _ _))
    · exact Or.inr (h'.snoc e)
  · exact absurd hinv' (hs m₂ heq.symm)

omit [LinearOrder P] in
theorem aged_snoc {h : List (Event P)} {e : Event P}
    (ha : ∀ m₁ m₂, [Event.sent m₁, Event.sent m₂].Sublist h → m₁.id < m₂.id)
    (hnew : ∀ m, e = .sent m → ∀ x, .sent x ∈ h → x.id < m.id) (m₁ m₂ : Msg P)
    (hs : [Event.sent m₁, Event.sent m₂].Sublist (h ++ [e])) : m₁.id < m₂.id := by
  rcases pair_sublist_snoc hs with hs | ⟨hx, heq⟩
  · exact ha m₁ m₂ hs
  · exact hnew m₂ heq.symm m₁ hx

namespace Orderly

variable {epoch : Int} {running : Option (Msg P)} {net net' : Net P}

theorem new (epoch : Int) : Orderly epoch none (Net.new epoch : Net P) where
  books := books_new epoch
  onTime := OnTime.new epoch
  delay := by simp [Net.new, Net.link]
  due := by simp [Net.new, Queue.new]
  ordered := by simp [Net.new, Queue.new]
  aged := by simp [Net.new]
  inOrder := by simp [InOrder, Net.new]

theorem timely_of_unwrapped (h : Orderly epoch running net) {op : Op P}
    (hp : unwrapped.op net running op = true) : timely.op net running op = true := by
  obtain ⟨hp, hfits⟩ := Bool.and_eq_true_iff.mp hp
  cases op with
  | send a b =>
    simp only [timely, decide_eq_true_eq] at hfits ⊢
    intro l hl
    rw [plus_of_fits (hfits l hl)]
    have := h.delay a b l hl
    omega
  | connect a b d => rfl
  | disconnect a b => rfl
  | timerAt w =>
    simp only [orderly, Bool.and_eq_true] at hp
    exact hp.2
  | timerAfter d =>
    simp only [orderly, Bool.and_eq_true] at hp
    exact hp.2
  | cancel m => rfl

/-- The part that is about the queue and the table survives when entries leave the queue and the
links of those that stay are kept. -/
theorem shrink (h : Orderly epoch running net) (running' : Option (Msg P)) (net' : Net P)
    (hmem : ∀ m ∈ net'.queue.byWhen, m ∈ net.queue.byWhen)
    (hrun : ∀ m ∈ net'.queue.byWhen, running = some m → running' = some m)
    (hnow : net.now ≤ net'.now)
    (hlink : ∀ m ∈ net'.queue.byWhen, ∀ a b, m.from_ = some a → m.to_ = some b →
      ∀ l, net.link a b = some l → net'.link a b = some l) :
    (∀ m ∈ net'.queue.byWhen, ∀ a b, m.from_ = some a → m.to_ = some b →
      running' = some m ∧ m.when_ ≤ net'.now ∨
        ∃ l, net'.link a b = some l ∧ m.when_ ≤ net'.now + l.delay) ∧
    (∀ m₁ ∈ net'.queue.byWhen, ∀ m₂ ∈ net'.queue.byWhen, m₁.from_ = m₂.from_ →
      m₁.to_ = m₂.to_ → m₁.from_ ≠ none → m₁.id < m₂.id → m₁.when_ ≤ m₂.when_) := by
  refine ⟨fun m hm a b ha hb => ?_, fun m₁ h₁ m₂ h₂ => h.ordered m₁ (hmem m₁ h₁) m₂ (hmem m₂ h₂)⟩
  rcases h.due m (hmem m hm) a b ha hb with ⟨hr, hw⟩ | ⟨l, hl, hw⟩
  · exact Or.inl ⟨hrun m hm hr, hw.trans hnow⟩
  · exact Or.inr ⟨l, hlink m hm a b ha hb l hl, by omega⟩

/-- A message or timer is put into the queue. -/
theorem create (h : Orderly epoch running net) {f t : Option P} {w : Int} {e : Event P}
    (hB : Books running ({ net with queue := (net.queue.emplace f t w).2 }.record e))
    (hT : OnTime epoch ({ net with queue := (net.queue.emplace f t w).2 }.record e))
    (he : e = .sent ⟨net.queue.nextId, f, t, w⟩ ∧
        (∃ a b l, f = some a ∧ t = some b ∧ net.link a b = some l ∧ w = net.now + l.delay) ∨
      e = .timerSet ⟨net.queue.nextId, f, t, w⟩ ∧ f = none) :
    Orderly epoch running ({ net with queue := (net.queue.emplace f t w).2 }.record e) := by
  have hfresh : ∀ m, Created net.history m → m.id < net.queue.nextId := h.books.entries.fresh
  have hinv : ∀ m, e ≠ .invoked m := by rcases he with ⟨rfl, -⟩ | ⟨rfl, -⟩ <;> simp
  have hsent : ∀ m, e = .sent m → m.id = net.queue.nextId := by
    rcases he with ⟨rfl, -⟩ | ⟨rfl, -⟩
    · rintro m ⟨⟩
      rfl
    · simp
  refine ⟨hB, hT, h.delay, ?_, ?_, ?_, ?_⟩
  · intro m hm a b ha hb
    rcases Queue.mem_insertWhen.mp hm with rfl | hm
    · rcases he with ⟨-, a', b', l, rfl, rfl, hl, rfl⟩ | ⟨-, rfl⟩
      · cases ha
        cases hb
        exact Or.inr ⟨l, hl, le_rfl⟩
      · cases ha
    · exact h.due m hm a b ha hb
  · intro m₁ h₁ m₂ h₂ hf ht hne hid
    rcases Queue.mem_insertWhen.mp h₁ with rfl | hm₁ <;>
      rcases Queue.mem_insertWhen.mp h₂ with rfl | hm₂
    · exact le_rfl
    · have := h.books.entries.indexed.fresh m₂ hm₂
      simp only at hid
      omega
    · rcases he with ⟨-, a, b, l, rfl, rfl, hl, rfl⟩ | ⟨-, rfl⟩
      · -- the new message is due one delay from now, and the delay has not changed
        rcases h.due m₁ hm₁ a b hf ht with ⟨-, hw⟩ | ⟨l', hl', hw⟩
        · have := h.delay a b l hl
          simp only
          omega
        · rw [hl] at hl'
          cases hl'
          exact hw
      · exact absurd hf hne
    · exact h.ordered m₁ hm₁ m₂ hm₂ hf ht hne hid
  · refine aged_snoc h.aged fun m hm x hx => ?_
    rw [hsent m hm]
    exact hfresh x (Or.inl hx)
  · refine h.inOrder.snoc hinv fun m hm hi => ?_
    have := hfresh m (h.books.entries.invoked m hi)
    rw [hsent m hm] at this
    exact lt_irrefl _ this

/-- A link between two peers that had none. -/
theorem connect (h : Orderly epoch running net) {a b : P} {d : Int} (hd : 0 ≤ d)
    (hB : Books running net') (hT : OnTime epoch net') (hab : net.link a b = none)
    (hba : net.link b a = none) (hqueue : net'.queue = net.queue) (hnow : net'.now = net.now)
    (hhistory : net'.history = net.history ++ [.connected a b])
    (hlink : ∀ x y, net'.link x y = if x = a ∧ y = b then some ⟨false, d⟩
      else if x = b ∧ y = a then some ⟨true, d⟩ else net.link x y) :
    Orderly epoch running net' := by
  have hkept : ∀ x y l, net.link x y = some l → net'.link x y = some l := by
    intro x y l hl
    rw [hlink]
    split
    · rename_i hxy
      obtain ⟨rfl, rfl⟩ := hxy
      rw [hab] at hl
      cases hl
    · split
      · rename_i hxy
        obtain ⟨rfl, rfl⟩ := hxy
        rw [hba] at hl
        cases hl
      · exact hl
  obtain ⟨hdue, hord⟩ := h.shrink running net' (by simp [hqueue]) (fun _ _ h' => h') hnow.ge
    (fun _ _ x y _ _ l hl => hkept x y l hl)
  refine ⟨hB, hT, ?_, hdue, hord, ?_, ?_⟩
  · intro x y l hl
    rw [hlink] at hl
    split at hl
    · cases hl
      exact hd
    · split at hl
      · cases hl
        exact hd
      · exact h.delay x y l hl
  · rw [hhistory]
    exact aged_snoc h.aged (by simp)
  · rw [hhistory]
    exact h.inOrder.snoc (by simp) (by simp)

/-- A broken link takes its messages with it. -/
theorem disconnect (h : Orderly epoch running net) {a b : P} (hB : Books running net')
    (hT : OnTime epoch net')
    (hbyWhen : net'.queue.byWhen = net.queue.byWhen.filter fun m => ¬ Queue.Between a b m)
    (hnow : net'.now = net.now) (hhistory : net'.history = net.history ++ [.disconnected a b])
    (hlink : ∀ x y, net'.link x y =
      if x = a ∧ y = b ∨ x = b ∧ y = a then none else net.link x y) :
    Orderly epoch running net' := by
  have hmem : ∀ m ∈ net'.queue.byWhen, m ∈ net.queue.byWhen ∧ ¬ Queue.Between a b m := by
    intro m hm
    rw [hbyWhen, List.mem_filter] at hm
    exact ⟨hm.1, by simpa using hm.2⟩
  have hkept : ∀ m ∈ net'.queue.byWhen, ∀ x y, m.from_ = some x → m.to_ = some y →
      ∀ l, net.link x y = some l → net'.link x y = some l := by
    intro m hm x y hx hy l hl
    rw [hlink, if_neg]
    · exact hl
    · rintro (⟨rfl, rfl⟩ | ⟨rfl, rfl⟩)
      · exact (hmem m hm).2 (Or.inl ⟨hx, hy⟩)
      · exact (hmem m hm).2 (Or.inr ⟨hx, hy⟩)
  obtain ⟨hdue, hord⟩ := h.shrink running net' (fun m hm => (hmem m hm).1) (fun _ _ h' => h')
    hnow.ge hkept
  refine ⟨hB, hT, ?_, hdue, hord, ?_, ?_⟩
  · intro x y l hl
    rw [hlink] at hl
    split at hl
    · cases hl
    · exact h.delay x y l hl
  · rw [hhistory]
    exact aged_snoc h.aged (by simp)
  · rw [hhistory]
    exact h.inOrder.snoc (by simp) (by simp)

theorem effect (h : Orderly epoch running net) {op : Op P}
    (hp : unwrapped.op net running op = true) (he : Net.Effect net op net') :
    Orderly epoch running net' := by
  have hT := h.onTime.effect (h.timely_of_unwrapped hp) he
  obtain ⟨hp, hfits⟩ := Bool.and_eq_true_iff.mp hp
  have hcare : careful.op net running op = true := by
    simp only [orderly, Bool.and_eq_true] at hp
    exact hp.1
  have hB := h.books.effect hcare he
  cases he with
  | refused => exact h
  | @connected a b d net' hne hab hba hqueue hnow hhistory hlink =>
    have hd : 0 ≤ d := by
      simp only [orderly, Bool.and_eq_true, decide_eq_true_eq] at hp
      exact hp.2
    exact h.connect hd hB hT hab hba hqueue hnow hhistory hlink
  | @disconnected a b net' hne hab hba hindexed hbyWhen hnextId hnow hhistory hlink =>
    exact h.disconnect hB hT hbyWhen hnow hhistory hlink
  | @sent a b l hl =>
    simp only [decide_eq_true_eq] at hfits
    exact h.create hB hT (Or.inl ⟨rfl, a, b, l, rfl, rfl, hl, plus_of_fits (hfits l hl)⟩)
  | timerSet w hop => exact h.create hB hT (Or.inr ⟨rfl, rfl⟩)
  | @cancelled m q hmem hindexed hbyWhen hnextId =>
    obtain ⟨hdue, hord⟩ := h.shrink running ({ net with queue := q }.record (.cancelled m))
      (fun x hx => List.mem_of_mem_erase (hbyWhen ▸ hx)) (fun _ _ h' => h') le_rfl
      (fun _ _ _ _ _ _ _ hl => hl)
    exact ⟨hB, hT, h.delay, hdue, hord, aged_snoc h.aged (by simp),
      h.inOrder.snoc (by simp) (by simp)⟩

/-- A move of the clock between deliveries. -/
theorem setClock (h : Orderly epoch none net) {time : Int} (hnow : net.now ≤ time)
    (hT : OnTime epoch (net.setClock time)) : Orderly epoch none (net.setClock time) := by
  obtain ⟨hdue, hord⟩ := h.shrink none (net.setClock time)
    (fun _ hm => hm) (by simp) hnow (fun _ _ _ _ _ _ _ hl => hl)
  exact ⟨h.books.setClock time, hT, h.delay, hdue, hord, aged_snoc h.aged (by simp),
    h.inOrder.snoc (by simp) (by simp)⟩

/-- When a message is first in the queue, each earlier one of its direction was delivered or
was dropped before it was sent. -/
theorem earlier_done (h : Orderly epoch none net) {m₁ m₂ : Msg P} {rest : List (Msg P)} {a b : P}
    (hq : net.queue.byWhen = m₂ :: rest) (ha₁ : m₁.from_ = some a) (hb₁ : m₁.to_ = some b)
    (ha₂ : m₂.from_ = some a) (hb₂ : m₂.to_ = some b)
    (hsent : [Event.sent m₁, Event.sent m₂].Sublist net.history) :
    .invoked m₁ ∈ net.history ∨ DroppedBefore net.history m₁ m₂ a b := by
  have hid := h.aged m₁ m₂ hsent
  have hs₁ : .sent m₁ ∈ net.history := hsent.subset (by simp)
  have hs₂ : .sent m₂ ∈ net.history := hsent.subset (by simp)
  have hq₂ : m₂ ∈ net.queue.byWhen := by simp [hq]
  cases h.books.entries.message m₁ a b hs₁ ha₁ hb₁ with
  | pending _ hq₁ =>
    -- both are queued: the first is due no later and is older, so it precedes the second
    exfalso
    have hw := h.ordered m₁ hq₁ m₂ hq₂ (ha₁.trans ha₂.symm) (hb₁.trans hb₂.symm) (by simp [ha₁]) hid
    have hne : m₁ ≠ m₂ := by
      rintro rfl
      exact lt_irrefl _ hid
    have hsorted := h.books.entries.indexed.sorted
    rw [hq] at hsorted hq₁
    have hrest := (List.mem_cons.mp hq₁).resolve_left hne
    have := (List.pairwise_cons.mp hsorted).1 m₁ hrest
    unfold Queue.Precedes at this
    omega
  | handling hr => cases hr
  | invoked _ _ hc => exact Or.inl (List.count_pos_iff.mp (by omega))
  | gone _ _ _ hg =>
    -- the break came before the second was sent, or it would have dropped the second too
    right
    obtain ⟨u, e, v, huv, hb, hsu, hiu⟩ := hg
    refine ⟨u, e, v, huv, hb, hsu, hiu, ?_⟩
    have hnot : .sent m₂ ∉ u := by
      intro hu
      cases h.books.entries.message m₂ a b hs₂ ha₂ hb₂ with
      | pending _ _ _ _ hl =>
        have hup := hl (u ++ [e]) v (by simp [huv]) (List.mem_append_left _ hu)
        rcases linkUp_snoc.mp hup with hj | ⟨-, hnb⟩
        · exact hj.not_breaks hb
        · exact hnb hb
      | handling hr => cases hr
      | invoked _ hq' => exact hq' hq₂
      | gone _ hq' => exact hq' hq₂
    rw [huv] at hs₂
    rcases List.mem_append.mp hs₂ with hs₂ | hs₂
    · exact absurd hs₂ hnot
    · rcases List.mem_cons.mp hs₂ with rfl | hs₂
      · cases hb
      · exact hs₂

theorem start (h : Orderly epoch none net) {m : Msg P} {rest : List (Msg P)}
    (hq : net.queue.byWhen = m :: rest) :
    Orderly epoch (some m) ((net.setClock m.when_).record (.invoked m)) := by
  have hm : m ∈ net.queue.byWhen := by simp [hq]
  have hnow := h.onTime.ahead m hm
  have hclock := h.setClock hnow (h.onTime.setClock hnow (OnTime.head_le h.onTime.indexed hq))
  obtain ⟨hdue, hord⟩ := hclock.shrink (some m)
    ((net.setClock m.when_).record (.invoked m)) (fun _ hx => hx) (by simp) le_rfl
      (fun _ _ _ _ _ _ _ hl => hl)
  refine ⟨h.books.start hq, h.onTime.start hq, h.delay, hdue, hord,
    aged_snoc hclock.aged (by simp), ?_⟩
  intro m₁ m₂ a b ha₁ hb₁ ha₂ hb₂ hsent hinv
  have hsent' : [Event.sent m₁, Event.sent m₂].Sublist (net.setClock m.when_).history := by
    rcases pair_sublist_snoc hsent with h' | ⟨-, h'⟩
    · exact h'
    · cases h'
  by_cases heq : m₂ = m
  · subst heq
    rcases hclock.earlier_done hq ha₁ hb₁ ha₂ hb₂ hsent' with hi | hd
    · left
      exact List.append_sublist_iff.mpr ⟨_, _, rfl, List.singleton_sublist.mpr hi,
        List.Sublist.refl _⟩
    · exact Or.inr (hd.snoc _)
  · have hinv' : .invoked m₂ ∈ (net.setClock m.when_).history := by
      simpa [Net.record, heq] using hinv
    rcases hclock.inOrder m₁ m₂ a b ha₁ hb₁ ha₂ hb₂ hsent' hinv' with h' | h'
    · exact Or.inl (h'.trans (List.sublist_append_left _ _))
    · exact Or.inr (h'.snoc _)

theorem finish {m : Msg P} (h : Orderly epoch (some m) net) :
    Ends (net.erase m) (Orderly epoch none) (fun _ => True) := by
  have hbooks := h.books.finish
  have htime := h.onTime.finish m
  have heff := Net.erase_effect h.books.entries.indexed m
  cases he : net.erase m with
  | error e => trivial
  | ok net' =>
    obtain ⟨-, q, rfl, hidx, hwhen, -⟩ := heff.of_ok he
    have hmem : ∀ x, x ∈ q.byWhen → x ≠ m ∧ x ∈ net.queue.byWhen := by
      intro x hx
      rw [hwhen] at hx
      exact (h.books.entries.indexed.nodup.mem_erase_iff).mp hx
    obtain ⟨hdue, hord⟩ := h.shrink none { net with queue := q }
      (fun x hx => (hmem x hx).2)
      (fun x hx hr => absurd (Option.some.inj hr).symm (hmem x hx).1) le_rfl
      (fun _ _ _ _ _ _ _ hl => hl)
    exact ⟨hbooks.of_ok he, htime.of_ok he, h.delay, hdue, hord, h.aged, h.inOrder⟩

end Orderly

theorem orderly_preserved (epoch : Int) :
    Net.Preserved (P := P) unwrapped (Orderly epoch) (fun _ => True) where
  op running net op h hp := by
    have happly := Net.apply_effect h.books.entries.indexed op
    cases ha : net.apply op with
    | ok net' => exact h.effect hp (happly.of_ok ha)
    | error e => trivial
  start net m rest h hq := h.start hq
  finish net m h := h.finish
  clock net time h hp hlate := by
    have hnow : net.now ≤ time := hp.elim (by simp [unwrapped, orderly]) id
    exact h.setClock hnow (h.onTime.advance hnow hlate)
  excluded := trivial
  unfinished := trivial

/-- Messages on a connection arrive in the order they were sent. Of two messages from `a` to
`b`, when the one sent later is delivered, the one sent earlier was delivered before it, or was
dropped by a break of the link before the later one was sent. -/
theorem delivered_in_order {epoch : Int} {calls : List (Call P)} {net : Net P}
    (h : Net.run unwrapped calls (Net.new epoch) = .ok net) {m₁ m₂ : Msg P} {a b : P}
    (ha₁ : m₁.from_ = some a) (hb₁ : m₁.to_ = some b) (ha₂ : m₂.from_ = some a)
    (hb₂ : m₂.to_ = some b) (hsent : [Event.sent m₁, Event.sent m₂].Sublist net.history)
    (hinv : .invoked m₂ ∈ net.history) :
    [Event.invoked m₁, Event.invoked m₂].Sublist net.history ∨
      DroppedBefore net.history m₁ m₂ a b :=
  (((orderly_preserved epoch).run calls (Orderly.new epoch)).of_ok h).inOrder m₁ m₂ a b
    ha₁ hb₁ ha₂ hb₂ hsent hinv

/-- Two messages sent at once: the second is delivered after the first. -/
theorem delivered_in_order_pair :
    ∃ net : Net Nat, Net.run unwrapped [.op (.connect 0 1 5), .op (.send 0 1), .op (.send 0 1),
        .step [fun _ _ => [], fun _ _ => []]] (Net.new 0) = .ok net ∧
      ([Event.invoked ⟨0, some 0, some 1, 5⟩, Event.invoked ⟨1, some 0, some 1, 5⟩].Sublist
          net.history ∨
        DroppedBefore net.history ⟨0, some 0, some 1, 5⟩ ⟨1, some 0, some 1, 5⟩ 0 1) := by
  obtain ⟨net, hrun, hsent, hinv⟩ : ∃ net : Net Nat, Net.run unwrapped [.op (.connect 0 1 5),
        .op (.send 0 1), .op (.send 0 1), .step [fun _ _ => [], fun _ _ => []]] (Net.new 0) =
        .ok net ∧
      [Event.sent ⟨0, some 0, some 1, 5⟩, Event.sent ⟨1, some 0, some 1, 5⟩].Sublist net.history ∧
      .invoked ⟨1, some 0, some 1, 5⟩ ∈ net.history :=
    ⟨_, rfl, by decide, by decide⟩
  exact ⟨net, hrun, delivered_in_order hrun rfl rfl rfl rfl hsent hinv⟩

/-- Over a link with the longest delay, a message that is sent at time 1 overtakes the one that was
sent at time 0. -/
theorem overtaken_of_overflow :
    ∃ net : Net Nat, Net.run orderly [.op (.connect 0 1 (2 ^ 63 - 1)), .op (.send 0 1),
        .stepUntil 1 [], .op (.send 0 1), .stepOne fun _ _ => []] (Net.new 0) = .ok net ∧
      ¬ InOrder net.history := by
  obtain ⟨net, hrun, hlog⟩ : ∃ net : Net Nat, Net.run orderly [.op (.connect 0 1 (2 ^ 63 - 1)),
        .op (.send 0 1), .stepUntil 1 [], .op (.send 0 1), .stepOne fun _ _ => []] (Net.new 0) =
        .ok net ∧
      net.history = [.connected 0 1, .sent ⟨0, some 0, some 1, 2 ^ 63 - 1⟩, .clockSet 0 1,
        .sent ⟨1, some 0, some 1, -2 ^ 63⟩, .clockSet 1 (-2 ^ 63),
        .invoked ⟨1, some 0, some 1, -2 ^ 63⟩] :=
    ⟨_, rfl, rfl⟩
  refine ⟨net, hrun, fun h => ?_⟩
  rw [hlog] at h
  rcases h ⟨0, some 0, some 1, 2 ^ 63 - 1⟩ ⟨1, some 0, some 1, -2 ^ 63⟩ 0 1 rfl rfl rfl rfl
    (by decide) (by decide) with hinv | ⟨u, e, v, heq, hbreaks, -⟩
  · exact absurd (hinv.subset List.mem_cons_self) (by decide)
  · have hmem : e ∈ u ++ e :: v := by simp
    rw [← heq] at hmem
    -- no link is broken
    simp only [List.mem_cons, List.not_mem_nil, or_false] at hmem
    rcases hmem with rfl | rfl | rfl | rfl | rfl | rfl <;> exact hbreaks

end Metcalfe.Network
