import Metcalfe.Network.Run

/-!
# What an operation can do

`Effect net op net'` lists the outcomes of one operation on a network whose queue is
indexed: everything that changes, and the facts of the state before that made it possible.
`apply_effect` says that an operation ends in one of these outcomes, and that it erases an
absent entry only when a token that is not queued is cancelled. The invariants of runs are
proved by cases on `Effect`; none of them unfolds the operations again.
-/

namespace Metcalfe.Network.Net

open Outcome

variable {P : Type} [LinearOrder P]

/-- The link from `a` to `b`, if there is one. -/
def link (net : Net P) (a b : P) : Option LinkType := (net.links a).find? b

inductive Effect (net : Net P) : Op P → Net P → Prop where
  /-- `connect` or `disconnect` returned false. -/
  | refused (op : Op P) : Effect net op net
  | connected {a b : P} {d : Int} {net' : Net P} (hne : a ≠ b) (hab : net.link a b = none)
      (hba : net.link b a = none) (hqueue : net'.queue = net.queue) (hnow : net'.now = net.now)
      (hhistory : net'.history = net.history ++ [.connected a b])
      (hlink : ∀ x y, net'.link x y = if x = a ∧ y = b then some ⟨false, d⟩
        else if x = b ∧ y = a then some ⟨true, d⟩ else net.link x y) :
      Effect net (.connect a b d) net'
  | disconnected {a b : P} {net' : Net P} (hne : a ≠ b) (hab : net.link a b ≠ none)
      (hba : net.link b a ≠ none) (hindexed : net'.queue.Indexed)
      (hbyWhen : net'.queue.byWhen = net.queue.byWhen.filter fun m => ¬ Queue.Between a b m)
      (hnextId : net'.queue.nextId = net.queue.nextId) (hnow : net'.now = net.now)
      (hhistory : net'.history = net.history ++ [.disconnected a b])
      (hlink : ∀ x y, net'.link x y =
        if x = a ∧ y = b ∨ x = b ∧ y = a then none else net.link x y) :
      Effect net (.disconnect a b) net'
  | sent {a b : P} {l : LinkType} (hlink : net.link a b = some l) :
      Effect net (.send a b)
        ({ net with queue := (net.queue.emplace (some a) (some b) (plus net.now l.delay)).2 }.record
          (.sent ⟨net.queue.nextId, some a, some b, plus net.now l.delay⟩))
  | timerSet {op : Op P} (w : Int)
      (hop : op = .timerAt w ∨ ∃ d, op = .timerAfter d ∧ w = plus net.now d) :
      Effect net op
        ({ net with queue := (net.queue.emplace none none w).2 }.record
          (.timerSet ⟨net.queue.nextId, none, none, w⟩))
  | cancelled {m : Msg P} {q : Queue P} (hmem : m ∈ net.queue.byWhen) (hindexed : q.Indexed)
      (hbyWhen : q.byWhen = net.queue.byWhen.erase m) (hnextId : q.nextId = net.queue.nextId) :
      Effect net (.cancel m) ({ net with queue := q }.record (.cancelled m))

/-- The table after both halves of a link were stored. -/
theorem find?_update_two (links : P → FlatMap P LinkType) (a b : P)
    (ma mb : FlatMap P LinkType) (x y : P) :
    (Function.update (Function.update links a ma) b mb x).find? y =
      if x = b then mb.find? y else if x = a then ma.find? y else (links x).find? y := by
  simp only [Function.update_apply]
  split_ifs <;> rfl

theorem connect_effect (net : Net P) (a b : P) (d : Int) :
    Ends (net.connect a b d) (fun r => Effect net (.connect a b d) r.2) (· = .assertion) := by
  unfold connect
  split
  · exact .refused _
  · rename_i hba
    have hne : a ≠ b := Ne.symm hba
    dsimp only
    split
    · rename_i h
      have hsome : (net.links a).find? b ≠ none := fun hn => by
        rw [(FlatMap.emplace_fst _ _ _).mpr hn] at h
        cases h
      rw [FlatMap.emplace_of_some hsome]
      simp only [Function.update_eq_self, ends_ok]
      exact .refused _
    · rename_i h
      have hab : (net.links a).find? b = none :=
        (FlatMap.emplace_fst _ _ _).mp (by simpa using h)
      rw [Function.update_of_ne hba]
      split
      · rfl
      · rename_i h'
        have hba' : (net.links b).find? a = none :=
          (FlatMap.emplace_fst _ _ _).mp (by simpa using h')
        refine .connected hne hab hba' rfl rfl rfl fun x y => ?_
        change (Function.update (Function.update net.links a _) b _ x).find? y = _
        rw [find?_update_two, FlatMap.emplace_of_none hab, FlatMap.emplace_of_none hba']
        unfold link
        by_cases hxb : x = b
        · subst hxb
          simp [hba]
        · by_cases hxa : x = a
          · subst hxa
            simp [hxb]
          · simp [hxa, hxb]

theorem erase_of_find?_none {m : FlatMap P LinkType} {k : P} (h : m.find? k = none) :
    (m.erase k).2 = m := by
  have hall := FlatMap.search_eq_none_iff.mp h
  obtain ⟨entries, sorted⟩ := m
  simp only [FlatMap.erase, FlatMap.mk.injEq]
  exact List.filter_eq_self.mpr fun e he => by simpa using hall e he

theorem disconnect_effect {net : Net P} (hq : net.queue.Indexed) (a b : P) :
    Ends (net.disconnect a b) (fun r => Effect net (.disconnect a b) r.2) (· = .assertion) := by
  unfold disconnect
  dsimp only
  split
  · rename_i h
    rw [erase_of_find?_none ((FlatMap.erase_fst _ _).mp h)]
    simp only [Function.update_eq_self, ends_ok]
    exact .refused _
  · rename_i h
    have hab : (net.links a).find? b ≠ none := fun hn => h ((FlatMap.erase_fst _ _).mpr hn)
    split
    · rfl
    · rename_i h'
      have hne : a ≠ b := by
        rintro rfl
        refine h' ((FlatMap.erase_fst _ _).mpr ?_)
        simp [FlatMap.find?_erase]
      rw [Function.update_of_ne hne.symm] at h' ⊢
      have hba : (net.links b).find? a ≠ none := fun hn => h' ((FlatMap.erase_fst _ _).mpr hn)
      obtain ⟨q, hrem, hidx, hnext, hwhen⟩ := hq.remove a b
      rw [hrem]
      refine .disconnected hne hab hba hidx hwhen hnext rfl rfl fun x y => ?_
      change (Function.update (Function.update net.links a _) b _ x).find? y = _
      rw [find?_update_two, FlatMap.find?_erase, FlatMap.find?_erase]
      unfold link
      by_cases hxb : x = b
      · subst hxb
        simp [hne.symm]
      · by_cases hxa : x = a
        · subst hxa
          simp [hxb]
        · simp [hxa, hxb]

theorem erase_effect {net : Net P} (hq : net.queue.Indexed) (m : Msg P) :
    Ends (net.erase m)
      (fun net' => m ∈ net.queue.byWhen ∧ ∃ q : Queue P, net' = { net with queue := q } ∧
        q.Indexed ∧ q.byWhen = net.queue.byWhen.erase m ∧ q.nextId = net.queue.nextId)
      (fun e => e = .eraseAbsent ∧ m ∉ net.queue.byWhen) := by
  unfold erase
  cases h : net.queue.erase m with
  | none => exact ⟨rfl, Queue.erase_eq_none_iff.mp h⟩
  | some q =>
    have hmem : m ∈ net.queue.byWhen := by
      by_contra hm
      rw [Queue.erase_eq_none_iff.mpr hm] at h
      cases h
    obtain ⟨hidx, hwhen, hnext⟩ := hq.erase h
    exact ⟨hmem, q, rfl, hidx, hwhen, hnext⟩

theorem apply_effect {net : Net P} (hq : net.queue.Indexed) (op : Op P) :
    Ends (net.apply op) (Effect net op)
      (fun e => e = .eraseAbsent → ∃ m, op = .cancel m ∧ m ∉ net.queue.byWhen) := by
  have habsent : ∀ e : Stop, e = .assertion →
      e = .eraseAbsent → ∃ m, op = .cancel m ∧ m ∉ net.queue.byWhen := by
    rintro e rfl h
    cases h
  cases op with
  | connect a b d =>
    exact ((connect_effect net a b d).mono (fun _ h => h) habsent).bind fun _ h => h
  | disconnect a b =>
    exact ((disconnect_effect hq a b).mono (fun _ h => h) habsent).bind fun _ h => h
  | send a b =>
    simp only [apply, send]
    cases h : (net.links a).find? b with
    | none =>
      rintro ⟨⟩
    | some l => exact .sent h
  | timerAt w => exact .timerSet w (Or.inl rfl)
  | timerAfter d => exact .timerSet _ (Or.inr ⟨d, rfl, rfl⟩)
  | cancel m =>
    refine ((erase_effect hq m).mono (fun _ h => h) fun e h _ => ⟨m, rfl, h.2⟩).bind ?_
    rintro _ ⟨hmem, q, rfl, hidx, hwhen, hnext⟩
    exact .cancelled hmem hidx hwhen hnext

/-- Every outcome keeps the three containers of the queue in agreement. -/
theorem Effect.indexed {net net' : Net P} {op : Op P} (h : Effect net op net')
    (hq : net.queue.Indexed) : net'.queue.Indexed := by
  cases h with
  | refused => exact hq
  | connected _ _ _ hqueue => exact hqueue ▸ hq
  | disconnected _ _ _ hindexed => exact hindexed
  | sent _ => exact hq.emplace _ _ _
  | timerSet w _ => exact hq.emplace _ _ _
  | cancelled _ hindexed => exact hindexed

end Metcalfe.Network.Net
