import Metcalfe.Network.Queue

/-!
# The indexes of the message queue over whole runs

`queue_type` by itself, with any sequence of `emplace`, `erase` and `remove`. Both ends of a message
and both arguments of `remove` may be peers that test false: such a message is in fewer lists, and
`by_to_` of such a peer is empty. As long as only entries of the queue are erased, every operation
succeeds and the three indexes agree (`indexes_agree`).
-/

namespace Metcalfe.Network.Queue

variable {P : Type} [DecidableEq P]

/-- One of the two loops of `remove` for any two peers. -/
def removeLoopAny (q : Queue P) (from_ to_ : Option P) : Option (Queue P) :=
  (to_.elim [] q.byTo).foldlM (fun q m => if m.from_ = from_ then q.erase m else some q) q

/-- `queue_type::remove` for any two peers. -/
def removeAny (q : Queue P) (from_ to_ : Option P) : Option (Queue P) := do
  let q ← q.removeLoopAny from_ to_
  q.removeLoopAny to_ from_

/-- With two peers it is the `remove` that `disconnect` calls. -/
theorem removeAny_some (q : Queue P) (a b : P) : q.removeAny (some a) (some b) = q.remove a b :=
  rfl

inductive Op (P : Type) where
  | emplace (from_ to_ : Option P) (when_ : Int)
  | erase (m : Msg P)
  | remove (from_ to_ : Option P)

/-- An operation on the queue. The messages that `emplace` made are kept in their order. -/
def apply (s : Queue P × List (Msg P)) : Op P → Option (Queue P × List (Msg P))
  | .emplace from_ to_ when_ =>
    let (m, q) := s.1.emplace from_ to_ when_
    some (q, s.2 ++ [m])
  | .erase m => do
    let q ← s.1.erase m
    some (q, s.2)
  | .remove from_ to_ => do
    let q ← s.1.removeAny from_ to_
    some (q, s.2)

def runOps (ops : List (Op P)) : Option (Queue P × List (Msg P)) := ops.foldlM apply (new, [])

/-- The indexes agree, and the messages of the queue are among those that were made. -/
structure Tracked (s : Queue P × List (Msg P)) : Prop where
  indexed : s.1.Indexed
  known : ∀ m ∈ s.1.byWhen, m ∈ s.2
  old : ∀ m ∈ s.2, m.id < s.1.nextId
  aged : s.2.Pairwise fun a b => a.id < b.id

omit [DecidableEq P] in
theorem tracked_new : Tracked ((new : Queue P), []) :=
  ⟨indexed_new, by simp [new], by simp, List.Pairwise.nil⟩

theorem Indexed.removeLoopAny {q : Queue P} (h : q.Indexed) (from_ to_ : Option P) :
    ∃ q', q.removeLoopAny from_ to_ = some q' ∧ q'.Indexed ∧ q'.nextId = q.nextId ∧
      q'.byWhen ⊆ q.byWhen := by
  have hnodup : (to_.elim [] q.byTo).Nodup := by
    cases to_ with
    | none => exact List.nodup_nil
    | some p => exact (h.to_ p).nodup
  have hmem : ∀ m ∈ to_.elim [] q.byTo, m ∈ q.byWhen := by
    cases to_ with
    | none => exact fun m hm => absurd hm List.not_mem_nil
    | some p => exact fun m hm => (((h.to_ p).mem m).mp hm).1
  obtain ⟨q', hfold, hq', hnext, hwhen⟩ := h.eraseAll (fun m => m.from_ = from_) hnodup hmem
  exact ⟨q', hfold, hq', hnext, hwhen ▸ List.filter_subset_self _⟩

namespace Tracked

variable {s : Queue P × List (Msg P)}

theorem emplace (h : Tracked s) (from_ to_ : Option P) (when_ : Int) :
    ∃ s', apply s (.emplace from_ to_ when_) = some s' ∧ Tracked s' := by
  refine ⟨((s.1.emplace from_ to_ when_).2, s.2 ++ [(s.1.emplace from_ to_ when_).1]), rfl,
    h.indexed.emplace from_ to_ when_, ?_, ?_, ?_⟩
  · intro m hm
    rcases mem_insertWhen.mp hm with rfl | hm
    · exact List.mem_append_right _ (List.mem_singleton_self _)
    · exact List.mem_append_left _ (h.known m hm)
  · intro m hm
    dsimp only
    rw [emplace_nextId]
    rcases List.mem_append.mp hm with hm | hm
    · exact Nat.lt_succ_of_lt (h.old m hm)
    · rw [List.mem_singleton.mp hm]
      exact Nat.lt_succ_self _
  · refine List.pairwise_append.mpr ⟨h.aged, List.pairwise_singleton _ _, ?_⟩
    intro a ha b hb
    rw [List.mem_singleton.mp hb]
    exact h.old a ha

omit [DecidableEq P] in
/-- What only takes messages away keeps the rest. -/
theorem of_subset (h : Tracked s) {q : Queue P} (hq : q.Indexed) (hnext : q.nextId = s.1.nextId)
    (hsub : q.byWhen ⊆ s.1.byWhen) : Tracked (q, s.2) :=
  ⟨hq, fun m hm => h.known m (hsub hm), fun m hm => hnext ▸ h.old m hm, h.aged⟩

theorem erase (h : Tracked s) {m : Msg P} (hm : m ∈ s.1.byWhen) :
    ∃ s', apply s (.erase m) = some s' ∧ Tracked s' := by
  obtain ⟨q, he, hwhen, hnext⟩ := erase_of_mem hm
  obtain ⟨hq, -, -⟩ := h.indexed.erase he
  refine ⟨(q, s.2), ?_, h.of_subset hq hnext (hwhen ▸ List.erase_subset)⟩
  simp [apply, he]

theorem remove (h : Tracked s) (from_ to_ : Option P) :
    ∃ s', apply s (.remove from_ to_) = some s' ∧ Tracked s' := by
  obtain ⟨q₁, hloop₁, hq₁, hnext₁, hsub₁⟩ := h.indexed.removeLoopAny from_ to_
  obtain ⟨q₂, hloop₂, hq₂, hnext₂, hsub₂⟩ := hq₁.removeLoopAny to_ from_
  refine ⟨(q₂, s.2), ?_, h.of_subset hq₂ (hnext₂.trans hnext₁) (List.Subset.trans hsub₂ hsub₁)⟩
  simp [apply, removeAny, hloop₁, hloop₂]

end Tracked

/-- Every entry that is erased is in the queue at that time. -/
def ErasesPresent (ops : List (Op P)) : Prop :=
  ∀ pre m s, pre ++ [.erase m] <+: ops → runOps pre = some s → m ∈ s.1.byWhen

theorem tracked_runOps {ops : List (Op P)} (h : ErasesPresent ops) :
    ∃ s, runOps ops = some s ∧ Tracked s := by
  induction ops using List.reverseRecOn with
  | nil => exact ⟨_, rfl, tracked_new⟩
  | append_singleton ops op ih =>
    obtain ⟨s, hrun, hs⟩ := ih fun pre m s hpre => h pre m s (hpre.trans (List.prefix_append _ _))
    have hstep : ∃ s', apply s op = some s' ∧ Tracked s' := by
      cases op with
      | emplace from_ to_ when_ => exact hs.emplace from_ to_ when_
      | erase m => exact hs.erase (h ops m s List.prefix_rfl hrun)
      | remove from_ to_ => exact hs.remove from_ to_
    obtain ⟨s', happly, hs'⟩ := hstep
    refine ⟨s', ?_, hs'⟩
    unfold runOps at hrun ⊢
    simp [List.foldlM_append, hrun, happly]

/-- A list of an index in terms of what was made: what is still queued and has that peer. -/
theorem Tracked.list_eq {s : Queue P × List (Msg P)} (h : Tracked s) {l : List (Msg P)}
    {sel : Msg P → Prop} [DecidablePred sel] (hl : s.1.Lists l sel) :
    l = s.2.filter fun m => m ∈ s.1.byWhen ∧ sel m := by
  have : Std.Irrefl fun a b : Msg P => a.id < b.id := ⟨fun _ => lt_irrefl _⟩
  have : Std.Antisymm fun a b : Msg P => a.id < b.id := ⟨fun _ _ hab hba => (hab.asymm hba).elim⟩
  refine hl.aged.eq_of_mem_iff (h.aged.filter _) fun m => ?_
  rw [hl.mem, List.mem_filter, decide_eq_true_eq]
  exact ⟨fun hm => ⟨h.known m hm.1, hm⟩, fun hm => hm.2⟩

theorem Lists.count_eq {q : Queue P} {l : List (Msg P)} {sel : Msg P → Prop} [DecidablePred sel]
    (hl : q.Lists l sel) {m : Msg P} (hm : m ∈ q.byWhen) : l.count m = if sel m then 1 else 0 := by
  rw [hl.nodup.count]
  simp [hl.mem, hm]

/-- After any operations that erase only what is there, each queued message is in `by_when_` once,
once in the list of each of its peers and in no other list; no list holds anything else, and each
list has its messages in the order in which they were made. -/
theorem indexes_agree {ops : List (Op P)} (h : ErasesPresent ops) :
    ∃ q made, runOps ops = some (q, made) ∧
      (∀ m ∈ q.byWhen, q.byWhen.count m = 1) ∧
      (∀ m ∈ q.byWhen, ∀ p, (q.byTo p).count m = if m.to_ = some p then 1 else 0) ∧
      (∀ m ∈ q.byWhen, ∀ p, (q.byFrom p).count m = if m.from_ = some p then 1 else 0) ∧
      (∀ p m, m ∈ q.byTo p ∨ m ∈ q.byFrom p → m ∈ q.byWhen) ∧
      (∀ p, q.byTo p = made.filter fun m => m ∈ q.byWhen ∧ m.to_ = some p) ∧
      (∀ p, q.byFrom p = made.filter fun m => m ∈ q.byWhen ∧ m.from_ = some p) := by
  obtain ⟨⟨q, made⟩, hrun, hs⟩ := tracked_runOps h
  refine ⟨q, made, hrun, fun m hm => List.count_eq_one_of_mem hs.indexed.nodup hm,
    fun m hm p => (hs.indexed.to_ p).count_eq hm, fun m hm p => (hs.indexed.from_ p).count_eq hm,
    ?_, fun p => hs.list_eq (hs.indexed.to_ p), fun p => hs.list_eq (hs.indexed.from_ p)⟩
  rintro p m (hm | hm)
  · exact (((hs.indexed.to_ p).mem m).mp hm).1
  · exact (((hs.indexed.from_ p).mem m).mp hm).1

/-- A message from 1 to 2, a timer, and the message is erased. -/
theorem indexes_agree_erased : ErasesPresent
      [.emplace (some 1) (some 2) 5, .emplace none none 3, .erase ⟨0, some 1, some 2, 5⟩] ∧
    ∃ q made, runOps [.emplace (some 1) (some 2) 5, .emplace none none 3,
        .erase ⟨0, some 1, some 2, 5⟩] = some (q, made) ∧
      ∀ p m, m ∈ q.byTo p ∨ m ∈ q.byFrom p → m ∈ q.byWhen := by
  have herases : ErasesPresent
      [.emplace (some 1) (some 2) 5, .emplace none none 3, .erase ⟨0, some 1, some 2, 5⟩] := by
    rintro pre m s ⟨rest, heq⟩ hrun
    match pre with
    | [] => simp at heq
    | [_] => simp at heq
    | [_, _] =>
      simp only [List.cons_append, List.nil_append, List.cons.injEq, Op.erase.injEq] at heq
      obtain ⟨rfl, rfl, rfl, -⟩ := heq
      cases hrun
      decide
    | _ :: _ :: _ :: _ => simp at heq
  obtain ⟨q, made, hrun, -, -, -, hknown, -⟩ := indexes_agree herases
  exact ⟨herases, q, made, hrun, hknown⟩

end Metcalfe.Network.Queue
