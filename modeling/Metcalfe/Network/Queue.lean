import Mathlib.Tactic
import Mathlib.Data.List.Sort
import Mathlib.Logic.Function.Basic

/-!
# The message queue

`queue_type` of `BasicNetwork.h`. A message is in three containers at once: the multiset
`by_when_`, ordered by delivery time, and, unless it is a timer, the lists `by_to_[to]` and
`by_from_[from]` of its two peers. `boost::intrusive::multiset::insert` puts an element
after those that compare equal to it.

The containers are intrusive, so erasing an element that is not in the queue is undefined
behaviour; `erase` returns `none` there. `Indexed` says that the three containers agree.
-/

namespace Metcalfe.Network

/-- `msg`. The number stands for the address of the object; addresses are not reused. A
peer that tests false is `none`: both ends of a timer are. -/
structure Msg (P : Type) where
  id : Nat
  from_ : Option P
  to_ : Option P
  when_ : Int
deriving DecidableEq, Repr

structure Queue (P : Type) where
  byWhen : List (Msg P)
  byTo : P → List (Msg P)
  byFrom : P → List (Msg P)
  nextId : Nat

namespace Queue

variable {P : Type} [DecidableEq P]

def new : Queue P := ⟨[], fun _ => [], fun _ => [], 0⟩

/-- `by_when_.insert`: in front of the first message with a later time. -/
def insertWhen (m : Msg P) : List (Msg P) → List (Msg P)
  | [] => [m]
  | x :: xs => if m.when_ < x.when_ then m :: x :: xs else x :: insertWhen m xs

/-- `f` applied to the list of a peer, if there is one. -/
def atPeer (lists : P → List (Msg P)) (p : Option P) (f : List (Msg P) → List (Msg P)) :
    P → List (Msg P) :=
  match p with
  | some p => Function.update lists p (f (lists p))
  | none => lists

/-- `queue_type::emplace`. -/
def emplace (q : Queue P) (from_ to_ : Option P) (when_ : Int) : Msg P × Queue P :=
  let m : Msg P := ⟨q.nextId, from_, to_, when_⟩
  (m, { byWhen := insertWhen m q.byWhen
        byTo := atPeer q.byTo to_ (· ++ [m])
        byFrom := atPeer q.byFrom from_ (· ++ [m])
        nextId := q.nextId + 1 })

/-- `queue_type::erase`. -/
def erase (q : Queue P) (m : Msg P) : Option (Queue P) :=
  if m ∈ q.byWhen then
    some { byWhen := q.byWhen.erase m
           byTo := atPeer q.byTo m.to_ (·.erase m)
           byFrom := atPeer q.byFrom m.from_ (·.erase m)
           nextId := q.nextId }
  else none

/-- One of the two loops of `queue_type::remove`: over the messages for `to_`, erasing those
sent by `from_`. The next element is fetched before the current one is erased, so the loop
visits the list as it was at the start. -/
def removeLoop (q : Queue P) (from_ to_ : P) : Option (Queue P) :=
  (q.byTo to_).foldlM (fun q m => if m.from_ = some from_ then q.erase m else some q) q

/-- `queue_type::remove`. -/
def remove (q : Queue P) (from_ to_ : P) : Option (Queue P) := do
  let q ← q.removeLoop from_ to_
  q.removeLoop to_ from_

/-! ## Delivery order -/

/-- The order of `by_when_`: by time, and by age among equal times. -/
def Precedes (a b : Msg P) : Prop := a.when_ < b.when_ ∨ a.when_ = b.when_ ∧ a.id < b.id

omit [DecidableEq P] in
theorem Precedes.trans {a b c : Msg P} (h₁ : Precedes a b) (h₂ : Precedes b c) :
    Precedes a c := by
  unfold Precedes at *
  omega

omit [DecidableEq P] in
theorem mem_insertWhen {m x : Msg P} {l : List (Msg P)} :
    x ∈ insertWhen m l ↔ x = m ∨ x ∈ l := by
  induction l with
  | nil => simp [insertWhen]
  | cons y ys ih =>
    unfold insertWhen
    split
    · simp
    · simp only [List.mem_cons, ih]
      tauto

omit [DecidableEq P] in
/-- Insertion is stable: a new message goes after all those that are not later. -/
theorem insertWhen_sorted {m : Msg P} {l : List (Msg P)} (hl : l.Pairwise Precedes)
    (hm : ∀ x ∈ l, x.id < m.id) : (insertWhen m l).Pairwise Precedes := by
  induction l with
  | nil => simp [insertWhen]
  | cons y ys ih =>
    obtain ⟨hy, hys⟩ := List.pairwise_cons.mp hl
    unfold insertWhen
    split
    · rename_i hlt
      have hmy : Precedes m y := Or.inl hlt
      refine List.pairwise_cons.mpr ⟨fun x hx => ?_, hl⟩
      rcases List.mem_cons.mp hx with rfl | hx
      · exact hmy
      · exact hmy.trans (hy x hx)
    · rename_i hge
      refine List.pairwise_cons.mpr
        ⟨fun x hx => ?_, ih hys fun x hx => hm x (List.mem_cons_of_mem _ hx)⟩
      rcases mem_insertWhen.mp hx with rfl | hx
      · have := hm y List.mem_cons_self
        unfold Precedes
        omega
      · exact hy x hx

/-! ## Agreement of the three containers -/

/-- `l` holds the queued messages that `p` selects, oldest first. -/
structure Lists (q : Queue P) (l : List (Msg P)) (p : Msg P → Prop) : Prop where
  mem : ∀ m, m ∈ l ↔ m ∈ q.byWhen ∧ p m
  aged : l.Pairwise fun a b => a.id < b.id

structure Indexed (q : Queue P) : Prop where
  sorted : q.byWhen.Pairwise Precedes
  fresh : ∀ m ∈ q.byWhen, m.id < q.nextId
  address : ∀ m ∈ q.byWhen, ∀ m' ∈ q.byWhen, m.id = m'.id → m = m'
  to_ : ∀ p, q.Lists (q.byTo p) fun m => m.to_ = some p
  from_ : ∀ p, q.Lists (q.byFrom p) fun m => m.from_ = some p

omit [DecidableEq P] in
theorem indexed_new : (new : Queue P).Indexed where
  sorted := List.Pairwise.nil
  fresh := by simp [new]
  address := by simp [new]
  to_ := fun p => ⟨by simp [new], List.Pairwise.nil⟩
  from_ := fun p => ⟨by simp [new], List.Pairwise.nil⟩

omit [DecidableEq P] in
theorem Indexed.nodup {q : Queue P} (h : q.Indexed) : q.byWhen.Nodup :=
  h.sorted.imp fun hab he => by
    subst he
    unfold Precedes at hab
    omega

omit [DecidableEq P] in
theorem Lists.nodup {q : Queue P} {l : List (Msg P)} {p : Msg P → Prop} (h : q.Lists l p) :
    l.Nodup :=
  h.aged.imp fun hab he => by
    subst he
    exact lt_irrefl _ hab

@[simp]
theorem emplace_byWhen (q : Queue P) (f t : Option P) (w : Int) :
    (q.emplace f t w).2.byWhen = insertWhen ⟨q.nextId, f, t, w⟩ q.byWhen := rfl

@[simp]
theorem emplace_nextId (q : Queue P) (f t : Option P) (w : Int) :
    (q.emplace f t w).2.nextId = q.nextId + 1 := rfl

@[simp]
theorem emplace_fst (q : Queue P) (f t : Option P) (w : Int) :
    (q.emplace f t w).1 = ⟨q.nextId, f, t, w⟩ := rfl

/-- One list of an index after `emplace`: the new message goes at the end of the list of its
own peer. -/
theorem Lists.emplace {q : Queue P} {lists : P → List (Msg P)} {peer : Msg P → Option P}
    {p : P} (hq : q.Lists (lists p) fun x => peer x = some p) (m : Msg P)
    (hfresh : ∀ x ∈ q.byWhen, x.id < q.nextId) (hm : m.id = q.nextId) {q' : Queue P}
    (hq' : q'.byWhen = insertWhen m q.byWhen) :
    q'.Lists (atPeer lists (peer m) (· ++ [m]) p) fun x => peer x = some p := by
  have hold : m ∉ q.byWhen := fun hmem => by
    have := hfresh m hmem
    omega
  have hlist : atPeer lists (peer m) (· ++ [m]) p =
      if peer m = some p then lists p ++ [m] else lists p := by
    unfold atPeer
    cases hp : peer m with
    | none => simp
    | some p' =>
      by_cases h : p = p'
      · subst h
        simp
      · simp [h, Ne.symm h]
  rw [hlist]
  constructor
  · intro x
    rw [hq', mem_insertWhen]
    by_cases h : peer m = some p
    · simp only [h, if_true, List.mem_append, List.mem_singleton, hq.mem]
      constructor
      · rintro (⟨hx, hp⟩ | rfl)
        · exact ⟨Or.inr hx, hp⟩
        · exact ⟨Or.inl rfl, h⟩
      · rintro ⟨rfl | hx, hp⟩
        · exact Or.inr rfl
        · exact Or.inl ⟨hx, hp⟩
    · simp only [h, if_false, hq.mem]
      constructor
      · exact fun ⟨hx, hp⟩ => ⟨Or.inr hx, hp⟩
      · rintro ⟨rfl | hx, hp⟩
        · exact absurd hp h
        · exact ⟨hx, hp⟩
  · split
    · refine List.pairwise_append.mpr ⟨hq.aged, List.pairwise_singleton _ _, ?_⟩
      intro x hx y hy
      rw [List.mem_singleton.mp hy, hm]
      exact hfresh x ((hq.mem x).mp hx).1
    · exact hq.aged

theorem Indexed.emplace {q : Queue P} (h : q.Indexed) (f t : Option P) (w : Int) :
    (q.emplace f t w).2.Indexed where
  sorted := insertWhen_sorted h.sorted h.fresh
  fresh := by
    intro x hx
    rcases mem_insertWhen.mp hx with rfl | hx
    · simp
    · have := h.fresh x hx
      simp only [emplace_nextId]
      omega
  address := by
    intro x hx y hy he
    rcases mem_insertWhen.mp hx with rfl | hx <;> rcases mem_insertWhen.mp hy with rfl | hy
    · rfl
    · have := h.fresh y hy
      simp only at he
      omega
    · have := h.fresh x hx
      simp only at he
      omega
    · exact h.address x hx y hy he
  to_ := fun p => (h.to_ p).emplace ⟨q.nextId, f, t, w⟩ h.fresh rfl rfl
  from_ := fun p =>
    (h.from_ p).emplace ⟨q.nextId, f, t, w⟩ h.fresh rfl rfl

/-! ## Erasing -/

theorem Lists.erase {q : Queue P} {lists : P → List (Msg P)} {peer : Msg P → Option P}
    {p : P} (hq : q.Lists (lists p) fun x => peer x = some p) (m : Msg P)
    (hnodup : q.byWhen.Nodup) {q' : Queue P} (hq' : q'.byWhen = q.byWhen.erase m) :
    q'.Lists (atPeer lists (peer m) (·.erase m) p) fun x => peer x = some p := by
  have hlist : atPeer lists (peer m) (·.erase m) p = (lists p).erase m := by
    unfold atPeer
    cases hp : peer m with
    | none =>
      refine (List.erase_of_not_mem fun hm => ?_).symm
      simpa [hp] using ((hq.mem m).mp hm).2
    | some p' =>
      by_cases h : p = p'
      · subst h
        simp
      · simp only [Function.update_of_ne h]
        refine (List.erase_of_not_mem fun hm => ?_).symm
        have := ((hq.mem m).mp hm).2
        rw [hp] at this
        exact h (Option.some.inj this).symm
  rw [hlist]
  constructor
  · intro x
    rw [hq', hq.nodup.mem_erase_iff, hnodup.mem_erase_iff, hq.mem]
    tauto
  · exact hq.aged.sublist List.erase_sublist

theorem erase_eq_none_iff {q : Queue P} {m : Msg P} : q.erase m = none ↔ m ∉ q.byWhen := by
  unfold erase
  split <;> simp_all

theorem erase_of_mem {q : Queue P} {m : Msg P} (hm : m ∈ q.byWhen) :
    ∃ q', q.erase m = some q' ∧ q'.byWhen = q.byWhen.erase m ∧ q'.nextId = q.nextId := by
  simp [erase, hm]

theorem Indexed.erase {q q' : Queue P} {m : Msg P} (h : q.Indexed) (he : q.erase m = some q') :
    q'.Indexed ∧ q'.byWhen = q.byWhen.erase m ∧ q'.nextId = q.nextId := by
  unfold Queue.erase at he
  split at he
  · cases he
    refine ⟨⟨h.sorted.sublist List.erase_sublist, ?_, ?_, ?_, ?_⟩, rfl, rfl⟩
    · exact fun x hx => h.fresh x (List.mem_of_mem_erase hx)
    · exact fun x hx y hy => h.address x (List.mem_of_mem_erase hx) y (List.mem_of_mem_erase hy)
    · exact fun p => (h.to_ p).erase m h.nodup rfl
    · exact fun p => (h.from_ p).erase m h.nodup rfl
  · cases he

/-- Erasing the messages of a list one after another, when all of them are queued. -/
theorem Indexed.eraseAll {q : Queue P} (h : q.Indexed) (sel : Msg P → Prop) [DecidablePred sel]
    {l : List (Msg P)} (hl : l.Nodup) (hmem : ∀ m ∈ l, m ∈ q.byWhen) :
    ∃ q', l.foldlM (fun q m => if sel m then q.erase m else some q) q = some q' ∧
      q'.Indexed ∧ q'.nextId = q.nextId ∧
      q'.byWhen = q.byWhen.filter fun m => ¬ (m ∈ l ∧ sel m) := by
  induction l generalizing q with
  | nil => exact ⟨q, rfl, h, rfl, by simp⟩
  | cons m l ih =>
    obtain ⟨hml, hl'⟩ := List.nodup_cons.mp hl
    by_cases hs : sel m
    · obtain ⟨q₁, he, -⟩ := erase_of_mem (hmem m List.mem_cons_self)
      obtain ⟨h₁, hw, hn⟩ := h.erase he
      have hmem₁ : ∀ x ∈ l, x ∈ q₁.byWhen := by
        intro x hx
        rw [hw, h.nodup.mem_erase_iff]
        exact ⟨fun hxm => hml (hxm ▸ hx), hmem x (List.mem_cons_of_mem _ hx)⟩
      obtain ⟨q', hf, hq', hn', hw'⟩ := ih h₁ hl' hmem₁
      refine ⟨q', by simp [hs, he, hf], hq', hn'.trans hn, ?_⟩
      rw [hw', hw, h.nodup.erase_eq_filter, List.filter_filter]
      refine List.filter_congr fun x _ => ?_
      by_cases hx : x = m
      · subst hx
        simp [hs]
      · simp [hx]
    · obtain ⟨q', hf, hq', hn', hw'⟩ :=
        ih h hl' fun x hx => hmem x (List.mem_cons_of_mem _ hx)
      refine ⟨q', by simpa [hs] using hf, hq', hn', ?_⟩
      rw [hw']
      refine List.filter_congr fun x _ => ?_
      by_cases hx : x = m
      · subst hx
        simp [hs]
      · simp [hx]

/-- The message travels between the two peers, in either direction. -/
def Between (a b : P) (m : Msg P) : Prop :=
  m.from_ = some a ∧ m.to_ = some b ∨ m.from_ = some b ∧ m.to_ = some a

instance (a b : P) : DecidablePred (Between a b) := fun m =>
  inferInstanceAs (Decidable (m.from_ = some a ∧ m.to_ = some b ∨ m.from_ = some b ∧ m.to_ = some a))

/-- `remove` succeeds and drops the messages between the two peers, and no others. -/
theorem Indexed.remove {q : Queue P} (h : q.Indexed) (a b : P) :
    ∃ q', q.remove a b = some q' ∧ q'.Indexed ∧ q'.nextId = q.nextId ∧
      q'.byWhen = q.byWhen.filter fun m => ¬ Between a b m := by
  obtain ⟨q₁, hf₁, h₁, hn₁, hw₁⟩ := h.eraseAll (fun m => m.from_ = some a)
    (h.to_ b).nodup fun m hm => (((h.to_ b).mem m).mp hm).1
  obtain ⟨q₂, hf₂, h₂, hn₂, hw₂⟩ := h₁.eraseAll (fun m => m.from_ = some b)
    (h₁.to_ a).nodup fun m hm => (((h₁.to_ a).mem m).mp hm).1
  refine ⟨q₂, ?_, h₂, hn₂.trans hn₁, ?_⟩
  · change (q.removeLoop a b).bind (·.removeLoop b a) = some q₂
    rw [show q.removeLoop a b = some q₁ from hf₁]
    exact hf₂
  · rw [hw₂, hw₁, List.filter_filter]
    refine List.filter_congr fun m hm => ?_
    have hb := (h.to_ b).mem m
    have ha := (h₁.to_ a).mem m
    rw [hw₁, List.mem_filter] at ha
    simp only [hm, true_and, decide_eq_true_eq] at hb ha
    simp only [hb, ha, Between]
    grind

end Queue

end Metcalfe.Network
