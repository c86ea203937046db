import Metcalfe.Library.Steps
import Mathlib.Tactic

/-!
# Closing the server of the short read test

`Base` of `short_read_test.cpp` keeps a list of children, and `close` asks each one that it can
still lock to close; `wait` returns when the list is empty. A child leaves the list in its
destructor. The server has an acceptor as its first child, and its accept handler adds a
connection for each client.

`add` does not look at `closed_`. An accept that is complete when the destructor runs `close` has
its handler still to come: that handler adds a connection which no one asks to close. The other
way past `close` is a child that is being destroyed, whose `weak_ptr` cannot be locked any more.
Nothing else leaves a child unasked (`asked_iff`).
-/

namespace Metcalfe.Overlay

open Steps

/-- `Base`, with what its operations did to the children. A child is a number: the children are
numbered as they are created, and the entry of one is erased before its memory is used again. -/
structure Base where
  /-- The children in `list_`. -/
  list : List Nat
  closed : Bool
  created : Nat
  /-- The children with no `shared_ptr` left. -/
  expired : List Nat
  /-- The children whose `close` was called. -/
  requested : List Nat
deriving DecidableEq

namespace Base

def new : Base := ⟨[], false, 0, [], []⟩

/-- `make_shared` for a child and `add`. -/
def add (b : Base) : Base := { b with list := b.list ++ [b.created], created := b.created + 1 }

def remove (b : Base) (child : Nat) : Base := { b with list := b.list.filter (· ≠ child) }

/-- Does `lock` of the `weak_ptr` to the child succeed? -/
def lockable (b : Base) (child : Nat) : Bool := !b.expired.contains child

def close (b : Base) : Base :=
  if b.closed then
    b
  else
    { b with closed := true, requested := b.requested ++ b.list.filter b.lockable }

/-- The last `shared_ptr` of a child is given up. -/
def release (b : Base) (child : Nat) : Base := { b with expired := child :: b.expired }

end Base

/-- The asynchronous accept of the acceptor. -/
inductive Accept where
  | waiting
  /-- The handler is in the queue, with an error or without. -/
  | complete (failed : Bool)
  /-- No handler is left. -/
  | none
deriving DecidableEq

structure Server where
  base : Base
  acceptorOpen : Bool
  accept : Accept
deriving DecidableEq

inductive Event where
  /-- A client connects, or the accept fails. -/
  | acceptDone (failed : Bool)
  | onAccept
  /-- The strand runs the `Acceptor::close` that was posted to it. -/
  | acceptorClose
  /-- The destructor of the server calls `close`. -/
  | destroy
  | release (child : Nat)
  /-- The destructor of a child calls `remove`. -/
  | remove (child : Nat)
deriving DecidableEq

namespace Server

/-- The constructor. The acceptor is the child 0. -/
def new : Server := ⟨Base.new.add, true, .waiting⟩

/-- `on_accept`. On a closed acceptor the accept that it starts fails. -/
def onAccept (s : Server) : Server :=
  match s.accept with
  | .complete true => { s with acceptorOpen := false, accept := .none }
  | .complete false =>
    { s with
      base := s.base.add
      accept := if s.acceptorOpen then .waiting else .complete true }
  | _ => s

/-- One event; one that cannot happen in the state changes nothing. A handler of the acceptor holds
a `shared_ptr` to it. -/
def step (s : Server) : Event → Server
  | .acceptDone failed => if s.accept = .waiting then { s with accept := .complete failed } else s
  | .onAccept => s.onAccept
  | .acceptorClose =>
    if 0 ∈ s.base.requested then
      { s with
        acceptorOpen := false
        accept := if s.accept = .waiting then .complete true else s.accept }
    else
      s
  | .destroy => { s with base := s.base.close }
  | .release child =>
    if child < s.base.created ∧ (child = 0 → s.accept = .none) then
      { s with base := s.base.release child }
    else
      s
  | .remove child =>
    if s.base.lockable child then s else { s with base := s.base.remove child }

/-- What an event can do to the list of children. -/
theorem step_base (s : Server) (e : Event) :
    (s.step e).base = s.base ∨
    (∃ child, (s.step e).base = s.base.release child) ∨
    (∃ child, (s.step e).base = s.base.remove child) ∨
    (e = .onAccept ∧ s.accept = .complete false ∧ (s.step e).base = s.base.add) ∨
    (e = .destroy ∧ (s.step e).base = s.base.close) := by
  cases e with
  | acceptDone failed =>
    left
    simp only [step]
    split <;> rfl
  | onAccept =>
    cases haccept : s.accept with
    | waiting => exact Or.inl (by simp [step, onAccept, haccept])
    | none => exact Or.inl (by simp [step, onAccept, haccept])
    | complete failed =>
      cases failed with
      | true => exact Or.inl (by simp [step, onAccept, haccept])
      | false =>
        exact Or.inr (Or.inr (Or.inr (Or.inl ⟨rfl, rfl, by simp [step, onAccept, haccept]⟩)))
  | acceptorClose =>
    left
    simp only [step]
    split <;> rfl
  | destroy => exact Or.inr (Or.inr (Or.inr (Or.inr ⟨rfl, rfl⟩)))
  | release child =>
    simp only [step]
    split
    · exact Or.inr (Or.inl ⟨child, rfl⟩)
    · exact Or.inl rfl
  | remove child =>
    simp only [step]
    split
    · exact Or.inl rfl
    · exact Or.inr (Or.inr (Or.inl ⟨child, rfl⟩))

end Server

/-- The server after a sequence of events. -/
def run (es : List Event) : Server := es.foldl Server.step Server.new

/-! ## What is asked to close -/

/-- Once `close` has run, each child in the list was asked to close, so `wait` waits for no other
one. -/
def Asked (b : Base) : Prop := b.closed = true → ∀ child ∈ b.list, child ∈ b.requested

/-- Only children that exist were asked, and none of them before `close`. -/
structure Sound (b : Base) : Prop where
  known : ∀ child ∈ b.requested, child < b.created
  unasked : b.closed = false → b.requested = []
  listed : ∀ child ∈ b.list, child < b.created

namespace Sound

variable {b : Base}

theorem new : Sound Base.new := ⟨by simp [Base.new], fun _ => rfl, by simp [Base.new]⟩

theorem add (h : Sound b) : Sound b.add := by
  refine ⟨fun c hc => Nat.lt_succ_of_lt (h.known c hc), h.unasked, fun c hc => ?_⟩
  rcases List.mem_append.mp hc with hc | hc
  · exact Nat.lt_succ_of_lt (h.listed c hc)
  · rw [List.mem_singleton.mp hc]
    exact Nat.lt_succ_self b.created

theorem remove (h : Sound b) (child : Nat) : Sound (b.remove child) :=
  ⟨h.known, h.unasked, fun c hc => h.listed c (List.mem_of_mem_filter hc)⟩

theorem release (h : Sound b) (child : Nat) : Sound (b.release child) :=
  ⟨h.known, h.unasked, h.listed⟩

theorem close (h : Sound b) : Sound b.close := by
  unfold Base.close
  split
  · exact h
  · refine ⟨fun c hc => ?_, fun hclosed => (nomatch hclosed), h.listed⟩
    rcases List.mem_append.mp hc with hc | hc
    · exact h.known c hc
    · exact h.listed c (List.mem_of_mem_filter hc)

theorem step {s : Server} (h : Sound s.base) (e : Event) : Sound (s.step e).base := by
  rcases s.step_base e with hb | ⟨child, hb⟩ | ⟨child, hb⟩ | ⟨-, -, hb⟩ | ⟨-, hb⟩
  · exact hb ▸ h
  · exact hb ▸ h.release child
  · exact hb ▸ h.remove child
  · exact hb ▸ h.add
  · exact hb ▸ h.close

theorem run (es : List Event) : Sound (run es).base :=
  List.foldlRecOn es Server.step (motive := fun s => Sound s.base) Sound.new.add
    fun _ h e _ => h.step e

end Sound

/-! ## Runs in which everything is asked -/

/-- An accept handler does not add a connection when `close` has run, and `close` runs when each
child in the list can be locked. -/
def orderly (s : Server) : Event → Bool
  | .onAccept => decide (s.accept ≠ .complete false) || !s.base.closed
  | .destroy => s.base.closed || s.base.list.all s.base.lockable
  | _ => true

namespace Asked

variable {b : Base}

theorem of_open (h : b.closed = false) : Asked b := fun hclosed => by
  rw [h] at hclosed
  cases hclosed

theorem remove (h : Asked b) (child : Nat) : Asked (b.remove child) :=
  fun hclosed c hc => h hclosed c (List.mem_of_mem_filter hc)

/-- A child added after `close` is not asked. -/
theorem add_iff (hs : Sound b) : Asked b.add ↔ b.closed = false := by
  constructor
  · intro h
    by_contra hclosed
    have hlast : b.created ∈ b.add.list := List.mem_append_right _ (List.mem_singleton_self _)
    have hmem : b.created ∈ b.requested := h (by simpa [Base.add] using hclosed) b.created hlast
    exact lt_irrefl b.created (hs.known b.created hmem)
  · exact fun hopen => of_open hopen

/-- The one call of `close` that does something asks each child it can lock. -/
theorem close_iff (hs : Sound b) (hopen : b.closed = false) :
    Asked b.close ↔ b.list.all b.lockable = true := by
  unfold Base.close Asked
  rw [if_neg (by simp [hopen]), hs.unasked hopen, List.all_eq_true]
  constructor
  · intro h child hchild
    exact (List.mem_filter.mp (h rfl child hchild)).2
  · intro h _ child hchild
    exact List.mem_filter.mpr ⟨hchild, h child hchild⟩

theorem step {s : Server} {e : Event} (hs : Sound s.base) (h : Asked s.base)
    (hok : orderly s e = true) : Asked (s.step e).base := by
  rcases s.step_base e with hb | ⟨child, hb⟩ | ⟨child, hb⟩ | ⟨rfl, haccept, hb⟩ | ⟨rfl, hb⟩
  · rwa [hb]
  · rw [hb]
    exact h
  · rw [hb]
    exact h.remove child
  · rw [hb, add_iff hs]
    simpa [orderly, haccept] using hok
  · rw [hb]
    cases hclosed : s.base.closed with
    | true =>
      unfold Base.close
      rwa [if_pos hclosed]
    | false =>
      rw [close_iff hs hclosed]
      simpa only [orderly, hclosed, Bool.false_or] using hok

/-- An event after which everything is asked met the condition. -/
theorem orderly_of_step {s : Server} {e : Event} (hs : Sound s.base)
    (h : Asked (s.step e).base) : orderly s e = true := by
  cases e with
  | onAccept =>
    by_cases haccept : s.accept = .complete false
    · have hb : (s.step .onAccept).base = s.base.add := by
        simp [Server.step, Server.onAccept, haccept]
      rw [hb, add_iff hs] at h
      simp [orderly, h]
    · simp [orderly, haccept]
  | destroy =>
    cases hclosed : s.base.closed with
    | true => simp only [orderly, hclosed, Bool.true_or]
    | false =>
      have hall := (close_iff hs hclosed).mp h
      simp only [orderly, hclosed, hall, Bool.or_true]
  | acceptDone failed => rfl
  | acceptorClose => rfl
  | release child => rfl
  | remove child => rfl

end Asked

/-- Everything is asked in all states of a run just when all its events are orderly. -/
theorem asked_iff (es : List Event) : (∀ pre, pre <+: es → Asked (run pre).base) ↔
    ∀ pre e, pre ++ [e] <+: es → orderly (run pre) e = true := by
  constructor
  · intro h pre e hpre
    have hstep := h (pre ++ [e]) hpre
    unfold run at hstep
    rw [List.foldl_append] at hstep
    exact Asked.orderly_of_step (Sound.run pre) hstep
  · intro h pre hpre
    have hok := along_of_isPrefix hpre (along_iff.mpr h)
    have hinv := invariant (I := fun s : Server => Sound s.base ∧ Asked s.base)
      (fun s e hok hs => ⟨hs.1.step e, hs.2.step hs.1 hok⟩)
      ⟨Sound.new.add, Asked.of_open rfl⟩ hok
    exact hinv.2

/-- A client connects, the destructor closes, and the handler of the accept adds a connection:
`close` of the connection was not called, and `wait` waits for it. -/
theorem connection_not_asked :
    (run [.acceptDone false, .destroy, .onAccept]).base.list = [0, 1] ∧
    (run [.acceptDone false, .destroy, .onAccept]).base.requested = [0] ∧
    ¬ Asked (run [.acceptDone false, .destroy, .onAccept]).base := by
  refine ⟨rfl, rfl, fun h => ?_⟩
  have hmem : 1 ∈ [0] := h rfl 1 (by decide)
  simp at hmem

end Metcalfe.Overlay
