import Metcalfe.Library.Steps
import Mathlib.Tactic

/-!
# The message queue of the WebSocket client

`msgs_` of `WSClient.cpp` and the three operations on it. `on_read_msg` puts a message at the
front of the list, `getMsg` takes the one at the back, and `findMsg` the first one from the front
that meets its predicate: of several it takes the newest, where `getMsg` takes the oldest.

All three hold the mutex `m_` when they touch the list. `cv_.wait_for` evaluates its predicate, at
first and at every wake-up, until it holds or the time is over; an evaluation that finds nothing
changes nothing. So an operation here is one evaluation: a call that waits is some evaluations
that find nothing and a last one, whose result is the result of the call.
-/

namespace Metcalfe.WSClient

open Steps

variable {α : Type}

/-- `msg`. The number is the place of the message in the order of arrival. -/
structure Msg (α : Type) where
  seq : Nat
  jv : α
deriving DecidableEq, Repr

/-- The part of the client that its operations share. `reading` says that a read is under way. -/
structure Client (α : Type) where
  msgs : List (Msg α)
  arrived : Nat
  reading : Bool
  peerClosed : Bool

inductive Op (α : Type) where
  /-- A read is complete, with an error (is it `error::closed`?) or with a message. -/
  | read (result : Except Bool α)
  | getMsg
  | findMsg (pred : α → Bool)

namespace Client

def new : Client α := ⟨[], 0, true, false⟩

/-- `on_read_msg`. After an error no further read is started. -/
def onReadMsg (c : Client α) : Except Bool α → Client α
  | .error closed => { c with peerClosed := c.peerClosed || closed, reading := false }
  | .ok jv => { c with msgs := ⟨c.arrived, jv⟩ :: c.msgs, arrived := c.arrived + 1 }

def getMsg (c : Client α) : Option (Msg α) × Client α :=
  match c.msgs.getLast? with
  | some m => (some m, { c with msgs := c.msgs.dropLast })
  | none => (none, c)

/-- The loop of `findMsg` over the list from its front. -/
def find (pred : α → Bool) : List (Msg α) → Option (Msg α × List (Msg α))
  | [] => none
  | m :: ms => if pred m.jv then some (m, ms) else (find pred ms).map fun r => (r.1, m :: r.2)

def findMsg (c : Client α) (pred : α → Bool) : Option (Msg α) × Client α :=
  match find pred c.msgs with
  | some r => (some r.1, { c with msgs := r.2 })
  | none => (none, c)

def apply (c : Client α) : Op α → Option (Msg α) × Client α
  | .read result => (none, if c.reading then c.onReadMsg result else c)
  | .getMsg => c.getMsg
  | .findMsg pred => c.findMsg pred

def result (c : Client α) (op : Op α) : Option (Msg α) := (c.apply op).1

def step (c : Client α) (op : Op α) : Client α := (c.apply op).2

end Client

/-- The client after a sequence of operations. -/
def run (ops : List (Op α)) : Client α := ops.foldl Client.step Client.new

/-! ## What is in the list -/

/-- The list is in the order of arrival, newest first. -/
structure Aged (c : Client α) : Prop where
  sorted : c.msgs.Pairwise fun a b => b.seq < a.seq
  fresh : ∀ m ∈ c.msgs, m.seq < c.arrived

namespace Client

variable {c : Client α} {m : Msg α} {pred : α → Bool}

theorem find_eq_none {ms : List (Msg α)} (h : find pred ms = none) :
    ∀ x ∈ ms, pred x.jv = false := by
  induction ms with
  | nil => simp
  | cons y ys ih =>
    unfold find at h
    split at h
    · cases h
    · rename_i hy
      rw [Option.map_eq_none_iff] at h
      simpa [hy] using ih h

theorem find_eq_some {ms rest : List (Msg α)} (h : find pred ms = some (m, rest)) :
    ∃ front back, ms = front ++ m :: back ∧ rest = front ++ back ∧ pred m.jv = true ∧
      ∀ x ∈ front, pred x.jv = false := by
  induction ms generalizing rest with
  | nil => cases h
  | cons y ys ih =>
    unfold find at h
    split at h
    · rename_i hy
      cases h
      exact ⟨[], ys, rfl, rfl, hy, by simp⟩
    · rename_i hy
      obtain ⟨⟨m', rest'⟩, hfind, heq⟩ := Option.map_eq_some_iff.mp h
      cases heq
      obtain ⟨front, back, rfl, rfl, hm, hfront⟩ := ih hfind
      exact ⟨y :: front, back, rfl, rfl, hm, by simpa [hy] using hfront⟩

/-- What an operation can do: take a message out, leave the list alone, or put a new one in. -/
theorem step_cases (c : Client α) (op : Op α) :
    (∃ m front back, c.result op = some m ∧ c.msgs = front ++ m :: back ∧
      (c.step op).msgs = front ++ back ∧ (c.step op).arrived = c.arrived) ∨
    (c.result op = none ∧ (c.step op).msgs = c.msgs ∧ (c.step op).arrived = c.arrived) ∨
    ∃ jv, op = .read (.ok jv) ∧ c.result op = none ∧
      (c.step op).msgs = ⟨c.arrived, jv⟩ :: c.msgs ∧ (c.step op).arrived = c.arrived + 1 := by
  unfold result step
  cases op with
  | read r =>
    by_cases hr : c.reading = true
    · cases r with
      | error closed => exact Or.inr (Or.inl (by simp [apply, hr, onReadMsg]))
      | ok jv => exact Or.inr (Or.inr ⟨jv, by simp [apply, hr, onReadMsg]⟩)
    · exact Or.inr (Or.inl (by simp [apply, hr]))
  | getMsg =>
    simp only [apply, getMsg]
    cases hl : c.msgs.getLast? with
    | none => exact Or.inr (Or.inl ⟨rfl, rfl, rfl⟩)
    | some m =>
      refine Or.inl ⟨m, c.msgs.dropLast, [], rfl, ?_, by simp, rfl⟩
      exact (List.dropLast_append_getLast? m hl).symm
  | findMsg pred =>
    simp only [apply, findMsg]
    cases hf : find pred c.msgs with
    | none => exact Or.inr (Or.inl ⟨rfl, rfl, rfl⟩)
    | some r =>
      obtain ⟨front, back, hms, hrest, -⟩ := find_eq_some hf
      exact Or.inl ⟨r.1, front, back, rfl, hms, hrest, rfl⟩

theorem step_of_result {op : Op α} (h : c.result op = some m) :
    ∃ front back, c.msgs = front ++ m :: back ∧ (c.step op).msgs = front ++ back := by
  rcases c.step_cases op with ⟨m', front, back, hr, hms, hstep, -⟩ | ⟨hr, -⟩ | ⟨jv, -, hr, -⟩
  · rw [h] at hr
    cases hr
    exact ⟨front, back, hms, hstep⟩
  · rw [h] at hr
    cases hr
  · rw [h] at hr
    cases hr

theorem result_mem {op : Op α} (h : c.result op = some m) : m ∈ c.msgs := by
  obtain ⟨front, back, hms, -⟩ := step_of_result h
  simp [hms]

/-- A message stays until it is the result of a call. -/
theorem stays (op : Op α) (hm : m ∈ c.msgs) : m ∈ (c.step op).msgs ∨ c.result op = some m := by
  rcases c.step_cases op with ⟨m', front, back, hr, hms, hstep, -⟩ | ⟨-, hstep, -⟩ |
    ⟨jv, -, -, hstep, -⟩
  · rw [hms] at hm
    rw [hstep, hr]
    rcases List.mem_append.mp hm with hm | hm
    · exact Or.inl (List.mem_append_left _ hm)
    · rcases List.mem_cons.mp hm with rfl | hm
      · exact Or.inr rfl
      · exact Or.inl (List.mem_append_right _ hm)
  · exact Or.inl (hstep ▸ hm)
  · exact Or.inl (hstep ▸ List.mem_cons_of_mem _ hm)

/-- Nothing is in the list after an operation that was not there before or has just arrived. -/
theorem mem_of_mem_step {op : Op α} (hm : m ∈ (c.step op).msgs) :
    m ∈ c.msgs ∨ m.seq = c.arrived := by
  rcases c.step_cases op with ⟨m', front, back, -, hms, hstep, -⟩ | ⟨-, hstep, -⟩ |
    ⟨jv, -, -, hstep, -⟩
  · rw [hstep] at hm
    rw [hms]
    exact Or.inl (by simpa using (List.mem_append.mp hm).imp id Or.inr)
  · exact Or.inl (hstep ▸ hm)
  · rw [hstep] at hm
    rcases List.mem_cons.mp hm with rfl | hm
    · exact Or.inr rfl
    · exact Or.inl hm

/-- Only a message read puts anything into the list. -/
theorem step_sublist (c : Client α) (op : Op α) (hop : ∀ jv, op ≠ .read (.ok jv)) :
    (c.step op).msgs.Sublist c.msgs := by
  rcases c.step_cases op with ⟨m, front, back, -, hms, hstep, -⟩ | ⟨-, hstep, -⟩ | ⟨jv, h, -⟩
  · rw [hms, hstep]
    exact (List.Sublist.refl front).append (List.sublist_cons_self m back)
  · rw [hstep]
  · exact absurd h (hop jv)

theorem read_msgs (c : Client α) (jv : α) : (c.step (.read (.ok jv))).msgs = c.msgs ∨
    (c.step (.read (.ok jv))).msgs = ⟨c.arrived, jv⟩ :: c.msgs := by
  by_cases hr : c.reading = true
  · exact Or.inr (by simp [step, apply, hr, onReadMsg])
  · exact Or.inl (by simp [step, apply, hr])

theorem arrived_le (c : Client α) (op : Op α) : c.arrived ≤ (c.step op).arrived := by
  rcases c.step_cases op with ⟨_, _, _, -, -, -, ha⟩ | ⟨-, -, ha⟩ | ⟨_, -, -, -, ha⟩ <;>
    omega

end Client

namespace Aged

variable {c : Client α} {m : Msg α} {pred : α → Bool}

theorem new : Aged (Client.new : Client α) := ⟨List.Pairwise.nil, by simp [Client.new]⟩

theorem step (h : Aged c) (op : Op α) : Aged (c.step op) := by
  rcases c.step_cases op with ⟨m, front, back, -, hms, hstep, ha⟩ | ⟨-, hstep, ha⟩ |
    ⟨jv, -, -, hstep, ha⟩
  · have hsub : (front ++ back).Sublist c.msgs := by
      rw [hms]
      exact (List.Sublist.refl front).append (List.sublist_cons_self m back)
    refine ⟨hstep ▸ h.sorted.sublist hsub, fun x hx => ?_⟩
    rw [hstep] at hx
    rw [ha]
    exact h.fresh x (hsub.subset hx)
  · exact ⟨hstep ▸ h.sorted, fun x hx => ha ▸ h.fresh x (hstep ▸ hx)⟩
  · refine ⟨?_, fun x hx => ?_⟩
    · rw [hstep]
      exact List.pairwise_cons.mpr ⟨h.fresh, h.sorted⟩
    · rw [hstep] at hx
      rcases List.mem_cons.mp hx with rfl | hx
      · exact ha ▸ Nat.lt_succ_self c.arrived
      · have := h.fresh x hx
        omega

theorem run (ops : List (Op α)) : Aged (run ops) :=
  List.foldlRecOn ops Client.step Aged.new fun _ h op _ => h.step op

theorem around (h : Aged c) {front back : List (Msg α)} (hms : c.msgs = front ++ m :: back) :
    (∀ x ∈ front, m.seq < x.seq) ∧ ∀ x ∈ back, x.seq < m.seq := by
  have hsorted := h.sorted
  rw [hms] at hsorted
  obtain ⟨-, hback, hfront⟩ := List.pairwise_append.mp hsorted
  exact ⟨fun x hx => hfront x hx m List.mem_cons_self, (List.pairwise_cons.mp hback).1⟩

end Aged

/-- The oldest message present that meets the predicate; `none` when none does. -/
def Oldest (c : Client α) (pred : α → Bool) : Option (Msg α) → Prop
  | some m => m ∈ c.msgs ∧ pred m.jv = true ∧ ∀ x ∈ c.msgs, pred x.jv = true → m.seq ≤ x.seq
  | none => ∀ x ∈ c.msgs, pred x.jv = false

namespace Aged

variable {c : Client α} {m : Msg α} {pred : α → Bool}

theorem getMsg_oldest (h : Aged c) : Oldest c (fun _ => true) c.getMsg.1 := by
  unfold Client.getMsg
  cases hl : c.msgs.getLast? with
  | none => simp [Oldest, List.getLast?_eq_none_iff.mp hl]
  | some m =>
    have hms : c.msgs = c.msgs.dropLast ++ m :: [] := (List.dropLast_append_getLast? m hl).symm
    obtain ⟨hfront, -⟩ := h.around hms
    refine ⟨by rw [hms]; simp, rfl, fun x hx _ => ?_⟩
    rw [hms] at hx
    rcases List.mem_append.mp hx with hx | hx
    · exact (hfront x hx).le
    · rw [List.mem_singleton.mp hx]

/-- `findMsg` returns the newest message that meets the predicate, so it returns the oldest just
when there is no other. -/
theorem findMsg_oldest_iff (h : Aged c) : Oldest c pred (c.findMsg pred).1 ↔
    (c.msgs.filter fun m => pred m.jv).length ≤ 1 := by
  unfold Client.findMsg
  cases hf : Client.find pred c.msgs with
  | none =>
    have hnone := Client.find_eq_none hf
    have hnil : c.msgs.filter (fun m => pred m.jv) = [] :=
      List.filter_eq_nil_iff.mpr fun x hx => by simp [hnone x hx]
    exact ⟨fun _ => by simp [hnil], fun _ => hnone⟩
  | some r =>
    obtain ⟨m, rest⟩ := r
    obtain ⟨front, back, hms, -, hm, hfront⟩ := Client.find_eq_some hf
    obtain ⟨-, hback⟩ := h.around hms
    have hfilter : c.msgs.filter (fun m => pred m.jv) = m :: back.filter fun m => pred m.jv := by
      have hnil : front.filter (fun m => pred m.jv) = [] :=
        List.filter_eq_nil_iff.mpr fun x hx => by simp [hfront x hx]
      rw [hms, List.filter_append, hnil, List.filter_cons_of_pos (by simp [hm]), List.nil_append]
    have hlen : (c.msgs.filter fun m => pred m.jv).length ≤ 1 ↔ ∀ x ∈ back, pred x.jv = false := by
      rw [hfilter, List.length_cons]
      simp [List.filter_eq_nil_iff]
    rw [hlen]
    constructor
    · rintro ⟨-, -, hle⟩ x hx
      by_contra hp
      have hxm : m.seq ≤ x.seq := hle x (by simp [hms, hx]) (by simpa using hp)
      exact absurd (hback x hx) (not_lt.mpr hxm)
    · intro hnone
      refine ⟨by simp [hms], hm, fun x hx hp => ?_⟩
      rw [hms] at hx
      rcases List.mem_append.mp hx with hx | hx
      · simp [hfront x hx] at hp
      · rcases List.mem_cons.mp hx with rfl | hx
        · exact le_rfl
        · simp [hnone x hx] at hp

/-- With at most one message present the two ends of the list are the same. -/
theorem findMsg_eq_getMsg (htrue : ∀ a, pred a = true) (hlen : c.msgs.length ≤ 1) :
    c.findMsg pred = c.getMsg := by
  unfold Client.findMsg Client.getMsg
  match hms : c.msgs, hlen with
  | [], _ => rfl
  | [m], _ => simp [Client.find, htrue]

end Aged

/-! ## Whole runs -/

theorem run_append (ops ops' : List (Op α)) :
    run (ops ++ ops') = ops'.foldl Client.step (run ops) := by
  unfold run
  rw [List.foldl_append]

/-- The queue delivers each message once and in order, at every call of the run. -/
structure InOrder (ops : List (Op α)) : Prop where
  /-- No message is returned by two calls. -/
  once : ∀ pre₁ op₁ pre₂ op₂ m₁ m₂, pre₁ ++ [op₁] <+: pre₂ → pre₂ ++ [op₂] <+: ops →
    (run pre₁).result op₁ = some m₁ → (run pre₂).result op₂ = some m₂ → m₁.seq ≠ m₂.seq
  /-- A message that arrived is present until a call returns it. -/
  available : ∀ pre jv pre', (run pre).reading = true → pre ++ [.read (.ok jv)] <+: pre' →
    pre' <+: ops → ⟨(run pre).arrived, jv⟩ ∈ (run pre').msgs ∨
      ∃ pre₁ op, pre₁ ++ [op] <+: pre' ∧ (run pre₁).result op = some ⟨(run pre).arrived, jv⟩
  getMsg : ∀ pre, pre ++ [.getMsg] <+: ops → Oldest (run pre) (fun _ => true) (run pre).getMsg.1
  findMsg : ∀ pre pred, pre ++ [.findMsg pred] <+: ops →
    Oldest (run pre) pred ((run pre).findMsg pred).1
  /-- Calls with one predicate return messages in the order of their arrival. -/
  successive : ∀ pre₁ pre₂ pred m₁ m₂, pre₁ ++ [.findMsg pred] <+: pre₂ →
    pre₂ ++ [.findMsg pred] <+: ops → (run pre₁).result (.findMsg pred) = some m₁ →
    (run pre₂).result (.findMsg pred) = some m₂ → m₁.seq < m₂.seq
  /-- With a predicate that is always true `findMsg` is `getMsg`. -/
  agrees : ∀ pre pred, (∀ a, pred a = true) → pre ++ [.findMsg pred] <+: ops →
    (run pre).findMsg pred = (run pre).getMsg

/-- At most one message present meets the predicate of a call of `findMsg`. -/
def singly (c : Client α) : Op α → Bool
  | .findMsg pred => decide ((c.msgs.filter fun m => pred m.jv).length ≤ 1)
  | _ => true

section

variable {c : Client α} {m : Msg α} {pred : α → Bool} {i : Nat}

/-- No message with the number is present, nor will there be one. -/
def Gone (i : Nat) (c : Client α) : Prop := i < c.arrived ∧ ∀ x ∈ c.msgs, x.seq ≠ i

theorem gone_of_result {op : Op α} (h : Aged c) (hr : c.result op = some m) :
    Gone m.seq (c.step op) := by
  refine ⟨(h.fresh m (Client.result_mem hr)).trans_le (c.arrived_le op), fun x hx => ?_⟩
  obtain ⟨front, back, hms, hstep⟩ := Client.step_of_result hr
  obtain ⟨hfront, hback⟩ := h.around hms
  rw [hstep] at hx
  rcases List.mem_append.mp hx with hx | hx
  · exact (hfront x hx).ne'
  · exact (hback x hx).ne

theorem Gone.step (h : Gone i c) (op : Op α) : Gone i (c.step op) := by
  refine ⟨h.1.trans_le (c.arrived_le op), fun x hx => ?_⟩
  rcases Client.mem_of_mem_step hx with hx | hx
  · exact h.2 x hx
  · have := h.1
    omega

/-- Every message present that meets the predicate is newer than the number. -/
def Newer (pred : α → Bool) (i : Nat) (c : Client α) : Prop :=
  i < c.arrived ∧ ∀ x ∈ c.msgs, pred x.jv = true → i < x.seq

theorem Newer.step (h : Newer pred i c) (op : Op α) : Newer pred i (c.step op) := by
  refine ⟨h.1.trans_le (c.arrived_le op), fun x hx hp => ?_⟩
  rcases Client.mem_of_mem_step hx with hx | hx
  · exact h.2 x hx hp
  · have := h.1
    omega

/-- After the oldest message that meets the predicate was taken, the others are newer. -/
theorem newer_of_oldest (h : Aged c) (hold : Oldest c pred (c.findMsg pred).1)
    (hr : c.result (.findMsg pred) = some m) : Newer pred m.seq (c.step (.findMsg pred)) := by
  obtain ⟨hlt, hne⟩ := gone_of_result h hr
  have hr' : (c.findMsg pred).1 = some m := hr
  rw [hr'] at hold
  refine ⟨hlt, fun x hx hp => lt_of_le_of_ne ?_ (hne x hx).symm⟩
  rcases Client.mem_of_mem_step hx with hx | hx
  · exact hold.2.2 x hx hp
  · have := h.fresh m (Client.result_mem hr)
    omega

theorem pred_of_result (hr : c.result (.findMsg pred) = some m) : pred m.jv = true := by
  have hr' : (c.findMsg pred).1 = some m := hr
  unfold Client.findMsg at hr'
  cases hf : Client.find pred c.msgs with
  | none =>
    rw [hf] at hr'
    cases hr'
  | some r =>
    rw [hf] at hr'
    cases hr'
    obtain ⟨front, back, -, -, hm, -⟩ := Client.find_eq_some hf
    exact hm

/-- What the first operations established and every operation keeps holds later in the run. -/
theorem later {I : Client α → Prop} (hstep : ∀ c op, I c → I (c.step op)) {pre pre' : List (Op α)}
    {op : Op α} (h : I ((run pre).step op)) (hpre : pre ++ [op] <+: pre') : I (run pre') := by
  obtain ⟨rest, rfl⟩ := hpre
  rw [run_append, run_append]
  exact List.foldlRecOn rest Client.step h fun c hc op _ => hstep c op hc

theorem available_later (ops : List (Op α)) (hm : m ∈ c.msgs) :
    m ∈ (ops.foldl Client.step c).msgs ∨
      ∃ pre op, pre ++ [op] <+: ops ∧ (pre.foldl Client.step c).result op = some m := by
  induction ops generalizing c with
  | nil => exact Or.inl hm
  | cons op ops ih =>
    rcases Client.stays op hm with hm' | hr
    · rcases ih hm' with h | ⟨pre, op', hpre, hr⟩
      · exact Or.inl h
      · exact Or.inr ⟨op :: pre, op', List.cons_prefix_cons.mpr ⟨rfl, hpre⟩, hr⟩
    · exact Or.inr ⟨[], op, by simp, hr⟩

end

/-- The queue of the client delivers each message once and in order in exactly those runs in
which no call of `findMsg` finds more than one message that meets its predicate. -/
theorem inOrder_iff (ops : List (Op α)) :
    InOrder ops ↔ along Client.step singly Client.new ops = true := by
  constructor
  · intro h
    refine along_iff.mpr fun pre op hpre => ?_
    cases op with
    | read r => rfl
    | getMsg => rfl
    | findMsg pred =>
      exact decide_eq_true ((Aged.run pre).findMsg_oldest_iff.mp (h.findMsg pre pred hpre))
  · intro h
    have hone : ∀ pre pred, pre ++ [.findMsg pred] <+: ops →
        ((run pre).msgs.filter fun m => pred m.jv).length ≤ 1 :=
      fun pre pred hpre => of_decide_eq_true (along_iff.mp h pre _ hpre)
    have hold : ∀ pre pred, pre ++ [.findMsg pred] <+: ops →
        Oldest (run pre) pred ((run pre).findMsg pred).1 :=
      fun pre pred hpre => (Aged.run pre).findMsg_oldest_iff.mpr (hone pre pred hpre)
    constructor
    · intro pre₁ op₁ pre₂ op₂ m₁ m₂ hpre₁ hpre₂ hr₁ hr₂
      have hgone := later (I := Gone m₁.seq) (fun _ op hg => hg.step op)
        (gone_of_result (Aged.run pre₁) hr₁) hpre₁
      exact (hgone.2 m₂ (Client.result_mem hr₂)).symm
    · intro pre jv pre' hread hpre hpre'
      obtain ⟨rest, rfl⟩ := hpre
      have hmem : ⟨(run pre).arrived, jv⟩ ∈ (run (pre ++ [.read (.ok jv)])).msgs := by
        simp [run_append, Client.step, Client.apply, hread, Client.onReadMsg]
      rw [run_append]
      refine (available_later rest hmem).imp id ?_
      rintro ⟨pre₁, op, hpre₁, hr⟩
      refine ⟨pre ++ [.read (.ok jv)] ++ pre₁, op, ?_, by rw [run_append]; exact hr⟩
      rw [List.append_assoc _ pre₁]
      exact (List.prefix_append_right_inj _).mpr hpre₁
    · exact fun pre _ => (Aged.run pre).getMsg_oldest
    · exact hold
    · intro pre₁ pre₂ pred m₁ m₂ hpre₁ hpre₂ hr₁ hr₂
      have hpre : pre₁ ++ [.findMsg pred] <+: ops :=
        hpre₁.trans ((List.prefix_append _ _).trans hpre₂)
      have hnewer := later (I := Newer pred m₁.seq) (fun _ op hn => hn.step op)
        (newer_of_oldest (Aged.run pre₁) (hold pre₁ pred hpre) hr₁) hpre₁
      exact hnewer.2 m₂ (Client.result_mem hr₂) (pred_of_result hr₂)
    · intro pre pred htrue hpre
      have hlen := hone pre pred hpre
      simp only [htrue, List.filter_true] at hlen
      exact Aged.findMsg_eq_getMsg htrue hlen

/-- Two messages arrive and `findMsg` is called for any message: it returns the second. -/
theorem newest_first : ¬ InOrder [.read (.ok 1), .read (.ok 2), .findMsg fun _ : Nat => true] := by
  intro h
  have hle : 1 ≤ 0 := (h.findMsg [.read (.ok 1), .read (.ok 2)] (fun _ => true)
    (List.prefix_refl _)).2.2 ⟨0, 1⟩ (by decide) rfl
  exact absurd hle (by decide)

end Metcalfe.WSClient
