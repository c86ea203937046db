import Metcalfe.Library.Simulation

/-!
# A map that is saved in batches

A map from keys to values that several callers use at once. A value that is inserted is first
`fresh`; now and then the fresh ones become a batch that is being saved, and then the batch is
saved. When the system crashes, or cannot save everything when it is closed, the saved values are
kept, the fresh ones are lost, and the batch is kept or lost as a whole before the system is opened
again.

A call takes effect at one moment between its beginning and its reply. The events are what the
callers and whoever starts the system see. What a fetch replies was there before or was inserted
(`found`). What one caller is told the others are told later, until there is a crash or a close that
fails (`fetch_of_told`), and ever after if the system was closed in between (`fetch_of_closed`).
-/

namespace Metcalfe.DurableMap

open Simulation

variable {ι K V : Type}

inductive Op (K V : Type)
  | fetch (key : K)
  | insert (key : K) (value : V)
  deriving DecidableEq, Repr

def Op.key : Op K V → K
  | fetch k => k
  | insert k _ => k

def Op.isInsert : Op K V → Bool
  | fetch _ => false
  | insert _ _ => true

inductive Reply (V : Type)
  | value (v : V)
  | missing
  | inserted
  | exists_
  | failed
  deriving DecidableEq, Repr

/-- What a fetch replies. -/
def Reply.ofOption : Option V → Reply V
  | some v => .value v
  | none => .missing

/-- Where a caller is. -/
inductive Call (K V : Type)
  | idle
  | called (op : Op K V)
  | answered (op : Op K V) (r : Reply V)
  deriving DecidableEq, Repr

inductive Event (ι K V : Type)
  | call (i : ι) (op : Op K V)
  | reply (i : ι) (op : Op K V) (r : Reply V)
  | opened
  | closed
  /-- The system is closed, and not everything is saved. -/
  | closeFailed
  | crashed
  deriving DecidableEq, Repr

structure Content (K V : Type) where
  saved : K → Option V
  saving : K → Option V
  fresh : K → Option V

namespace Content

def get (c : Content K V) (k : K) : Option V := ((c.saved k).or (c.saving k)).or (c.fresh k)

def Has (c : Content K V) (k : K) (v : V) : Prop :=
  c.saved k = some v ∨ c.saving k = some v ∨ c.fresh k = some v

theorem has_of_get {c : Content K V} {k : K} {v : V} (h : c.get k = some v) : c.Has k v := by
  rcases Option.or_eq_some_iff.mp h with h | ⟨-, h⟩
  · rcases Option.or_eq_some_iff.mp h with h | ⟨-, h⟩
    · exact .inl h
    · exact .inr (.inl h)
  · exact .inr (.inr h)

/-- The fresh values become a batch. -/
def batch (c : Content K V) : Content K V :=
  { c with saving := c.fresh, fresh := fun _ => none }

/-- The batch is saved. -/
def save (c : Content K V) : Content K V :=
  { c with saved := fun k => (c.saved k).or (c.saving k), saving := fun _ => none }

/-- What is left of the values when the system is gone: the fresh ones are lost. -/
def halt (c : Content K V) : Content K V := { c with fresh := fun _ => none }

/-- The batch is lost. -/
def lose (c : Content K V) : Content K V := { c with saving := fun _ => none }

end Content

structure State (ι K V : Type) where
  content : Content K V
  up : Bool
  calls : ι → Call K V

section Contents

variable {s : State ι K V} {k : K} {v : V}

theorem get_of_saved (hs : s.content.saved k = some v) : s.content.get k = some v := by
  rw [Content.get, hs, Option.some_or, Option.some_or]

theorem Content.get_save (c : Content K V) (k : K) : c.save.get k = c.get k := by
  show (((c.saved k).or (c.saving k)).or none).or (c.fresh k) = _
  rw [Option.or_none]
  rfl

theorem Content.get_batch {c : Content K V} (h : c.saving = fun _ => none) (k : K) :
    c.batch.get k = c.get k := by
  show ((c.saved k).or (c.fresh k)).or none = ((c.saved k).or (c.saving k)).or (c.fresh k)
  rw [h, Option.or_none, Option.or_none]

end Contents

section Steps

variable [DecidableEq ι]

def State.set (s : State ι K V) (i : ι) (c : Call K V) : State ι K V :=
  { s with calls := Function.update s.calls i c }

@[simp]
theorem State.calls_set_self (s : State ι K V) (i : ι) (c : Call K V) : (s.set i c).calls i = c := by
  simp [State.set]

theorem State.calls_set_of_ne (s : State ι K V) {i j : ι} (h : j ≠ i) (c : Call K V) :
    (s.set i c).calls j = s.calls j := by
  simp [State.set, h]

theorem State.calls_of_set {s : State ι K V} {i j : ι} {c c' : Call K V} (hc : c ≠ c')
    (h : (s.set j c).calls i = c') : s.calls i = c' := by
  by_cases hij : i = j
  · subst hij
    rw [State.calls_set_self] at h
    exact absurd h hc
  · rwa [State.calls_set_of_ne s hij] at h

@[simp]
theorem State.set_calls (s : State ι K V) (i : ι) : s.set i (s.calls i) = s := by
  rw [State.set, Function.update_eq_self]

variable [DecidableEq K]

inductive Step : State ι K V → Option (Event ι K V) → State ι K V → Prop
  | call {s : State ι K V} {i : ι} (op : Op K V) (hup : s.up = true) (h : s.calls i = .idle) :
      Step s (some (.call i op)) (s.set i (.called op))
  | fetch {s : State ι K V} {i : ι} {k : K} (h : s.calls i = .called (.fetch k)) :
      Step s none (s.set i (.answered (.fetch k) (.ofOption (s.content.get k))))
  | insert {s : State ι K V} {i : ι} {k : K} {v : V} (h : s.calls i = .called (.insert k v))
      (hnew : s.content.get k = none) :
      Step s none { s.set i (.answered (.insert k v) .inserted) with
        content := { s.content with fresh := Function.update s.content.fresh k (some v) } }
  | exists_ {s : State ι K V} {i : ι} {k : K} {v : V} (h : s.calls i = .called (.insert k v))
      (hold : (s.content.get k).isSome = true) :
      Step s none (s.set i (.answered (.insert k v) .exists_))
  | fails {s : State ι K V} {i : ι} {op : Op K V} (h : s.calls i = .called op) :
      Step s none (s.set i (.answered op .failed))
  /-- An answer that is not returned, of a call that has changed nothing. -/
  | drops {s : State ι K V} {i : ι} {op : Op K V} {r : Reply V} (h : s.calls i = .answered op r)
      (hr : r ≠ .inserted) : Step s none (s.set i (.answered op .failed))
  | reply {s : State ι K V} {i : ι} {op : Op K V} {r : Reply V} (h : s.calls i = .answered op r) :
      Step s (some (.reply i op r)) (s.set i .idle)
  | batch {s : State ι K V} (h : s.content.saving = fun _ => none) :
      Step s none { s with content := s.content.batch }
  | save {s : State ι K V} : Step s none { s with content := s.content.save }
  | lose {s : State ι K V} (h : s.up = false) : Step s none { s with content := s.content.lose }
  | opened {s : State ι K V} (h : s.up = false) (hsaving : s.content.saving = fun _ => none) :
      Step s (some .opened) { s with up := true }
  | closed {s : State ι K V} (hidle : s.calls = fun _ => .idle)
      (hsaving : s.content.saving = fun _ => none) (hfresh : s.content.fresh = fun _ => none) :
      Step s (some .closed) { s with up := false }
  | closeFailed {s : State ι K V} (hidle : s.calls = fun _ => .idle) :
      Step s (some .closeFailed) ⟨s.content.halt, false, fun _ => .idle⟩
  | crashed {s : State ι K V} :
      Step s (some .crashed) ⟨s.content.halt, false, fun _ => .idle⟩

variable {s s' : State ι K V} {l : List (Event ι K V)} {k : K} {v : V}

/-! ## What stays -/

/-- What is saved stays, whatever happens. -/
theorem saved_of_trace (h : Trace Step s l s') (hs : s.content.saved k = some v) :
    s'.content.saved k = some v := by
  refine h.invariant (I := fun s => s.content.saved k = some v) (fun s e s' hs hstep => ?_) hs
  cases hstep with
  | save =>
    show (s.content.saved k).or _ = _
    rw [hs, Option.some_or]
  | _ => exact hs

/-- Neither a crash nor a close that fails. -/
def Unbroken (l : List (Event ι K V)) : Prop := .crashed ∉ l ∧ .closeFailed ∉ l

omit [DecidableEq ι] [DecidableEq K] in
theorem Unbroken.nil : Unbroken ([] : List (Event ι K V)) := by
  simp [Unbroken]

omit [DecidableEq ι] [DecidableEq K] in
theorem unbroken_append {l l' : List (Event ι K V)} :
    Unbroken (l ++ l') ↔ Unbroken l ∧ Unbroken l' := by
  simp only [Unbroken, List.mem_append, not_or]
  tauto

/-- `k` has the value `v`, and while the system is not open this is saved. -/
def Holds (s : State ι K V) (k : K) (v : V) : Prop :=
  s.content.get k = some v ∧ (s.up = false → s.content.saved k = some v)

theorem Step.holds {e : Option (Event ι K V)} (h : Step s e s') (hbroken : Unbroken e.toList)
    (hs : Holds s k v) : Holds s' k v := by
  obtain ⟨hget, hsaved⟩ := hs
  cases h with
  | @insert i k' v' hcall hnew =>
    have hne : k ≠ k' := by
      rintro rfl
      rw [hget] at hnew
      cases hnew
    refine ⟨?_, hsaved⟩
    show ((s.content.saved k).or (s.content.saving k)).or
      (Function.update s.content.fresh k' (some v') k) = _
    rw [Function.update_of_ne hne]
    exact hget
  | batch hnone => exact ⟨(s.content.get_batch hnone k).trans hget, hsaved⟩
  | save =>
    refine ⟨(s.content.get_save k).trans hget, fun hup => ?_⟩
    show (s.content.saved k).or _ = _
    rw [hsaved hup, Option.some_or]
  | lose hup => exact ⟨get_of_saved (hsaved hup), hsaved⟩
  | opened _ _ => exact ⟨hget, nofun⟩
  | closed _ hsaving hfresh =>
    refine ⟨hget, fun _ => ?_⟩
    rwa [Content.get, hsaving, hfresh, Option.or_none, Option.or_none] at hget
  | closeFailed _ => exact absurd (by simp) hbroken.2
  | crashed => exact absurd (by simp) hbroken.1
  | _ => exact ⟨hget, hsaved⟩

/-- What is there stays, unless there is a crash or a close that fails. -/
theorem holds_of_trace (h : Trace Step s l s') (hbroken : Unbroken l) (hs : Holds s k v) :
    Holds s' k v := by
  induction h with
  | nil => exact hs
  | @cons s₁ s₂ s₃ e l hstep _ ih =>
    obtain ⟨he, hl⟩ := unbroken_append.mp hbroken
    exact ih hl (hstep.holds he hs)

/-! ## What a caller is told -/

/-- A caller who is called was so before, or the call is the event. -/
theorem Step.called {e : Option (Event ι K V)} (h : Step s e s') {i : ι} {op : Op K V}
    (hi : s'.calls i = .called op) : s.calls i = .called op ∨ e = some (.call i op) := by
  cases h with
  | @call j op' hup hidle =>
    by_cases hij : i = j
    · subst hij
      rw [State.calls_set_self, Call.called.injEq] at hi
      rw [hi]
      exact .inr rfl
    · rw [State.calls_set_of_ne s hij] at hi
      exact .inl hi
  | fetch _ => exact .inl (State.calls_of_set (by simp) hi)
  | insert _ _ => exact .inl (State.calls_of_set (by simp) hi)
  | exists_ _ _ => exact .inl (State.calls_of_set (by simp) hi)
  | fails _ => exact .inl (State.calls_of_set (by simp) hi)
  | drops _ _ => exact .inl (State.calls_of_set (by simp) hi)
  | reply _ => exact .inl (State.calls_of_set (by simp) hi)
  | closeFailed _ => cases hi
  | crashed => cases hi
  | _ => exact .inl hi

/-- What the map has it had before, or it is inserted. -/
theorem Step.has {e : Option (Event ι K V)} (h : Step s e s') (hv : s'.content.Has k v) :
    s.content.Has k v ∨ ∃ i, s.calls i = .called (.insert k v) := by
  cases h with
  | @insert i k' v' hcall hnew =>
    rcases hv with hv | hv | hv
    · exact .inl (.inl hv)
    · exact .inl (.inr (.inl hv))
    · have hv' : Function.update s.content.fresh k' (some v') k = some v := hv
      by_cases hk : k = k'
      · subst hk
        rw [Function.update_self, Option.some.injEq] at hv'
        subst hv'
        exact .inr ⟨i, hcall⟩
      · rw [Function.update_of_ne hk] at hv'
        exact .inl (.inr (.inr hv'))
  | batch _ =>
    rcases hv with hv | hv | hv
    · exact .inl (.inl hv)
    · exact .inl (.inr (.inr hv))
    · cases hv
  | save =>
    rcases hv with hv | hv | hv
    · rcases Option.or_eq_some_iff.mp hv with hv | ⟨-, hv⟩
      · exact .inl (.inl hv)
      · exact .inl (.inr (.inl hv))
    · cases hv
    · exact .inl (.inr (.inr hv))
  | lose _ =>
    rcases hv with hv | hv | hv
    · exact .inl (.inl hv)
    · cases hv
    · exact .inl (.inr (.inr hv))
  | closeFailed _ =>
    rcases hv with hv | hv | hv
    · exact .inl (.inl hv)
    · exact .inl (.inr (.inl hv))
    · cases hv
  | crashed =>
    rcases hv with hv | hv | hv
    · exact .inl (.inl hv)
    · exact .inl (.inr (.inl hv))
    · cases hv
  | _ => exact .inl hv

/-- A caller who is busy is one of a system that is open. -/
theorem Step.busy {e : Option (Event ι K V)} (h : Step s e s')
    (hup : ∀ i, s.calls i ≠ .idle → s.up = true) {i : ι} (hi : s'.calls i ≠ .idle) :
    s'.up = true := by
  have hset : ∀ {j c}, s.calls j ≠ .idle → (s.set j c).calls i ≠ .idle → s.up = true :=
    fun hj _ => hup _ hj
  cases h with
  | call _ hopen _ => exact hopen
  | fetch hcall => exact hset (by rw [hcall]; simp) hi
  | insert hcall _ => exact hup _ (by rw [hcall]; simp)
  | exists_ hcall _ => exact hset (by rw [hcall]; simp) hi
  | fails hcall => exact hset (by rw [hcall]; simp) hi
  | drops hcall _ => exact hset (by rw [hcall]; simp) hi
  | reply hcall => exact hset (by rw [hcall]; simp) hi
  | opened _ _ => rfl
  | closed hidle _ _ => exact absurd (congrFun hidle i) hi
  | closeFailed _ => exact absurd rfl hi
  | crashed => exact absurd rfl hi
  | _ => exact hup i hi

theorem up_of_busy {s₀ : State ι K V} (h : Trace Step s₀ l s) (hidle : s₀.calls = fun _ => .idle)
    {i : ι} (hi : s.calls i ≠ .idle) : s.up = true := by
  refine h.invariant (I := fun s => ∀ i, s.calls i ≠ .idle → s.up = true)
    (fun s e s' hs hstep i hi => hstep.busy hs hi) (fun i hi => ?_) i hi
  exact absurd (congrFun hidle i) hi

theorem Step.replied {i : ι} {op : Op K V} {r : Reply V} (h : Step s (some (.reply i op r)) s') :
    s.calls i = .answered op r := by
  cases h with
  | reply h => exact h

/-- A reply from which its caller knows that `k` has the value `v`. -/
def Tells (k : K) (v : V) (op : Op K V) (r : Reply V) : Prop :=
  op = .insert k v ∧ r = .inserted ∨ op = .fetch k ∧ r = .value v

theorem Step.tells {e : Option (Event ι K V)} (h : Step s e s') {i : ι} {op : Op K V} {r : Reply V}
    (hi : s'.calls i = .answered op r) (ht : Tells k v op r) :
    s.calls i = .answered op r ∨ s'.content.get k = some v := by
  cases h with
  | call _ _ _ => exact .inl (State.calls_of_set (by simp) hi)
  | @fetch j k' hcall =>
    by_cases hij : i = j
    · subst hij
      rw [State.calls_set_self, Call.answered.injEq] at hi
      obtain ⟨rfl, rfl⟩ := hi
      obtain ⟨hop, -⟩ | ⟨hop, hr⟩ := ht
      · cases hop
      · cases hop
        refine .inr ?_
        show s.content.get k = some v
        cases hget : s.content.get k with
        | none =>
          rw [hget] at hr
          cases hr
        | some v' =>
          rw [hget] at hr
          cases hr
          rfl
    · rw [State.calls_set_of_ne s hij] at hi
      exact .inl hi
  | @insert j k' v' hcall hnew =>
    by_cases hij : i = j
    · subst hij
      have hi' : Call.answered (.insert k' v') .inserted = Call.answered op r := by
        rwa [← State.calls_set_self s i (.answered (.insert k' v') .inserted)]
      rw [Call.answered.injEq] at hi'
      obtain ⟨rfl, rfl⟩ := hi'
      obtain ⟨hop, -⟩ | ⟨hop, -⟩ := ht
      · cases hop
        refine .inr ?_
        show ((s.content.saved k).or (s.content.saving k)).or
          (Function.update s.content.fresh k (some v) k) = _
        rw [Function.update_self, (Option.or_eq_none_iff.mp hnew).1, Option.none_or]
      · cases hop
    · exact .inl ((State.calls_set_of_ne s hij _).symm.trans hi)
  | @exists_ j k' v' _ _ =>
    refine .inl (State.calls_of_set ?_ hi)
    rintro ⟨⟩
    obtain ⟨-, hr⟩ | ⟨hop, -⟩ := ht
    · cases hr
    · cases hop
  | fails _ =>
    refine .inl (State.calls_of_set ?_ hi)
    rintro ⟨⟩
    obtain ⟨-, hr⟩ | ⟨-, hr⟩ := ht <;> cases hr
  | drops _ _ =>
    refine .inl (State.calls_of_set ?_ hi)
    rintro ⟨⟩
    obtain ⟨-, hr⟩ | ⟨-, hr⟩ := ht <;> cases hr
  | reply _ => exact .inl (State.calls_of_set (by simp) hi)
  | closeFailed _ => cases hi
  | crashed => cases hi
  | _ => exact .inl hi

/-- What a caller is going to be told is there. -/
theorem told {s₀ : State ι K V} (h : Trace Step s₀ l s) (hidle : s₀.calls = fun _ => .idle) {i : ι}
    {op : Op K V} {r : Reply V} (hi : s.calls i = .answered op r) (ht : Tells k v op r) :
    Holds s k v := by
  refine (h.invariant (I := fun s => (∀ j, s.calls j ≠ .idle → s.up = true) ∧
    (s.calls i = .answered op r → Holds s k v)) (fun s e s' hs hstep => ?_) ?_).2 hi
  · obtain ⟨hup, hs⟩ := hs
    refine ⟨fun j hj => hstep.busy hup hj, fun hi' => ?_⟩
    have hopen : s'.up = true := hstep.busy hup (i := i) (by rw [hi']; simp)
    rcases hstep.tells hi' ht with hi | hget
    · refine hstep.holds ⟨?_, ?_⟩ (hs hi)
      · rw [Option.mem_toList]
        rintro rfl
        cases hstep
        cases hi'
      · rw [Option.mem_toList]
        rintro rfl
        cases hstep
        cases hi'
    · exact ⟨hget, fun hdown => by rw [hopen] at hdown; cases hdown⟩
  · simp [hidle]

/-- The value was there at the beginning, or its insertion was called. -/
def Given (s₀ : State ι K V) (l : List (Event ι K V)) (k : K) (v : V) : Prop :=
  s₀.content.Has k v ∨ ∃ j, .call j (.insert k v) ∈ l

/-- What is known of a state from the events that lead to it. -/
structure Known (s₀ : State ι K V) (l : List (Event ι K V)) (s : State ι K V) : Prop where
  has : ∀ k v, s.content.Has k v → Given s₀ l k v
  called : ∀ i op, s.calls i = .called op → .call i op ∈ l
  answered : ∀ i k v, s.calls i = .answered (.fetch k) (.value v) → Given s₀ l k v
  replied : ∀ i k v, .reply i (.fetch k) (.value v) ∈ l → Given s₀ l k v

theorem Known.step {s₀ : State ι K V} {e : Option (Event ι K V)} (h : Known s₀ l s)
    (hstep : Step s e s') : Known s₀ (l ++ e.toList) s' := by
  have happend : ∀ {k v}, Given s₀ l k v → Given s₀ (l ++ e.toList) k v :=
    fun h => h.imp_right fun ⟨j, hj⟩ => ⟨j, List.mem_append_left _ hj⟩
  have hhas : ∀ k v, s'.content.Has k v → Given s₀ (l ++ e.toList) k v := by
    intro k v hk
    rcases hstep.has hk with hk | ⟨i, hi⟩
    · exact happend (h.has k v hk)
    · exact .inr ⟨i, List.mem_append_left _ (h.called i _ hi)⟩
  refine ⟨hhas, fun i op hi => ?_, fun i k v hi => ?_, fun i k v hi => ?_⟩
  · rcases hstep.called hi with hi | rfl
    · exact List.mem_append_left _ (h.called i op hi)
    · simp
  · rcases hstep.tells hi (.inr ⟨rfl, rfl⟩) with hi | hget
    · exact happend (h.answered i k v hi)
    · exact hhas k v (Content.has_of_get hget)
  · rcases List.mem_append.mp hi with hi | hi
    · exact happend (h.replied i k v hi)
    · obtain rfl := Option.mem_toList.mp hi
      exact happend (h.answered i k v hstep.replied)

theorem known {s₀ : State ι K V} (h : Trace Step s₀ l s) (hidle : s₀.calls = fun _ => .idle) :
    Known s₀ l s := by
  have hstart : Known s₀ [] s₀ := ⟨fun _ _ => .inl, by simp [hidle], by simp [hidle], by simp⟩
  exact h.history (fun _ _ _ _ hl hstep => hl.step hstep) hstart

/-- What a fetch replies was there at the beginning, or its insertion was called. -/
theorem found {s₀ : State ι K V} (h : Trace Step s₀ l s) (hidle : s₀.calls = fun _ => .idle)
    {i : ι} (hi : .reply i (.fetch k) (.value v) ∈ l) : Given s₀ l k v :=
  (known h hidle).replied i k v hi

/-! ## What others are told -/

/-- A caller who is going to be told the value of `k`, if anything. -/
def Fetching (k : K) (v : V) (c : Call K V) : Prop :=
  c = .called (.fetch k) ∨ c = .answered (.fetch k) (.value v) ∨ c = .answered (.fetch k) .failed

theorem Step.fetching {e : Option (Event ι K V)} (h : Step s e s') {i : ι}
    (hget : s.content.get k = some v) (hi : Fetching k v (s.calls i)) (hbroken : Unbroken e.toList)
    (hreply : ∀ op r, e ≠ some (.reply i op r)) : Fetching k v (s'.calls i) := by
  have hset : ∀ j c, (j = i → Fetching k v c) → Fetching k v ((s.set j c).calls i) := by
    intro j c hc
    by_cases hij : j = i
    · subst hij
      rw [State.calls_set_self]
      exact hc rfl
    · rw [State.calls_set_of_ne s (Ne.symm hij)]
      exact hi
  cases h with
  | call op hup hidle =>
    refine hset _ _ ?_
    rintro rfl
    rw [hidle] at hi
    rcases hi with hi | hi | hi <;> cases hi
  | fetch hcall =>
    refine hset _ _ ?_
    rintro rfl
    rw [hcall] at hi
    obtain hi | hi | hi := hi
    · cases hi
      rw [hget]
      exact .inr (.inl rfl)
    · cases hi
    · cases hi
  | insert hcall hnew =>
    refine hset _ _ ?_
    rintro rfl
    rw [hcall] at hi
    rcases hi with hi | hi | hi <;> cases hi
  | exists_ hcall hold =>
    refine hset _ _ ?_
    rintro rfl
    rw [hcall] at hi
    rcases hi with hi | hi | hi <;> cases hi
  | fails hcall =>
    refine hset _ _ ?_
    rintro rfl
    rw [hcall] at hi
    rcases hi with hi | hi | hi <;> cases hi
    exact .inr (.inr rfl)
  | drops hcall hr =>
    refine hset _ _ ?_
    rintro rfl
    rw [hcall] at hi
    rcases hi with hi | hi | hi <;> cases hi <;> exact .inr (.inr rfl)
  | @reply j op r hcall =>
    refine hset _ _ ?_
    rintro rfl
    exact absurd rfl (hreply op r)
  | closeFailed _ => exact absurd (by simp) hbroken.2
  | crashed => exact absurd (by simp) hbroken.1
  | _ => exact hi

theorem fetched (h : Trace Step s l s') {i : ι} (hs : Holds s k v) (hi : Fetching k v (s.calls i))
    (hbroken : Unbroken l) (hreply : ∀ op r, .reply i op r ∉ l) : Fetching k v (s'.calls i) := by
  induction h with
  | nil => exact hi
  | @cons s₁ s₂ s₃ e l hstep _ ih =>
    obtain ⟨he, hl⟩ := unbroken_append.mp hbroken
    have hnot : ∀ op r, e ≠ some (.reply i op r) := by
      rintro op r rfl
      exact hreply op r (by simp)
    exact ih (hstep.holds he hs) (hstep.fetching hs.1 hi he hnot) hl
      fun op r hmem => hreply op r (List.mem_append_right _ hmem)

/-- A fetch of a key that is there. -/
theorem fetch_of_holds {i : ι} {r : Reply V}
    (h : Trace Step s (.call i (.fetch k) :: (l ++ [.reply i (.fetch k) r])) s')
    (hs : Holds s k v) (hbroken : Unbroken l) (hreply : ∀ op r, .reply i op r ∉ l) :
    r = .value v ∨ r = .failed := by
  obtain ⟨a, b, ha, hcall, hrest⟩ := h.first
  obtain ⟨c, hc, hlast⟩ := hrest.split
  obtain ⟨c', d, hc', hr, -⟩ := hlast.first
  have hb : Holds b k v := hcall.holds (by simp [Unbroken]) (holds_of_trace ha .nil hs)
  have hcalled : b.calls i = .called (.fetch k) := by
    cases hcall with
    | call op hup hidle => rw [State.calls_set_self]
  have hfetching := fetched (hc.append hc') hb (.inl hcalled) (by simpa using hbroken)
    (by simpa using hreply)
  rw [hr.replied] at hfetching
  rcases hfetching with hf | hf | hf <;> cases hf
  · exact .inl rfl
  · exact .inr rfl

/-- What a caller was told is what others are told later, unless there is a crash or a close that
fails. -/
theorem fetch_of_told {i j : ι} {op : Op K V} {r r' : Reply V} {l₁ l₂ l₃ : List (Event ι K V)}
    (h : Trace Step s (l₁ ++ .reply j op r :: (l₂ ++
      .call i (.fetch k) :: (l₃ ++ [.reply i (.fetch k) r']))) s')
    (hidle : s.calls = fun _ => .idle) (ht : Tells k v op r) (h₂ : Unbroken l₂)
    (h₃ : Unbroken l₃) (hreply : ∀ op r, .reply i op r ∉ l₃) : r' = .value v ∨ r' = .failed := by
  obtain ⟨a, ha, hrest⟩ := h.split
  obtain ⟨b, c, hb, hr, hrest⟩ := hrest.first
  obtain ⟨d, hd, hrest⟩ := hrest.split
  have hs := hr.holds (by simp [Unbroken]) (told (ha.append hb) hidle hr.replied ht)
  exact fetch_of_holds hrest (holds_of_trace hd h₂ hs) h₃ hreply

/-- What a caller was told before the system was closed is what others are told ever after. -/
theorem fetch_of_closed {i j : ι} {op : Op K V} {r r' : Reply V}
    {l₁ l₂ m l₃ : List (Event ι K V)}
    (h : Trace Step s (l₁ ++ .reply j op r :: (l₂ ++ .closed :: (m ++
      .call i (.fetch k) :: (l₃ ++ [.reply i (.fetch k) r'])))) s')
    (hidle : s.calls = fun _ => .idle) (ht : Tells k v op r) (h₂ : Unbroken l₂)
    (h₃ : Unbroken l₃) (hreply : ∀ op r, .reply i op r ∉ l₃) : r' = .value v ∨ r' = .failed := by
  obtain ⟨a, ha, hrest⟩ := h.split
  obtain ⟨b, c, hb, hr, hrest⟩ := hrest.first
  obtain ⟨d, hd, hrest⟩ := hrest.split
  obtain ⟨d', e, hd', hclosed, hrest⟩ := hrest.first
  obtain ⟨f, hf, hrest⟩ := hrest.split
  have hs := hr.holds (by simp [Unbroken]) (told (ha.append hb) hidle hr.replied ht)
  have hget := (holds_of_trace (hd.append hd') (by simpa using h₂) hs).1
  have hsaved : e.content.saved k = some v := by
    cases hclosed with
    | closed _ hsaving hfresh =>
      rwa [Content.get, hsaving, hfresh, Option.or_none, Option.or_none] at hget
  have hsaved' := saved_of_trace hf hsaved
  exact fetch_of_holds hrest ⟨get_of_saved hsaved', fun _ => hsaved'⟩ h₃ hreply

end Steps

end Metcalfe.DurableMap
