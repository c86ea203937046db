import Metcalfe.Amendment.Round
import Metcalfe.Library.Steps

/-!
# The life cycle of an amendment over many rounds

An amendment gains a majority, may lose it again, and is enabled from a majority; then it is done.
The `switch` of `doRound` rejects an action that does not fit, with one exception: a majority can
be gained by an amendment that is enabled already. `lifeCycle_iff` says that this is the only way
out of the life cycle: rounds that do not throw follow it at every action just when no majority is
gained for an enabled amendment.
-/

namespace Metcalfe.Amendment

open Outcome Steps

variable {Hash Key : Type}

/-- An action with the time of its round. -/
structure Event (Hash : Type) where
  time : Nat
  action : Hash × UInt32

section Runs

variable [DecidableEq Hash]

/-- What an action leaves in the collections, also when it throws. -/
def after (flags : Flags) (s : Amendments Hash) (e : Event Hash) : Amendments Hash :=
  match applyAction flags e.time s e.action with
  | .ok t => t
  | .error _ => s

variable [DecidableEq Key]

def doRounds (flags : Flags) (s : Amendments Hash) (calls : List (Call Hash Key)) :
    Except Failure (Amendments Hash) :=
  calls.foldlM (fun s call => do
    let result ← doRound flags s call
    pure result.2) s

/-- The actions of a sequence of rounds, each with the time of its round. -/
def events (flags : Flags) : Amendments Hash → List (Call Hash Key) →
    Except Failure (List (Event Hash))
  | _, [] => pure []
  | s, call :: calls => do
    let actions ← call.actions s
    let result ← doRound flags s call
    let rest ← events flags result.2 calls
    pure (actions.map (Event.mk (weekTime call.week)) ++ rest)

end Runs

namespace Amendments

variable [DecidableEq Hash] (s : Amendments Hash) (hash hash' : Hash) (time : Nat)

@[simp]
theorem enable_majority :
    (s.enable hash).majority hash' = if hash' = hash then none else s.majority hash' :=
  Function.update_apply ..

@[simp]
theorem gain_majority :
    (s.gain hash time).majority hash' = if hash' = hash then some time else s.majority hash' :=
  Function.update_apply ..

@[simp]
theorem lose_majority :
    (s.lose hash).majority hash' = if hash' = hash then none else s.majority hash' :=
  Function.update_apply ..

end Amendments

section Actions

variable [DecidableEq Hash] {flags : Flags} {s t : Amendments Hash}

/-- What an action that does not throw can do. -/
theorem applyAction_cases {time : Nat} {action : Hash × UInt32}
    (h : applyAction flags time s action = .ok t) :
    (action.2 = 0 ∧ action.1 ∉ s.enabled ∧ s.majority action.1 ≠ none ∧
      t = s.enable action.1) ∨
    (action.2 = flags.tfGotMajority ∧ s.majority action.1 = none ∧
      t = s.gain action.1 time) ∨
    (action.2 = flags.tfLostMajority ∧ s.majority action.1 ≠ none ∧
      t = s.lose action.1) := by
  unfold applyAction at h
  dsimp only at h
  split at h
  · rename_i hcode
    split at h
    · cases h
    · rename_i henabled
      split at h
      · cases h
      · rename_i hmajority
        cases h
        exact .inl ⟨hcode, henabled, hmajority, rfl⟩
  · split at h
    · rename_i hcode
      split at h
      · cases h
      · rename_i hmajority
        cases h
        exact .inr (.inl ⟨hcode, not_not.mp hmajority, rfl⟩)
    · split at h
      · rename_i hcode
        split at h
        · cases h
        · rename_i hmajority
          cases h
          exact .inr (.inr ⟨hcode, hmajority, rfl⟩)
      · cases h

theorem after_eq {e : Event Hash} (h : applyAction flags e.time s e.action = .ok t) :
    after flags s e = t := by
  unfold after
  rw [h]

/-- A run without a throw ends in the state that its actions leave. -/
theorem foldl_after {es : List (Event Hash)}
    (h : es.foldlM (fun s e => applyAction flags e.time s e.action) s = .ok t) :
    es.foldl (after flags) s = t := by
  induction es generalizing s with
  | nil =>
    cases h
    rfl
  | cons e es ih =>
    rw [List.foldlM_cons, bind_eq_ok] at h
    obtain ⟨s', hstep, hrest⟩ := h
    rw [List.foldl_cons, after_eq hstep]
    exact ih hrest

/-- No action of a run without a throw has thrown. -/
theorem applyAction_of_run {es pre : List (Event Hash)} {e : Event Hash}
    (h : es.foldlM (fun s e => applyAction flags e.time s e.action) s = .ok t)
    (hpre : pre ++ [e] <+: es) :
    applyAction flags e.time (pre.foldl (after flags) s) e.action =
      .ok ((pre ++ [e]).foldl (after flags) s) := by
  obtain ⟨rest, rfl⟩ := hpre
  rw [List.foldlM_append, List.foldlM_append, bind_eq_ok] at h
  obtain ⟨s₂, h₂, -⟩ := h
  obtain ⟨s₁, h₁, hlast⟩ := bind_eq_ok.mp h₂
  rw [List.foldlM_cons, bind_eq_ok] at hlast
  obtain ⟨s₂', hstep, hnil⟩ := hlast
  cases hnil
  rw [List.foldl_append, List.foldl_cons, List.foldl_nil, foldl_after h₁, after_eq hstep]
  exact hstep

variable [DecidableEq Key]

/-- The actions of rounds that do not throw, as one run. -/
theorem events_of_doRounds {calls : List (Call Hash Key)} (h : doRounds flags s calls = .ok t) :
    ∃ es, events flags s calls = .ok es ∧
      es.foldlM (fun s e => applyAction flags e.time s e.action) s = .ok t := by
  induction calls generalizing s with
  | nil =>
    cases h
    exact ⟨[], rfl, rfl⟩
  | cons call calls ih =>
    unfold doRounds at h
    rw [List.foldlM_cons, bind_eq_ok] at h
    obtain ⟨s₁, hround, hrest⟩ := h
    obtain ⟨result, hresult, hs₁⟩ := bind_eq_ok.mp hround
    cases hs₁
    obtain ⟨actions, hactions, happly⟩ := bind_eq_ok.mp hresult
    obtain ⟨s', hfold, hpair⟩ := bind_eq_ok.mp happly
    cases hpair
    obtain ⟨es, hes, hrun⟩ := ih hrest
    refine ⟨actions.map (Event.mk (weekTime call.week)) ++ es, ?_, ?_⟩
    · exact bind_eq_ok.mpr ⟨actions, hactions,
        bind_eq_ok.mpr ⟨_, hresult, bind_eq_ok.mpr ⟨es, hes, rfl⟩⟩⟩
    · rw [List.foldlM_append, List.foldlM_map, bind_eq_ok]
      exact ⟨s', hfold, hrun⟩

end Actions

/-! ## Following the life cycle -/

/-- No enabled amendment has a majority. -/
def Apart (s : Amendments Hash) : Prop := ∀ hash ∈ s.enabled, s.majority hash = none

section LifeCycle

variable [DecidableEq Hash]

namespace Apart

variable {s : Amendments Hash} {hash : Hash}

theorem lose (h : Apart s) : Apart (s.lose hash) := by
  intro hash' hmem
  rw [Amendments.lose_majority]
  split
  · rfl
  · exact h hash' hmem

theorem enable (h : Apart s) : Apart (s.enable hash) := by
  intro hash' hmem
  rw [Amendments.enable_majority]
  split
  · rfl
  · rename_i hne
    exact h hash' ((Finset.mem_insert.mp hmem).resolve_left hne)

theorem gain_iff (h : Apart s) {time : Nat} : Apart (s.gain hash time) ↔ hash ∉ s.enabled := by
  constructor
  · intro hgain hmem
    have hnone := hgain hash hmem
    simp at hnone
  · intro hopen hash' hmem
    have hne : hash' ≠ hash := fun heq => hopen (heq ▸ hmem)
    rw [Amendments.gain_majority, if_neg hne]
    exact h hash' hmem

end Apart

/-- Does the action give the amendment a majority? -/
def gains (flags : Flags) (hash : Hash) (e : Event Hash) : Bool :=
  e.action.1 = hash && e.action.2 = flags.tfGotMajority

/-- The time of the round in which the amendment last gained a majority. -/
def lastGain (flags : Flags) (hash : Hash) (es : List (Event Hash)) : Option Nat :=
  es.foldl (fun last e => if gains flags hash e then some e.time else last) none

/-- Each majority is from the last gain, or from the start if there was no gain. -/
def Dated (flags : Flags) (s : Amendments Hash) (es : List (Event Hash)) : Prop :=
  ∀ hash time, (es.foldl (after flags) s).majority hash = some time →
    lastGain flags hash es = some time ∨
      lastGain flags hash es = none ∧ s.majority hash = some time

/-- The last action of a run keeps the collections apart, enables nothing without a majority,
disables nothing, and leaves majorities with the right times. -/
structure Follows (flags : Flags) (s : Amendments Hash) (pre : List (Event Hash))
    (e : Event Hash) : Prop where
  apart : Apart ((pre ++ [e]).foldl (after flags) s)
  grows : (pre.foldl (after flags) s).enabled ⊆ ((pre ++ [e]).foldl (after flags) s).enabled
  majority : ∀ hash ∈ ((pre ++ [e]).foldl (after flags) s).enabled,
    hash ∉ (pre.foldl (after flags) s).enabled →
      (pre.foldl (after flags) s).majority hash ≠ none
  dated : Dated flags s (pre ++ [e])

/-- A majority is gained by an amendment that is not enabled. -/
def gainsOpen (flags : Flags) (s : Amendments Hash) (e : Event Hash) : Bool :=
  decide (e.action.2 = flags.tfGotMajority → e.action.1 ∉ s.enabled)

variable {flags : Flags} {s : Amendments Hash} {pre : List (Event Hash)} {e : Event Hash}

theorem gains_iff {hash : Hash} :
    gains flags hash e = true ↔ e.action.1 = hash ∧ e.action.2 = flags.tfGotMajority := by
  simp [gains]

theorem lastGain_snoc (hash : Hash) : lastGain flags hash (pre ++ [e]) =
    if gains flags hash e = true then some e.time else lastGain flags hash pre := by
  simp [lastGain]

/-- An action that gains nothing and that leaves a majority only where it was keeps the dates. -/
theorem Dated.snoc (h : Dated flags s pre) (hcode : e.action.2 ≠ flags.tfGotMajority)
    (hmajority : ∀ hash time, ((pre ++ [e]).foldl (after flags) s).majority hash = some time →
      (pre.foldl (after flags) s).majority hash = some time) : Dated flags s (pre ++ [e]) := by
  intro hash time htime
  have hgains : ¬ gains flags hash e = true := fun hg => hcode (gains_iff.mp hg).2
  rw [lastGain_snoc, if_neg hgains]
  exact h hash time (hmajority hash time htime)

theorem majority_of_lose {hash hash' : Hash} {time : Nat}
    (h : (s.lose hash).majority hash' = some time) : s.majority hash' = some time := by
  rw [Amendments.lose_majority] at h
  split at h
  · cases h
  · exact h

/-- An action that does not throw follows the life cycle unless it gains a majority for an enabled
amendment. -/
theorem Follows.of_gainsOpen
    (hstep : applyAction flags e.time (pre.foldl (after flags) s) e.action =
      .ok ((pre ++ [e]).foldl (after flags) s))
    (hapart : Apart (pre.foldl (after flags) s)) (hdated : Dated flags s pre)
    (hok : gainsOpen flags (pre.foldl (after flags) s) e = true) : Follows flags s pre e := by
  rcases applyAction_cases hstep with ⟨hcode, -, hmajority, ht⟩ | ⟨hcode, hmajority, ht⟩ |
    ⟨hcode, -, ht⟩
  · -- enabled from a majority
    have hnot : e.action.2 ≠ flags.tfGotMajority := fun h => flags.got_ne_zero (h ▸ hcode)
    refine ⟨ht ▸ hapart.enable, ht ▸ Finset.subset_insert _ _, ?_, hdated.snoc hnot ?_⟩
    · rw [ht]
      intro hash hmem hnew
      rw [(Finset.mem_insert.mp hmem).resolve_right hnew]
      exact hmajority
    · rw [ht]
      exact fun hash time htime => majority_of_lose htime
  · -- a majority gained
    have hopen : e.action.1 ∉ (pre.foldl (after flags) s).enabled := of_decide_eq_true hok hcode
    refine ⟨ht ▸ hapart.gain_iff.mpr hopen, ht ▸ subset_rfl, ?_, ?_⟩
    · rw [ht]
      exact fun hash hmem hnew => absurd hmem hnew
    · intro hash time htime
      rw [ht, Amendments.gain_majority] at htime
      rw [lastGain_snoc]
      by_cases heq : hash = e.action.1
      · rw [if_pos heq] at htime
        rw [if_pos (gains_iff.mpr ⟨heq.symm, hcode⟩)]
        exact .inl htime
      · rw [if_neg heq] at htime
        rw [if_neg fun hg => heq (gains_iff.mp hg).1.symm]
        exact hdated hash time htime
  · -- a majority lost
    have hnot : e.action.2 ≠ flags.tfGotMajority := fun h => flags.got_ne_lost (h.symm.trans hcode)
    refine ⟨ht ▸ hapart.lose, ht ▸ subset_rfl, ?_, hdated.snoc hnot ?_⟩
    · rw [ht]
      exact fun hash hmem hnew => absurd hmem hnew
    · rw [ht]
      exact fun hash time htime => majority_of_lose htime

/-- The collections stay apart and dated along a run whose gains are all open. -/
theorem apart_dated_of_gainsOpen {es : List (Event Hash)} {t : Amendments Hash} (hs : Apart s)
    (hrun : es.foldlM (fun s e => applyAction flags e.time s e.action) s = .ok t)
    (hok : ∀ pre e, pre ++ [e] <+: es → gainsOpen flags (pre.foldl (after flags) s) e = true)
    (hpre : pre <+: es) : Apart (pre.foldl (after flags) s) ∧ Dated flags s pre := by
  induction pre using List.reverseRecOn with
  | nil => exact ⟨hs, fun _ _ htime => .inr ⟨rfl, htime⟩⟩
  | append_singleton pre e ih =>
    obtain ⟨hapart, hdated⟩ := ih ((List.prefix_append pre [e]).trans hpre)
    have hfollows := Follows.of_gainsOpen (applyAction_of_run hrun hpre) hapart hdated
      (hok pre e hpre)
    exact ⟨hfollows.apart, hfollows.dated⟩

/-- Gaining a majority for an enabled amendment breaks the cycle. -/
theorem gainsOpen_of_apart
    (hstep : applyAction flags e.time (pre.foldl (after flags) s) e.action =
      .ok ((pre ++ [e]).foldl (after flags) s))
    (hapart : Apart (pre.foldl (after flags) s))
    (hnext : Apart ((pre ++ [e]).foldl (after flags) s)) :
    gainsOpen flags (pre.foldl (after flags) s) e = true := by
  refine decide_eq_true fun hcode => ?_
  rcases applyAction_cases hstep with ⟨hcode', -⟩ | ⟨-, -, ht⟩ | ⟨hcode', -⟩
  · exact absurd (hcode ▸ hcode') flags.got_ne_zero
  · exact hapart.gain_iff.mp (ht ▸ hnext)
  · exact absurd (hcode.symm.trans hcode') flags.got_ne_lost

/-- What follows the life cycle at every action is apart before every action. -/
theorem apart_of_follows {es : List (Event Hash)} (hs : Apart s)
    (hall : ∀ pre e, pre ++ [e] <+: es → Follows flags s pre e) (hpre : pre <+: es) :
    Apart (pre.foldl (after flags) s) := by
  induction pre using List.reverseRecOn with
  | nil => exact hs
  | append_singleton pre e _ => exact (hall pre e hpre).apart

variable [DecidableEq Key]

/-- Rounds that do not throw follow the life cycle at every action just when no majority is gained
for an enabled amendment. -/
theorem lifeCycle_iff {t : Amendments Hash} {calls : List (Call Hash Key)} (hs : Apart s)
    (h : doRounds flags s calls = .ok t) :
    ∃ es, events flags s calls = .ok es ∧ es.foldl (after flags) s = t ∧
      ((∀ pre e, pre ++ [e] <+: es → Follows flags s pre e) ↔
        ∀ pre e, pre ++ [e] <+: es → gainsOpen flags (pre.foldl (after flags) s) e = true) := by
  obtain ⟨es, hes, hrun⟩ := events_of_doRounds h
  refine ⟨es, hes, foldl_after hrun, ?_⟩
  constructor
  · intro hall pre e hpre
    exact gainsOpen_of_apart (applyAction_of_run hrun hpre)
      (apart_of_follows hs hall ((List.prefix_append pre [e]).trans hpre)) (hall pre e hpre).apart
  · intro hok pre e hpre
    obtain ⟨hapart, hdated⟩ := apart_dated_of_gainsOpen hs hrun hok
      ((List.prefix_append pre [e]).trans hpre)
    exact Follows.of_gainsOpen (applyAction_of_run hrun hpre) hapart hdated (hok pre e hpre)

end LifeCycle

/-! ## An amendment that gains a majority after it is enabled -/

/-- Labels for the runs below. -/
def labels : Flags := ⟨0x10000, 0x20000, by decide, by decide, by decide⟩

/-- A round in which the table returns the actions. -/
def roundOf (week : Nat) (actions : List (Nat × UInt32)) : Call Nat Nat :=
  ⟨⟨fun _ => [], fun _ _ _ _ => actions⟩, week, [], []⟩

/-- Nothing is enabled and nothing has a majority. -/
def fresh : Amendments Nat := ⟨∅, fun _ => none⟩

/-- A majority in week 1, enabled in week 3: nothing is wrong. -/
theorem lifeCycle_iff_enabled : Apart fresh ∧ ∃ t es,
    doRounds labels fresh [roundOf 1 [(7, 0x10000)], roundOf 3 [(7, 0)]] = .ok t ∧
    es.foldl (after labels) fresh = t ∧
    (∀ pre e, pre ++ [e] <+: es → Follows labels fresh pre e) := by
  have hrounds : doRounds labels fresh [roundOf 1 [(7, 0x10000)], roundOf 3 [(7, 0)]] =
      .ok _ := rfl
  have hapart : Apart fresh := fun _ _ => rfl
  obtain ⟨es, hes, hfold, hiff⟩ := lifeCycle_iff hapart hrounds
  refine ⟨hapart, _, es, hrounds, hfold, hiff.mpr ?_⟩
  cases hes
  rw [← along_iff]
  rfl

/-- A third round gives the enabled amendment a majority again, and does not throw. -/
theorem majority_while_enabled : Apart fresh ∧ ∃ t,
    doRounds labels fresh
      [roundOf 1 [(7, 0x10000)], roundOf 3 [(7, 0)], roundOf 4 [(7, 0x10000)]] = .ok t ∧
    7 ∈ t.enabled ∧ t.majority 7 = some (weekTime 4) ∧ ¬ Apart t := by
  refine ⟨fun _ _ => rfl, _, rfl, by decide, by decide, fun hapart => ?_⟩
  have hnone := hapart 7 (by decide)
  cases hnone

end Metcalfe.Amendment
