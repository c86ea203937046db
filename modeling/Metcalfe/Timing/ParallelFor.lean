import Metcalfe.Library.Tally

/-!
# The parallel loop of the timing test

`parallel_for` and `parallel_for_id` start threads that share one counter: each thread takes a
number from it with `c_++`, leaves when the number is not an index, and calls its body otherwise.
The caller starts the threads one after the other and then joins them in the same order.

A schedule is any list of turns of the caller and of the threads; a turn of one that has to wait or
has not started changes nothing. Once the caller has returned, every index was passed to a body
exactly once (`once_of_returned`), and from every state the loop can return (`exists_returned`).
-/

namespace Metcalfe.Timing

open Tally

/-- The arguments of a call; `withId` tells `parallel_for_id` from `parallel_for`. `size_t` has
`width` bits. -/
structure Config where
  n : Nat
  threads : Nat
  width : Nat
  withId : Bool

/-- What the bodies of a thread are constructed with, before `args`. -/
def Config.bodyId (cfg : Config) (id : Nat) : Option Nat := if cfg.withId then some id else none

inductive Worker where
  | absent
  /-- The thread runs, its `Body` is to be constructed. -/
  | starting
  | looping
  /-- `i` is the number that `c_++` returned. -/
  | holding (i : Nat)
  | inBody (i : Nat)
  | left
deriving DecidableEq

inductive Main where
  | spawning (id : Nat)
  | joining (id : Nat)
  | returned
deriving DecidableEq

/-- A call of a body. -/
structure Call where
  thread : Nat
  bodyId : Option Nat
  index : Nat
deriving DecidableEq

structure State where
  main : Main
  counter : Nat
  worker : Nat → Worker
  calls : List Call

inductive Turn where
  | main
  | thread (id : Nat)

def init : State := ⟨.spawning 0, 0, fun _ => .absent, []⟩

def State.setWorker (s : State) (id : Nat) (x : Worker) : State :=
  { s with worker := Function.update s.worker id x }

/-- The two loops of `parallel_for`. -/
def mainStep (cfg : Config) (s : State) : State :=
  match s.main with
  | .spawning id =>
    if id < cfg.threads then { s.setWorker id .starting with main := .spawning (id + 1) }
    else { s with main := .joining 0 }
  | .joining id =>
    if id < cfg.threads then
      if s.worker id = .left then { s with main := .joining (id + 1) } else s
    else { s with main := .returned }
  | .returned => s

/-- The loop of `parallel_for_lambda`. -/
def threadStep (cfg : Config) (s : State) (id : Nat) : State :=
  match s.worker id with
  | .absent => s
  | .starting => s.setWorker id .looping
  | .looping =>
    { s.setWorker id (.holding s.counter) with counter := (s.counter + 1) % 2 ^ cfg.width }
  | .holding i =>
    if cfg.n ≤ i then s.setWorker id .left
    else { s.setWorker id (.inBody i) with calls := s.calls ++ [⟨id, cfg.bodyId id, i⟩] }
  | .inBody _ => s.setWorker id .looping
  | .left => s

def step (cfg : Config) (s : State) : Turn → State
  | .main => mainStep cfg s
  | .thread id => threadStep cfg s id

def run (cfg : Config) (schedule : List Turn) : State := schedule.foldl (step cfg) init

/-! ## The invariant -/

/-- How many threads the caller has started. -/
def Main.spawned (cfg : Config) : Main → Nat
  | .spawning id => id
  | _ => cfg.threads

/-- How many threads the caller has joined. -/
def Main.joined (cfg : Config) : Main → Nat
  | .spawning _ => 0
  | .joining id => id
  | .returned => cfg.threads

/-- Has the thread taken `i` without having called its body yet? -/
def holds (i : Nat) : Worker → Nat
  | .holding j => if j = i then 1 else 0
  | _ => 0

/-- Has the thread taken a number that is not an index? -/
def past (n : Nat) : Worker → Nat
  | .holding j => if n ≤ j then 1 else 0
  | .left => 1
  | _ => 0

theorem past_le_one (n : Nat) (x : Worker) : past n x ≤ 1 := by
  cases x with
  | holding j =>
    simp only [past]
    split <;> omega
  | _ => simp [past]

/-- How often a body was called with the index. -/
def State.called (s : State) (i : Nat) : Nat := s.calls.countP fun c => c.index = i

/-- Each index below the counter was taken once, and is held or was passed to a body; the counter is
beyond the indexes by one for each thread that found the end. -/
structure Inv (cfg : Config) (s : State) : Prop where
  once : ∀ i < cfg.n, s.called i + tally cfg.threads s.worker (holds i) =
    if i < s.counter then 1 else 0
  beyond : s.counter - cfg.n = tally cfg.threads s.worker (past cfg.n)
  within : ∀ c ∈ s.calls, c.index < cfg.n ∧ c.thread < cfg.threads ∧
    c.bodyId = cfg.bodyId c.thread
  spawned_le : s.main.spawned cfg ≤ cfg.threads
  absent : ∀ id, s.worker id = .absent ↔ s.main.spawned cfg ≤ id
  joined_le : s.main.joined cfg ≤ cfg.threads
  left : ∀ id < s.main.joined cfg, s.worker id = .left

namespace Inv

variable {cfg : Config} {s : State} {id : Nat}

theorem lt_threads (h : Inv cfg s) (hid : s.worker id ≠ .absent) : id < cfg.threads := by
  have hspawned := h.spawned_le
  have hnot : ¬ s.main.spawned cfg ≤ id := fun hle => hid ((h.absent id).mpr hle)
  omega

theorem init : Inv cfg init := by
  refine ⟨fun i _ => ?_, ?_, by simp [Timing.init], Nat.zero_le _, ?_, Nat.zero_le _, ?_⟩
  · have hnone : tally cfg.threads Timing.init.worker (holds i) = cfg.threads * 0 :=
      tally_eq_mul fun _ _ => rfl
    rw [hnone]
    simp [Timing.init, State.called]
  · have hnone : tally cfg.threads Timing.init.worker (past cfg.n) = cfg.threads * 0 :=
      tally_eq_mul fun _ _ => rfl
    rw [hnone]
    simp [Timing.init]
  · simp [Timing.init, Main.spawned]
  · simp [Timing.init, Main.joined]

/-- The caller's view of the threads when one of them moves on. -/
theorem worker_update (h : Inv cfg s) (hid : s.worker id ≠ .absent) (hleft : s.worker id ≠ .left)
    {x : Worker} (hx : x ≠ .absent) :
    (∀ j, Function.update s.worker id x j = .absent ↔ s.main.spawned cfg ≤ j) ∧
    (∀ j < s.main.joined cfg, Function.update s.worker id x j = .left) := by
  constructor
  · intro j
    by_cases hj : j = id
    · subst hj
      rw [Function.update_self, ← h.absent j]
      exact iff_of_false hx hid
    · rw [Function.update_of_ne hj]
      exact h.absent j
  · intro j hjoined
    have hj : j ≠ id := fun heq => hleft (heq ▸ h.left j hjoined)
    rw [Function.update_of_ne hj]
    exact h.left j hjoined

/-- A thread moves between states in which it neither holds an index nor is at the end. -/
theorem setWorker (h : Inv cfg s) (hid : s.worker id ≠ .absent) (hleft : s.worker id ≠ .left)
    {x : Worker} (hx : x ≠ .absent) (hholds : ∀ i < cfg.n, holds i x = holds i (s.worker id))
    (hpast : past cfg.n x = past cfg.n (s.worker id)) : Inv cfg (s.setWorker id x) := by
  have hlt := h.lt_threads hid
  obtain ⟨habsent, hjoined⟩ := h.worker_update hid hleft hx
  refine ⟨fun i hi => ?_, ?_, h.within, h.spawned_le, habsent, h.joined_le, hjoined⟩
  · rw [State.setWorker, tally_update_of_eq hlt (hholds i hi)]
    exact h.once i hi
  · rw [State.setWorker, tally_update_of_eq hlt hpast]
    exact h.beyond

/-- The counter does not wrap: a thread at its increment has not found the end. -/
theorem counter_lt (h : Inv cfg s) (hbound : cfg.n + cfg.threads < 2 ^ cfg.width)
    (hid : s.worker id = .looping) :
    s.counter < cfg.n + cfg.threads ∧ (s.counter + 1) % 2 ^ cfg.width = s.counter + 1 := by
  have hlt : id < cfg.threads := h.lt_threads (by simp [hid])
  have htally : tally cfg.threads s.worker (past cfg.n) < cfg.threads := by
    exact tally_lt (past_le_one cfg.n) hlt (by simp [hid, past])
  have hbeyond := h.beyond
  exact ⟨by omega, Nat.mod_eq_of_lt (by omega)⟩

theorem increment (h : Inv cfg s) (hbound : cfg.n + cfg.threads < 2 ^ cfg.width)
    (hid : s.worker id = .looping) :
    Inv cfg { s.setWorker id (.holding s.counter) with
      counter := (s.counter + 1) % 2 ^ cfg.width } := by
  have hpresent : s.worker id ≠ .absent := by simp [hid]
  have hlt := h.lt_threads hpresent
  obtain ⟨-, hmod⟩ := h.counter_lt hbound hid
  obtain ⟨habsent, hjoined⟩ := h.worker_update hpresent (by simp [hid])
    (x := .holding s.counter) (by simp)
  rw [hmod]
  refine ⟨fun i hi => ?_, ?_, h.within, h.spawned_le, habsent, h.joined_le, hjoined⟩
  · -- the index that is the counter is held now, the others are as they were
    have htally := tally_update (f := s.worker) (v := holds i) hlt (.holding s.counter)
    have honce := h.once i hi
    simp only [hid, holds] at htally
    simp only [State.setWorker, State.called] at honce ⊢
    split at htally <;> split at honce <;> split <;> omega
  · have htally := tally_update (f := s.worker) (v := past cfg.n) hlt (.holding s.counter)
    have hbeyond := h.beyond
    simp only [hid, past] at htally
    simp only [State.setWorker]
    split at htally <;> omega

theorem call (h : Inv cfg s) {i : Nat} (hid : s.worker id = .holding i) (hi : i < cfg.n) :
    Inv cfg { s.setWorker id (.inBody i) with
      calls := s.calls ++ [⟨id, cfg.bodyId id, i⟩] } := by
  have hpresent : s.worker id ≠ .absent := by simp [hid]
  have hlt := h.lt_threads hpresent
  obtain ⟨habsent, hjoined⟩ := h.worker_update hpresent (by simp [hid])
    (x := .inBody i) (by simp)
  refine ⟨fun j hj => ?_, ?_, ?_, h.spawned_le, habsent, h.joined_le, hjoined⟩
  · -- what was held has been passed to the body
    have htally := tally_update (f := s.worker) (v := holds j) hlt (.inBody i)
    refine Eq.trans ?_ (h.once j hj)
    simp only [hid, holds] at htally
    simp only [State.setWorker, State.called, List.countP_append, List.countP_singleton,
      decide_eq_true_eq]
    omega
  · have hpast : past cfg.n (.inBody i) = past cfg.n (s.worker id) := by
      simp [hid, past, Nat.not_le.mpr hi]
    exact (tally_update_of_eq hlt hpast).symm ▸ h.beyond
  · intro c hc
    rcases List.mem_append.mp hc with hc | hc
    · exact h.within c hc
    · obtain rfl := List.mem_singleton.mp hc
      exact ⟨hi, hlt, rfl⟩

theorem threadStep (h : Inv cfg s) (hbound : cfg.n + cfg.threads < 2 ^ cfg.width) (id : Nat) :
    Inv cfg (threadStep cfg s id) := by
  unfold Timing.threadStep
  cases hid : s.worker id with
  | absent => exact h
  | starting =>
    exact h.setWorker (by simp [hid]) (by simp [hid]) (by simp) (by simp [hid, holds])
      (by simp [hid, past])
  | looping => exact h.increment hbound hid
  | holding i =>
    dsimp only
    split
    · rename_i hi
      refine h.setWorker (by simp [hid]) (by simp [hid]) (by simp) (fun j hj => ?_) ?_
      · simp only [hid, holds]
        rw [if_neg (by omega)]
      · simp only [hid, past]
        rw [if_pos hi]
    · rename_i hi
      exact h.call hid (by omega)
  | inBody i =>
    exact h.setWorker (by simp [hid]) (by simp [hid]) (by simp) (by simp [hid, holds])
      (by simp [hid, past])
  | left => exact h

/-- The caller starts its next thread. -/
theorem spawn (h : Inv cfg s) (hmain : s.main = .spawning id) (hid : id < cfg.threads) :
    Inv cfg { s.setWorker id .starting with main := .spawning (id + 1) } := by
  have hspawned : s.main.spawned cfg = id := by rw [hmain, Main.spawned]
  have hworker : s.worker id = .absent := (h.absent id).mpr hspawned.le
  refine ⟨fun i hi => ?_, ?_, h.within, hid, fun j => ?_, Nat.zero_le _, ?_⟩
  · have hholds : holds i .starting = holds i (s.worker id) := by rw [hworker]; rfl
    exact (tally_update_of_eq hid hholds).symm ▸ h.once i hi
  · have hpast : past cfg.n .starting = past cfg.n (s.worker id) := by rw [hworker]; rfl
    exact (tally_update_of_eq hid hpast).symm ▸ h.beyond
  · have habsent := h.absent j
    rw [hspawned] at habsent
    simp only [State.setWorker, Main.spawned]
    by_cases hj : j = id
    · subst hj
      simp
    · rw [Function.update_of_ne hj, habsent]
      omega
  · intro j hj
    exact absurd hj (Nat.not_lt_zero j)

/-- The caller goes on without touching the threads. -/
theorem setMain (h : Inv cfg s) {m : Main} (hspawned : m.spawned cfg = s.main.spawned cfg)
    (hjoined_le : m.joined cfg ≤ cfg.threads)
    (hleft : ∀ j < m.joined cfg, s.worker j = .left) : Inv cfg { s with main := m } :=
  ⟨h.once, h.beyond, h.within, by rw [hspawned]; exact h.spawned_le,
    fun j => by rw [hspawned]; exact h.absent j, hjoined_le, hleft⟩

theorem mainStep (h : Inv cfg s) : Inv cfg (mainStep cfg s) := by
  unfold Timing.mainStep
  have hspawned_le := h.spawned_le
  have hjoined_le := h.joined_le
  have hleft := h.left
  cases hmain : s.main with
  | spawning id =>
    rw [hmain, Main.spawned] at hspawned_le
    dsimp only
    split
    · rename_i hid
      exact h.spawn hmain hid
    · rename_i hid
      refine h.setMain ?_ (Nat.zero_le _) fun j hj => absurd hj (Nat.not_lt_zero j)
      rw [hmain]
      simp only [Main.spawned]
      omega
  | joining id =>
    rw [hmain, Main.joined] at hjoined_le hleft
    dsimp only
    split
    · rename_i hid
      split
      · rename_i hworker
        refine h.setMain (by rw [hmain]; rfl) hid fun j hj => ?_
        rcases Nat.lt_succ_iff_lt_or_eq.mp hj with hlt | rfl
        · exact hleft j hlt
        · exact hworker
      · exact h
    · rename_i hid
      refine h.setMain (by rw [hmain]; rfl) le_rfl fun j hj => hleft j ?_
      simp only [Main.joined] at hj
      omega
  | returned => exact h

theorem step (h : Inv cfg s) (hbound : cfg.n + cfg.threads < 2 ^ cfg.width) (turn : Turn) :
    Inv cfg (step cfg s turn) := by
  cases turn with
  | main => exact h.mainStep
  | thread id => exact h.threadStep hbound id

theorem run (hbound : cfg.n + cfg.threads < 2 ^ cfg.width) (schedule : List Turn) :
    Inv cfg (run cfg schedule) :=
  List.foldlRecOn schedule (Timing.step cfg) (motive := Inv cfg) Inv.init
    fun _ h turn _ => h.step hbound turn

end Inv

/-- When the caller has returned, a body was called exactly once for each index and for no other
number, and every thread has left its loop. -/
theorem once_of_returned {cfg : Config} (hthreads : 1 ≤ cfg.threads)
    (hbound : cfg.n + cfg.threads < 2 ^ cfg.width) {schedule : List Turn}
    (hmain : (run cfg schedule).main = .returned) :
    (∀ i < cfg.n, (run cfg schedule).called i = 1) ∧
    (∀ c ∈ (run cfg schedule).calls, c.index < cfg.n ∧ c.thread < cfg.threads ∧
      c.bodyId = cfg.bodyId c.thread) ∧
    (∀ id < cfg.threads, (run cfg schedule).worker id = .left) := by
  have h := Inv.run hbound schedule
  have hleft : ∀ id < cfg.threads, (run cfg schedule).worker id = .left := by
    intro id hid
    exact h.left id (by rwa [hmain, Main.joined])
  have hpast : tally cfg.threads (run cfg schedule).worker (past cfg.n) = cfg.threads * 1 :=
    tally_eq_mul fun id hid => by rw [hleft id hid]; rfl
  refine ⟨fun i hi => ?_, h.within, hleft⟩
  have hholds : tally cfg.threads (run cfg schedule).worker (holds i) = cfg.threads * 0 :=
    tally_eq_mul fun id hid => by rw [hleft id hid]; rfl
  -- every thread has found the end, so the counter is beyond the indexes
  have hbeyond := h.beyond
  have honce := h.once i hi
  rw [hholds, if_pos (by omega)] at honce
  omega

/-- Two threads and three indexes, each thread running as far as it can. -/
theorem once_of_returned_two : ∃ schedule,
    (run ⟨3, 2, 3, true⟩ schedule).main = .returned ∧
    ∀ i < 3, (run ⟨3, 2, 3, true⟩ schedule).called i = 1 := by
  let schedule := List.replicate 3 Turn.main ++ List.replicate 15 (.thread 1) ++
    List.replicate 5 (.thread 0) ++ List.replicate 3 .main
  have hmain : (run ⟨3, 2, 3, true⟩ schedule).main = .returned := by decide
  have hbound : (⟨3, 2, 3, true⟩ : Config).n + 2 < 2 ^ 3 := by decide
  exact ⟨schedule, hmain, (once_of_returned (by decide) hbound hmain).1⟩

/-! ## The loop can return -/

/-- Is there something to do for this turn? -/
def enabled (cfg : Config) (s : State) : Turn → Bool
  | .main =>
    match s.main with
    | .spawning _ => true
    | .joining id => id < cfg.threads → s.worker id = .left
    | .returned => false
  | .thread id => s.worker id ≠ .absent ∧ s.worker id ≠ .left

def Worker.rank : Worker → Nat
  | .absent => 3
  | .starting => 2
  | .looping => 1
  | .holding _ => 3
  | .inBody _ => 2
  | .left => 0

def Main.rank (cfg : Config) : Main → Nat
  | .spawning id => cfg.threads - id + cfg.threads + 2
  | .joining id => cfg.threads - id + 1
  | .returned => 0

/-- A bound on the turns that are left. -/
def State.remaining (cfg : Config) (s : State) : Nat :=
  s.main.rank cfg + tally cfg.threads s.worker Worker.rank +
    4 * (cfg.n + cfg.threads - s.counter)

theorem threadStep_remaining {cfg : Config} {s : State} {id : Nat} (h : Inv cfg s)
    (hbound : cfg.n + cfg.threads < 2 ^ cfg.width) (hid : enabled cfg s (.thread id) = true) :
    (threadStep cfg s id).remaining cfg < s.remaining cfg := by
  have hid' : s.worker id ≠ .absent ∧ s.worker id ≠ .left := by simpa [enabled] using hid
  have htally := tally_update (f := s.worker) (v := Worker.rank) (h.lt_threads hid'.1)
  unfold threadStep State.remaining
  cases hworker : s.worker id with
  | absent => exact absurd hworker hid'.1
  | starting =>
    have := htally .looping
    simp only [hworker, Worker.rank, State.setWorker] at this ⊢
    omega
  | looping =>
    obtain ⟨hlt, hmod⟩ := h.counter_lt hbound hworker
    have := htally (.holding s.counter)
    simp only [hworker, Worker.rank, State.setWorker, hmod] at this ⊢
    omega
  | holding i =>
    dsimp only
    split
    · have := htally .left
      simp only [hworker, Worker.rank, State.setWorker] at this ⊢
      omega
    · have := htally (.inBody i)
      simp only [hworker, Worker.rank, State.setWorker] at this ⊢
      omega
  | inBody i =>
    have := htally .looping
    simp only [hworker, Worker.rank, State.setWorker] at this ⊢
    omega
  | left => exact absurd hworker hid'.2

theorem mainStep_remaining {cfg : Config} {s : State} (h : Inv cfg s)
    (henabled : enabled cfg s .main = true) :
    (mainStep cfg s).remaining cfg < s.remaining cfg := by
  unfold mainStep State.remaining
  unfold enabled at henabled
  cases hmain : s.main with
  | spawning id =>
    dsimp only
    split
    · rename_i hid
      have hworker : s.worker id = .absent := (h.absent id).mpr (by rw [hmain, Main.spawned])
      have := tally_update (f := s.worker) (v := Worker.rank) hid .starting
      simp only [hworker, Worker.rank, Main.rank, State.setWorker] at this ⊢
      omega
    · simp only [Main.rank]
      omega
  | joining id =>
    rw [hmain] at henabled
    dsimp only
    split
    · rename_i hid
      rw [if_pos (of_decide_eq_true henabled hid)]
      simp only [Main.rank]
      omega
    · simp only [Main.rank]
      omega
  | returned =>
    rw [hmain] at henabled
    cases henabled

theorem exists_enabled {cfg : Config} {s : State} (h : Inv cfg s) (hmain : s.main ≠ .returned) :
    ∃ turn, enabled cfg s turn = true := by
  cases hm : s.main with
  | spawning id => exact ⟨.main, by simp [enabled, hm]⟩
  | joining id =>
    by_cases hleft : id < cfg.threads → s.worker id = .left
    · refine ⟨.main, ?_⟩
      simp only [enabled, hm]
      exact decide_eq_true hleft
    · -- the thread that the caller waits for has something to do
      obtain ⟨hid, hworker⟩ := Classical.not_imp.mp hleft
      have habsent : s.worker id ≠ .absent := by
        rw [Ne, h.absent id, hm]
        exact Nat.not_le.mpr hid
      exact ⟨.thread id, by simp [enabled, habsent, hworker]⟩
  | returned => exact absurd hm hmain

/-- Every run can go on until the caller returns. -/
theorem exists_returned {cfg : Config} (hbound : cfg.n + cfg.threads < 2 ^ cfg.width)
    (schedule : List Turn) : ∃ rest, (run cfg (schedule ++ rest)).main = .returned := by
  generalize hremaining : (run cfg schedule).remaining cfg = m
  induction m using Nat.strongRecOn generalizing schedule with
  | ind m ih =>
    by_cases hmain : (run cfg schedule).main = .returned
    · exact ⟨[], by rwa [List.append_nil]⟩
    · have h := Inv.run hbound schedule
      obtain ⟨turn, hturn⟩ := exists_enabled h hmain
      have hrun : run cfg (schedule ++ [turn]) = step cfg (run cfg schedule) turn := by
        simp [run]
      have hlt : (run cfg (schedule ++ [turn])).remaining cfg < m := by
        rw [hrun, ← hremaining]
        cases turn with
        | main => exact mainStep_remaining h hturn
        | thread id => exact threadStep_remaining h hbound hturn
      obtain ⟨rest, hrest⟩ := ih _ hlt (schedule ++ [turn]) rfl
      exact ⟨turn :: rest, by rwa [List.append_cons]⟩

end Metcalfe.Timing
