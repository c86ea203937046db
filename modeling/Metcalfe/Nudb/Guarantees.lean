import Metcalfe.Nudb.Performs
import Metcalfe.Nudb.Progress

/-!
# What a store guarantees

The results of the store as a whole, for every order of the steps of its threads and of the commit,
and for crashes at any moment. What callers see is a run of a durable map (`Sys.linearizable`), with
what follows from that for the files and for a fetch; the calls meet no inconsistency
(`Sys.calls_sound`), and neither a call nor a commit waits for ever.
-/

namespace Metcalfe.Nudb

open BigEndian Durable Stateful DurableMap Simulation Outcome

/-! ## Runs of a small store -/

section Small

open Sys (Cmd)

abbrev TinyStep : Sys Bool → Option (StoreEvent Bool) → Sys Bool → Prop :=
  Sys.Step Config.tiny.hasher Cache.listed

def reliable : Nat → Option Fault := fun _ => none

/-- There is no space left at the sixth call, after three bytes. -/
def noSpace : Nat → Option Fault := fun n => if n = 5 then some ⟨some 28, 3⟩ else none

/-- Thread `i` calls and goes on so many times. -/
def calling (i : Bool) (op : KeyOp) (n : Nat) : List (Cmd Bool) :=
  .call i op :: List.replicate n (.go i)

/-- A commit from its beginning until the old buckets are in the log. -/
def logging : List (Cmd Bool) :=
  [.later 40 0, .commit reliable, .later 40 0, .commit reliable]

/-- `[2]` is inserted, and fetched while it is being saved. -/
def savedCmds : List (Cmd Bool) :=
  .open_ false none :: calling true (.insert [2] [8]) 6 ++ .commit reliable :: logging ++
    calling false (.fetch [2]) 3 ++
    [.commit reliable, .later 40 0, .commit reliable, .close reliable]

def savedEvents : List (StoreEvent Bool) :=
  [.opened, .call true (.insert [2] [8]), .reply true (.insert [2] [8]) .inserted,
    .call false (.fetch [2]), .reply false (.fetch [2]) (.value [8]), .closed]

def fetchedEvents : List (StoreEvent Bool) :=
  [.opened, .call false (.fetch [2]), .reply false (.fetch [2]) (.value [8])]

/-- `[3]` is inserted, and the commit fails. -/
def unsavedCmds : List (Cmd Bool) :=
  calling true (.insert [3] [9]) 7 ++ [.commit noSpace, .later 40 0, .commit reliable] ++
    calling true (.fetch [1]) 2 ++ [.close reliable]

def unsavedEvents : List (StoreEvent Bool) :=
  [.call true (.insert [3] [9]), .reply true (.insert [3] [9]) .inserted,
    .call true (.fetch [1]), .reply true (.fetch [1]) .failed, .closeFailed]

/-- `[3]` is inserted again, and the process ends while the key file is written. -/
def crashedCmds : List (Cmd Bool) :=
  .open_ true none :: calling true (.fetch [3]) 6 ++ calling true (.insert [3] [10]) 7 ++
    .commit reliable :: logging ++ [.commit reliable, .later 0 60, .crash]

def crashedEvents : List (StoreEvent Bool) :=
  [.opened, .call true (.fetch [3]), .reply true (.fetch [3]) .missing,
    .call true (.insert [3] [10]), .reply true (.insert [3] [10]) .inserted, .crashed]

/-- The process ends once more while it recovers the files. -/
def recoveredCmds : List (Cmd Bool) :=
  .open_ false (some (9, 20)) :: .open_ true none :: calling true (.fetch [3]) 6 ++
    calling false (.fetch [2]) 4

def recoveredEvents : List (StoreEvent Bool) :=
  [.opened, .call true (.fetch [3]), .reply true (.fetch [3]) .missing,
    .call false (.fetch [2]), .reply false (.fetch [2]) (.value [8])]

theorem tiny_told : ∃ x, Trace TinyStep (.down (tinyFiles none)) (savedEvents ++ fetchedEvents) x :=
  Sys.exists_trace_of_map (savedCmds ++ .open_ false none :: calling false (.fetch [2]) 4)
    (by decide +kernel)

/-- A run with a commit that is completed, one that fails and one that is ended. -/
theorem tiny_sessions : ∃ x, Trace TinyStep (.down (tinyFiles none))
    (savedEvents ++ fetchedEvents ++ unsavedEvents ++ crashedEvents ++ recoveredEvents) x :=
  Sys.exists_trace_of_map (savedCmds ++ .open_ false none :: calling false (.fetch [2]) 4 ++
    unsavedCmds ++ crashedCmds ++ recoveredCmds) (by decide +kernel)

/-- The same run until the process ends. -/
theorem tiny_crashed : ∃ fs, Trace TinyStep (.down (tinyFiles none))
    (savedEvents ++ fetchedEvents ++ unsavedEvents ++ crashedEvents) (.down fs) := by
  obtain ⟨x, h, hdown⟩ : ∃ x, Trace TinyStep (.down (tinyFiles none))
      (savedEvents ++ fetchedEvents ++ unsavedEvents ++ crashedEvents) x ∧ _ :=
    Sys.exists_trace_of_performs (savedCmds ++ .open_ false none ::
      calling false (.fetch [2]) 4 ++ unsavedCmds ++ crashedCmds)
      (fun | .down _ => true | .up _ => false) (by decide +kernel)
  cases x with
  | down fs => exact ⟨fs, h⟩
  | up r => cases hdown

/-- And all that is not on the medium is lost. -/
theorem tiny_lost : ∃ fs, Trace TinyStep (.down (tinyFiles none))
    (savedEvents ++ fetchedEvents ++ unsavedEvents ++ crashedEvents) (.down fs) ∧ fs.Settled := by
  obtain ⟨fs, h⟩ := tiny_crashed
  have hs := settles_lose fs
  have hlost := h.append (.silent (.settles hs.survives hs.inOrder))
  rw [List.append_nil] at hlost
  exact ⟨fs.lose, hlost, settled_lose fs⟩

/-- A thread that has locked the generation before the last looks for a key to be inserted, and
another one waits to do so. -/
def Busy (r : Running Bool) : Prop :=
  (r.threads false).looking? = some (.insert [1] [5]) ∧
    r.threads true = .called (.insert [2] [6]) ∧ ¬ r.gate.Finished

instance (r : Running Bool) : Decidable (Busy r) := inferInstanceAs (Decidable (_ ∧ _ ∧ _))

/-- A commit waits in `finish`. -/
theorem tiny_busy : ∃ r : Running Bool, Trace TinyStep (.down (tinyFiles none))
    [.opened, .call true (.insert [2] [8]), .reply true (.insert [2] [8]) .inserted,
      .call false (.insert [1] [5]), .call true (.insert [2] [6])] (.up r) ∧ Busy r := by
  obtain ⟨x, h, hup⟩ : ∃ x, Trace TinyStep (.down (tinyFiles none))
      [.opened, .call true (.insert [2] [8]), .reply true (.insert [2] [8]) .inserted,
        .call false (.insert [1] [5]), .call true (.insert [2] [6])] x ∧ _ :=
    Sys.exists_trace_of_performs (.open_ false none :: calling true (.insert [2] [8]) 6 ++
      .commit reliable :: calling false (.insert [1] [5]) 1 ++ logging ++
      [.call true (.insert [2] [6])]) (fun | .up r => decide (Busy r) | .down _ => false)
      (by decide +kernel)
  cases x with
  | up r => exact ⟨r, h, of_decide_eq_true hup⟩
  | down fs => cases hup

end Small

/-! ## What callers see -/

section Guarantees

variable {ι : Type} [DecidableEq ι] [Fintype ι] {cfg : Config} {order : Cache.Order}
  {recs : Records} {fs : Files} {x : Sys ι} {r : Running ι} {l : List (StoreEvent ι)}

theorem Sys.simulated (hstands : Stands cfg recs fs)
    (h : Trace (Sys.Step (ι := ι) cfg.hasher order) (.down fs) l x) :
    ∃ s, Sys.Is cfg x s ∧ Trace DurableMap.Step (resting ι recs) l s :=
  h.simulated Sys.simulates (.down (hstands.either []))

/-- Whatever the threads do, and whenever the process is ended or a close fails, what callers see is
a run of a durable map that begins with the records of the files. When the store is not open and
nothing more can be lost, the files stand for what is saved in the map then. -/
theorem Sys.linearizable (hstands : Stands cfg recs fs)
    (h : Trace (Sys.Step (ι := ι) cfg.hasher order) (.down fs) l x) :
    (∃ s, Trace DurableMap.Step (resting ι recs) l s) ∧
      ∀ fs', x = .down fs' → fs'.Settled → ∃ recs', Stands cfg recs' fs' ∧
        Trace DurableMap.Step (resting ι recs) l (resting ι recs') := by
  obtain ⟨s, his, htrace⟩ := Sys.simulated hstands h
  refine ⟨⟨s, htrace⟩, ?_⟩
  rintro fs' rfl hsettled
  cases his with
  | down heither =>
    obtain ⟨recs', hstands', hend⟩ := stands_of_settled (ι := ι) heither hsettled
    rw [← List.append_nil l]
    exact ⟨recs', hstands', htrace.append hend⟩

theorem linearizable_tiny : (∃ s, Trace DurableMap.Step (resting Bool [([1], [7])])
      (savedEvents ++ fetchedEvents ++ unsavedEvents ++ crashedEvents ++ recoveredEvents) s) ∧
    ∃ fs' recs', Stands Config.tiny recs' fs' ∧
      Trace DurableMap.Step (resting Bool [([1], [7])])
        (savedEvents ++ fetchedEvents ++ unsavedEvents ++ crashedEvents) (resting Bool recs') := by
  obtain ⟨x, h⟩ := tiny_sessions
  obtain ⟨fs', h', hsettled⟩ := tiny_lost
  obtain ⟨recs', hstands, htrace⟩ := (Sys.linearizable stands_tiny h').2 fs' rfl hsettled
  exact ⟨(Sys.linearizable stands_tiny h).1, fs', recs', hstands, htrace⟩

/-- Whenever the store is not open and nothing more can be lost, its files have each record that
they had in the beginning, and what else they have was given to an insert. No key is there twice. -/
theorem Sys.records_kept {fs' : Files} (hstands : Stands cfg recs fs)
    (h : Trace (Sys.Step (ι := ι) cfg.hasher order) (.down fs) l (.down fs'))
    (hsettled : fs'.Settled) :
    ∃ recs', Stands cfg recs' fs' ∧ (recs'.map Prod.fst).Nodup ∧
      (∀ key v, recs.lookup key = some v → recs'.lookup key = some v) ∧
      ∀ key v, recs'.lookup key = some v →
        recs.lookup key = some v ∨ ∃ i, .call i (.insert key v) ∈ l := by
  obtain ⟨s, his, htrace⟩ := Sys.simulated hstands h
  cases his with
  | down heither =>
    obtain ⟨recs', hstands', hend⟩ := stands_of_settled (ι := ι) heither hsettled
    have htrace' := htrace.append hend
    rw [List.append_nil] at htrace'
    have hnodup : (recs'.map Prod.fst).Nodup := by
      obtain ⟨items, key, buckets, modulus, htable, rfl, -⟩ := hstands'
      exact htable.keys
    refine ⟨recs', hstands', hnodup, fun key v hv => saved_of_trace htrace' hv, fun key v hv => ?_⟩
    rcases (known htrace' rfl).has key v (.inl hv) with (hrecs | hsaving | hfresh) | hcalled
    · exact .inl hrecs
    · cases hsaving
    · cases hfresh
    · exact .inr hcalled

theorem records_kept_tiny : ∃ fs' recs', Stands Config.tiny recs' fs' ∧
    (recs'.map Prod.fst).Nodup ∧
    (∀ key v, ([([1], [7])] : Records).lookup key = some v → recs'.lookup key = some v) ∧
    ∀ key v, recs'.lookup key = some v → ([([1], [7])] : Records).lookup key = some v ∨
      ∃ i : Bool, Event.call i (.insert key v) ∈
        savedEvents ++ fetchedEvents ++ unsavedEvents ++ crashedEvents := by
  obtain ⟨fs', h, hsettled⟩ := tiny_lost
  exact ⟨fs', Sys.records_kept stands_tiny h hsettled⟩

/-- What a fetch replies was in the files, or a thread has called for its insertion. -/
theorem Sys.fetch_given {i : ι} {key v : Bytes} (hstands : Stands cfg recs fs)
    (h : Trace (Sys.Step (ι := ι) cfg.hasher order) (.down fs) l x)
    (hi : .reply i (.fetch key) (.value v) ∈ l) :
    recs.lookup key = some v ∨ ∃ j, .call j (.insert key v) ∈ l := by
  obtain ⟨s, -, htrace⟩ := Sys.simulated hstands h
  rcases found htrace rfl hi with (hrecs | hsaving | hfresh) | hcalled
  · exact .inl hrecs
  · cases hsaving
  · cases hfresh
  · exact .inr hcalled

theorem fetch_given_tiny : ([([1], [7])] : Records).lookup [2] = some [8] ∨
    ∃ j : Bool, Event.call j (.insert [2] [8]) ∈
      savedEvents ++ fetchedEvents ++ unsavedEvents ++ crashedEvents ++ recoveredEvents := by
  obtain ⟨x, h⟩ := tiny_sessions
  exact Sys.fetch_given (i := false) stands_tiny h (by simp [recoveredEvents])

/-- What one thread was told is what the others are told, until the process is ended or a close
fails. -/
theorem Sys.fetch_told {i j : ι} {key v : Bytes} {op : KeyOp} {r r' : Reply Bytes}
    {a b c : List (StoreEvent ι)} (hstands : Stands cfg recs fs)
    (h : Trace (Sys.Step (ι := ι) cfg.hasher order) (.down fs) (a ++ .reply j op r :: (b ++
      .call i (.fetch key) :: (c ++ [.reply i (.fetch key) r']))) x)
    (ht : Tells key v op r) (h₂ : Unbroken b) (h₃ : Unbroken c)
    (hreply : ∀ op r, .reply i op r ∉ c) : r' = .value v ∨ r' = .failed := by
  obtain ⟨s, -, htrace⟩ := Sys.simulated hstands h
  exact fetch_of_told htrace rfl ht h₂ h₃ hreply

theorem fetch_told_tiny : (Reply.value [8] : Reply Bytes) = .value [8] ∨
    (Reply.value [8] : Reply Bytes) = .failed := by
  obtain ⟨x, h⟩ := tiny_told
  exact Sys.fetch_told (i := false) (j := true) (a := [.opened, .call true (.insert [2] [8])])
    (b := [.call false (.fetch [2]), .reply false (.fetch [2]) (.value [8]), .closed, .opened])
    (c := []) stands_tiny h (.inl ⟨rfl, rfl⟩) (by simp [Unbroken]) (by simp [Unbroken]) (by simp)

/-- What a thread was told before the store was closed without an error is what all are told ever
after. -/
theorem Sys.fetch_closed {i j : ι} {key v : Bytes} {op : KeyOp} {r r' : Reply Bytes}
    {a b m c : List (StoreEvent ι)} (hstands : Stands cfg recs fs)
    (h : Trace (Sys.Step (ι := ι) cfg.hasher order) (.down fs) (a ++ .reply j op r :: (b ++
      .closed :: (m ++ .call i (.fetch key) :: (c ++ [.reply i (.fetch key) r'])))) x)
    (ht : Tells key v op r) (h₂ : Unbroken b) (h₃ : Unbroken c)
    (hreply : ∀ op r, .reply i op r ∉ c) : r' = .value v ∨ r' = .failed := by
  obtain ⟨s, -, htrace⟩ := Sys.simulated hstands h
  exact fetch_of_closed htrace rfl ht h₂ h₃ hreply

theorem fetch_closed_tiny : (Reply.value [8] : Reply Bytes) = .value [8] ∨
    (Reply.value [8] : Reply Bytes) = .failed := by
  obtain ⟨x, h⟩ := tiny_sessions
  exact Sys.fetch_closed (i := false) (j := true) (a := [.opened, .call true (.insert [2] [8])])
    (b := [.call false (.fetch [2]), .reply false (.fetch [2]) (.value [8])])
    (m := fetchedEvents ++ unsavedEvents ++ crashedEvents ++
      [.opened, .call true (.fetch [3]), .reply true (.fetch [3]) .missing])
    (c := []) stands_tiny h (.inl ⟨rfl, rfl⟩) (by simp [Unbroken]) (by simp [Unbroken]) (by simp)

/-! ## What the calls meet -/

/-- In every state that an open store reaches, no read of a lookup fails by itself, no assertion
does, and no counter of the generations is decremented at zero. -/
theorem Sys.calls_sound (hstands : Stands cfg recs fs)
    (h : Trace (Sys.Step (ι := ι) cfg.hasher order) (.down fs) l (.up r)) : r.Sound order := by
  obtain ⟨s, his, -⟩ := Sys.simulated hstands h
  cases his with
  | up hmirrors => exact hmirrors.sound

theorem calls_sound_tiny : ∃ r, Busy r ∧ r.Sound Cache.listed := by
  obtain ⟨r, h, hbusy⟩ := tiny_busy
  exact ⟨r, hbusy, Sys.calls_sound stands_tiny h⟩

/-! ## Nothing waits for ever -/

/-- In every state that an open store reaches, a lookup that has its locks, or may take them, can end
by itself. -/
theorem Sys.lookup_can_end {i : ι} {op : KeyOp} (hstands : Stands cfg recs fs)
    (h : Trace (Sys.Step (ι := ι) cfg.hasher order) (.down fs) l (.up r))
    (hi : (r.threads i).looking? = some op ∨ r.threads i = .called op ∧ r.MayLook op) :
    CanFind order i op r := by
  obtain ⟨s, his, -⟩ := Sys.simulated hstands h
  cases his with
  | up hmirrors =>
    rcases hi with hi | ⟨hi, hu⟩
    · exact hmirrors.looking_ends hi
    · exact hmirrors.call_ends hi hu

theorem lookup_can_end_tiny : ∃ r, Busy r ∧ CanFind Cache.listed false (.insert [1] [5]) r := by
  obtain ⟨r, h, hbusy⟩ := tiny_busy
  exact ⟨r, hbusy, Sys.lookup_can_end stands_tiny h (.inl hbusy.1)⟩

/-- In every state that an open store reaches, the readers can end so that `finish` returns, and
meanwhile the commit stays where it is. -/
theorem Sys.finish_can_return (hstands : Stands cfg recs fs)
    (h : Trace (Sys.Step (ι := ι) cfg.hasher order) (.down fs) l (.up r)) :
    ∃ r', Trace (Running.Calls order false) r [] r' ∧ r'.gate.Finished ∧ r'.phase = r.phase ∧
      r'.live = r.live := by
  obtain ⟨s, his, -⟩ := Sys.simulated hstands h
  cases his with
  | up hmirrors => exact hmirrors.finish_ends

theorem finish_can_return_tiny : ∃ r, Busy r ∧ ∃ r' : Running Bool,
    Trace (Running.Calls Cache.listed false) r [] r' ∧ r'.gate.Finished ∧ r'.phase = r.phase ∧
      r'.live = r.live := by
  obtain ⟨r, h, hbusy⟩ := tiny_busy
  exact ⟨r, hbusy, Sys.finish_can_return stands_tiny h⟩

/-- In every state that an open store reaches, each call that is under way can be replied to: the
threads that it waits for end first, and the commit stays where it is. -/
theorem Sys.call_can_reply {i : ι} (hstands : Stands cfg recs fs)
    (h : Trace (Sys.Step (ι := ι) cfg.hasher order) (.down fs) l (.up r))
    (hi : r.threads i ≠ .idle) :
    ∃ op v r', Trace (Running.Calls order false) r [.reply i op v] r' ∧ r'.phase = r.phase := by
  obtain ⟨s, his, -⟩ := Sys.simulated hstands h
  cases his with
  | up hmirrors => exact hmirrors.call_replies hi

theorem call_can_reply_tiny : ∃ r, Busy r ∧ ∃ op v r',
    Trace (Running.Calls Cache.listed false) r [.reply true op v] r' ∧ r'.phase = r.phase := by
  obtain ⟨r, h, hbusy⟩ := tiny_busy
  exact ⟨r, hbusy, Sys.call_can_reply stands_tiny h (by rw [hbusy.2.1]; simp)⟩

end Guarantees

end Metcalfe.Nudb
