import Metcalfe.Nudb.Threads

/-!
# Runs that are computed

The steps of `Sys.Step` as a function of what is to happen next: which thread goes on, whether the
commit does, when the process is ended. Whatever is performed is a run (`Sys.performs_trace`), so
that a run of a store can be computed and looked at.
-/

namespace Metcalfe.Nudb

open BigEndian Durable Stateful DurableMap Simulation

deriving instance DecidableEq for Walk, Thread

instance (t : Thread) : Decidable t.Inserting :=
  match t with
  | .block op _ _ | .walking op _ _ => inferInstanceAs (Decidable (op.isInsert = true))
  | .absent _ _ => .isTrue trivial
  | .idle | .called _ | .answered _ _ => .isFalse id

instance (t : Thread) : Decidable t.Shared :=
  match t with
  | .walking _ .shared _ => .isTrue trivial
  | .walking _ .free _ | .walking _ (.gen _) _ => .isFalse id
  | .idle | .called _ | .block _ _ _ | .absent _ _ | .answered _ _ => .isFalse id

instance (st : Live) (op : KeyOp) : Decidable (Running.Accepts st op) :=
  match op with
  | .fetch key => inferInstanceAs (Decidable (key.length = st.kh.keySize))
  | .insert key data => inferInstanceAs (Decidable (key.length = st.kh.keySize ∧
      0 < data.length ∧ data.length < 2 ^ 32))

instance (g : Gentex) : Decidable g.Finished := inferInstanceAs (Decidable (g.prev = 0))

namespace Running

variable {ι : Type} [DecidableEq ι] [Fintype ι] {order : Cache.Order} {r r' : Running ι} {i : ι}
  {e : Option (StoreEvent ι)}

instance (r : Running ι) : Decidable r.Unshared :=
  inferInstanceAs (Decidable (∀ i, ¬ (r.threads i).Shared))

instance (r : Running ι) (op : KeyOp) : Decidable (r.MayLook op) :=
  inferInstanceAs (Decidable (op.isInsert = true → ∀ i, ¬ (r.threads i).Inserting))

/-- Where a lookup begins: in the pools, in the cache or in the key file. -/
def look (r : Running ι) (i : ι) (op : KeyOp) : Running ι :=
  match r.live.pooled op.key with
  | some v => r.set i (.found op (some v))
  | none =>
    match r.live.c1.find r.live.kh.blockSize (r.live.bucketOf op.key) with
    | some b => r.set i (.walking op .shared (.start (r.live.hashOf op.key) b))
    | none => { r.set i (.block op (r.live.bucketOf op.key) r.gate.gen) with
        gate := r.gate.lockGen }

/-- A thread goes on, unless it waits. -/
def forward (order : Cache.Order) (i : ι) (r : Running ι) :
    Option (Option (StoreEvent ι) × Running ι) :=
  match r.threads i with
  | .idle => none
  | .called op =>
    match r.phase with
    | .stopped _ => some (none, r.set i (.answered op .failed))
    | _ => if r.MayLook op then some (none, r.look i op) else none
  | .block op n g =>
    match Bucket.read r.live.kh.blockSize ((r.files order).bytes .key)
      ((n + 1) * r.live.kh.blockSize) with
    | .ok b => some (none, r.set i (.walking op (.gen g)
        (.start (r.live.hashOf op.key) b)))
    | .error _ => none
  | .walking op hold w =>
    match w.next r.live.kh.blockSize r.live.kh.keySize (!op.isInsert) (r.live.hashOf op.key) op.key
      ((r.files order).bytes .dat) with
    | .ok (.inl w') => some (none,
        r.set i (.walking op (hold.next op (r.live.hashOf op.key) w) w'))
    | .ok (.inr v) => some (none, { r.set i (.found op v) with gate := r.gate.release hold.gen? })
    | .error _ => none
  | .absent key data =>
    if r.Unshared then
      match r.live.p1.insert (r.live.hashOf key) key data with
      | .ok p => some (none, { r.set i (.answered (.insert key data) .inserted) with
          live := { r.live with p1 := p } })
      | .error _ => none
    else none
  | .answered op v => some (some (.reply i op v), r.set i .idle)

omit [Fintype ι] in
theorem look_calls {op : KeyOp} (h : r.threads i = .called op) (hu : r.MayLook op) :
    r.Calls order false none (r.look i op) := by
  unfold look
  cases hv : r.live.pooled op.key with
  | some v => exact .pooled h hu hv
  | none =>
    cases hb : r.live.c1.find r.live.kh.blockSize (r.live.bucketOf op.key) with
    | some b => exact .cached h hu hv hb
    | none => exact .block h hu hv hb

theorem forward_calls (h : r.forward order i = some (e, r')) : r.Calls order false e r' := by
  unfold forward at h
  split at h
  · cases h
  · rename_i op hi
    split at h
    · rename_i fs hphase
      cases h
      exact .refuse hi hphase
    · split at h
      · rename_i hu
        cases h
        exact look_calls hi hu
      · cases h
  · rename_i op n g hi
    split at h
    · rename_i b hb
      cases h
      exact .read hi hb
    · cases h
  · rename_i op hold w hi
    split at h
    · rename_i w' hw
      cases h
      exact .next hi hw
    · rename_i v hw
      cases h
      exact .found hi hw
    · cases h
  · rename_i key data hi
    split at h
    · rename_i hm
      split at h
      · rename_i p hp
        cases h
        exact .insert hi hm hp
      · cases h
    · cases h
  · rename_i op v hi
    cases h
    exact .reply hi

/-- What the commit does next with the result of what it was doing. A commit that has failed does
nothing. -/
def advance (order : Cache.Order) (faults : Nat → Option Fault) (r : Running ι) :
    Option (Running ι) :=
  match r.phase with
  | .rest fs =>
    if r.Unshared ∧ r.live.p1.values ≠ [] ∧ r.live.buckets + r.live.p1.values.length ≤ 2 ^ 32 then
      some { r with live := r.live.begin_, phase := .saving ⟨fs, 0, faults⟩ ⟨0, 0⟩ }
    else none
  | .saving d t =>
    match r.live.prepare (d.ending t) with
    | .ok x d' =>
      if r.Unshared then
        some { r with
          live := r.live.publish x, gate := r.gate.start
          phase := .logging x.c0 ⟨d'.files, 0, faults⟩ ⟨0, 0⟩ }
      else none
    | .error h d' => if h.isCode = true then some { r with phase := .stopped d'.files } else none
  | .logging c0 d t =>
    match Disk.writeLog r.live.kh.blockSize (order.visit c0) (d.ending t) with
    | .ok _ d' => some { r with phase := .waiting d'.files }
    | .error h d' => if h.isCode = true then some { r with phase := .stopped d'.files } else none
  | .waiting fs =>
    if r.gate.Finished then some { r with phase := .writing ⟨fs, 0, faults⟩ ⟨0, 0⟩ } else none
  | .writing d t =>
    match r.live.overwrite order (d.ending t) with
    | .ok _ d' =>
      if r.Unshared then some { r with live := r.live.end_, phase := .rest d'.files } else none
    | .error h d' => if h.isCode = true then some { r with phase := .stopped d'.files } else none
  | .stopped _ => none

omit [DecidableEq ι] in
theorem advance_commits {faults : Nat → Option Fault} (h : r.advance order faults = some r') :
    r.Commits order r' := by
  unfold advance at h
  split at h
  · rename_i fs hphase
    split at h
    · rename_i hcond
      cases h
      exact .begin_ hphase hcond.1 hcond.2.1 hcond.2.2 faults
    · cases h
  · rename_i d t hphase
    split at h
    · rename_i x d' hx
      split at h
      · rename_i hm
        cases h
        exact .publish hphase hm hx faults
      · cases h
    · rename_i d' hx
      split at h
      · rename_i hcode
        cases h
        exact .stop (by rw [hphase]; exact .saving hx hcode)
      · cases h
  · rename_i c0 d t hphase
    split at h
    · rename_i d' hx
      cases h
      exact .logged hphase hx
    · rename_i d' hx
      split at h
      · rename_i hcode
        cases h
        exact .stop (by rw [hphase]; exact .logging hx hcode)
      · cases h
  · rename_i fs hphase
    split at h
    · rename_i hg
      cases h
      exact .finish hphase hg faults
    · cases h
  · rename_i d t hphase
    split at h
    · rename_i d' hx
      split at h
      · rename_i hm
        cases h
        exact .end_ hphase hm hx
      · cases h
    · rename_i d' hx
      split at h
      · rename_i hcode
        cases h
        exact .stop (by rw [hphase]; exact .writing hx hcode)
      · cases h
  · cases h

end Running

namespace Sys

variable {ι : Type} [DecidableEq ι] [Fintype ι] {hasher : Hasher} {order : Cache.Order}

omit [Fintype ι] in
/-- The steps of an open store are steps of the system. -/
theorem trace_up {r r' : Running ι} {l : List (StoreEvent ι)}
    (h : Trace (Running.Step order) r l r') :
    Trace (Sys.Step hasher order) (.up r) l (.up r') := by
  induction h with
  | nil => exact .nil _
  | cons hstep _ ih => exact .cons (.up hstep) ih

/-- So many calls further, and so many bytes of the call after them. -/
def later (t : Tick) : (calls bytes : Nat) → Tick
  | 0, bytes => ⟨t.calls, t.bytes + bytes⟩
  | calls + 1, bytes => ⟨t.calls + (calls + 1), bytes⟩

def laterPhase (calls bytes : Nat) : Phase → Option Phase
  | .saving d t => some (.saving d (later t calls bytes))
  | .logging c0 d t => some (.logging c0 d (later t calls bytes))
  | .writing d t => some (.writing d (later t calls bytes))
  | _ => none

omit [Fintype ι] in
theorem later_trace {P : Tick → Phase} (hP : ∀ {t t' : Tick}, t.Next t' → (P t).Next (P t'))
    (r : Running ι) (t : Tick) (calls bytes : Nat) :
    Trace (Running.Step order) { r with phase := P t } []
      { r with phase := P (later t calls bytes) } := by
  have hstep : ∀ {t t' : Tick}, t.Next t' → Trace (Running.Step order) { r with phase := P t } []
      { r with phase := P t' } := fun h => .silent (.commit (.tick (hP h)))
  have hbytes : ∀ (t : Tick) n, Trace (Running.Step order) { r with phase := P t } []
      { r with phase := P ⟨t.calls, t.bytes + n⟩ } := by
    intro t n
    induction n with
    | zero => exact .nil _
    | succ n ih => exact ih.append (hstep (.byte ⟨t.calls, t.bytes + n⟩))
  cases calls with
  | zero => exact hbytes t bytes
  | succ calls =>
    have hcalls : Trace (Running.Step order) { r with phase := P t } []
        { r with phase := P ⟨t.calls + (calls + 1), 0⟩ } := by
      induction calls with
      | zero => exact hstep (.call t)
      | succ n ih => exact ih.append (hstep (.call ⟨t.calls + (n + 1), 0⟩))
    have hlast := hbytes ⟨t.calls + (calls + 1), 0⟩ bytes
    rw [Nat.zero_add] at hlast
    exact hcalls.append hlast

omit [Fintype ι] in
theorem laterPhase_trace {r : Running ι} {calls bytes : Nat} {p : Phase}
    (h : laterPhase calls bytes r.phase = some p) :
    Trace (Running.Step order) r [] { r with phase := p } := by
  obtain ⟨live, gate, phase, threads⟩ := r
  cases phase with
  | saving d t =>
    cases h
    exact later_trace (.saving d) ⟨live, gate, .saving d t, threads⟩ t calls bytes
  | logging c0 d t =>
    cases h
    exact later_trace (.logging c0 d) ⟨live, gate, .logging c0 d t, threads⟩ t calls bytes
  | writing d t =>
    cases h
    exact later_trace (.writing d) ⟨live, gate, .writing d t, threads⟩ t calls bytes
  | rest | waiting | stopped => cases h

/-- What is to happen next. -/
inductive Cmd (ι : Type)
  | call (i : ι) (op : KeyOp)
  | go (i : ι)
  | later (calls bytes : Nat)
  | commit (faults : Nat → Option Fault)
  | close (faults : Nat → Option Fault)
  | crash
  /-- Before it is opened again what is not on the medium is written, or all of it is lost. -/
  | open_ (lost : Bool) (end_ : Option (Nat × Nat))

/-- `close`, once the callers and the commit are done. -/
def perform.close (faults : Nat → Option Fault) (r : Running ι) :
    Option (Option (StoreEvent ι) × Sys ι) :=
  if r.threads = fun _ => .idle then
    match r.phase with
    | .rest fs =>
      if r.live.p1.values = [] then
        match Live.close ⟨fs, 0, faults⟩ with
        | .ok _ d' => some (some .closed, .down d'.files)
        | .error h d' => if h.isCode = true then some (some .closeFailed, .down d'.files) else none
      else none
    | .stopped fs => some (some .closeFailed, .down fs)
    | _ => none
  else none

/-- `open`; the process may be ended meanwhile. -/
def perform.open_ (hasher : Hasher) (fs : Files) (end_ : Option (Nat × Nat)) :
    Option (StoreEvent ι) × Sys ι :=
  match Live.open_ hasher [] ⟨fs, 0, Disk.ended end_⟩ with
  | .ok st d' => (some .opened, .up ⟨st, ⟨0, 0, 0⟩, .rest d'.files, fun _ => .idle⟩)
  | .error _ d' => (none, .down d'.files)

def perform (hasher : Hasher) (order : Cache.Order) :
    Cmd ι → Sys ι → Option (Option (StoreEvent ι) × Sys ι)
  | .call i op, .up r =>
    if Running.Accepts r.live op ∧ r.threads i = .idle then
      some (some (.call i op), .up (r.set i (.called op)))
    else none
  | .go i, .up r => (r.forward order i).map fun x => (x.1, .up x.2)
  | .later calls bytes, .up r =>
    (laterPhase calls bytes r.phase).map fun p => (none, .up { r with phase := p })
  | .commit faults, .up r => (r.advance order faults).map fun r' => (none, .up r')
  | .close faults, .up r => perform.close faults r
  | .crash, .up r => some (some .crashed, .down (r.files order))
  | .open_ lost end_, .down fs =>
    some (perform.open_ hasher (if lost then fs.lose else fs.flush) end_)
  | _, _ => none

def performs (hasher : Hasher) (order : Cache.Order) :
    List (Cmd ι) → Sys ι → Option (List (StoreEvent ι) × Sys ι)
  | [], x => some ([], x)
  | c :: cs, x => do
    let (e, x') ← perform hasher order c x
    let (l, x'') ← performs hasher order cs x'
    pure (e.toList ++ l, x'')

variable {x x' : Sys ι} {e : Option (StoreEvent ι)} {l : List (StoreEvent ι)}

theorem close_step {faults : Nat → Option Fault} {r : Running ι}
    (h : perform.close faults r = some (e, x')) : Sys.Step hasher order (.up r) e x' := by
  unfold perform.close at h
  split at h
  · rename_i hidle
    split at h
    · rename_i fs hphase
      split at h
      · rename_i hp1
        split at h
        · rename_i d' hx
          cases h
          exact .closed hphase hp1 hidle hx
        · rename_i d' hx
          split at h
          · rename_i hcode
            cases h
            exact .unerased hphase hp1 hidle hx hcode
          · cases h
      · cases h
    · rename_i fs hphase
      cases h
      exact .unsaved hphase hidle
    · cases h
  · cases h

omit [Fintype ι] in
theorem open_step {fs : Files} (hsettled : fs.Settled) (end_ : Option (Nat × Nat)) :
    Sys.Step (ι := ι) hasher order (.down fs) (perform.open_ hasher fs end_).1
      (perform.open_ hasher fs end_).2 := by
  unfold perform.open_
  split
  · rename_i st d' hx
    exact .opened hsettled (fun _ => Disk.not_failing_ended end_ fs) hx
  · rename_i d' hx
    exact .unopened hsettled (fun _ => Disk.not_failing_ended end_ fs) hx

theorem perform_trace {c : Cmd ι} (h : perform hasher order c x = some (e, x')) :
    Trace (Sys.Step hasher order) x e.toList x' := by
  unfold perform at h
  split at h
  · rename_i i op r
    split at h
    · rename_i hcond
      cases h
      exact .event (.up (.caller (.call hcond.1 hcond.2)))
    · cases h
  · obtain ⟨⟨e', r'⟩, hx, heq⟩ := Option.map_eq_some_iff.mp h
    cases heq
    exact .single (.up (Running.forward_calls hx).step)
  · obtain ⟨p, hx, heq⟩ := Option.map_eq_some_iff.mp h
    cases heq
    exact trace_up (laterPhase_trace hx)
  · obtain ⟨r', hx, heq⟩ := Option.map_eq_some_iff.mp h
    cases heq
    exact .silent (.up (.commit (Running.advance_commits hx)))
  · exact .single (close_step h)
  · cases h
    exact .event .crashed
  · rename_i lost end_ fs
    have hreopen : ∀ fs' : Files, Settles fs fs' → fs'.Settled →
        perform.open_ hasher fs' end_ = (e, x') →
          Trace (Sys.Step hasher order) (.down fs) e.toList x' := by
      intro fs' hs hsettled hx
      have hopen : Sys.Step (ι := ι) hasher order (.down fs') _ _ := open_step hsettled end_
      rw [hx] at hopen
      exact (Trace.silent (.settles hs.survives hs.inOrder)).append (.single hopen)
    rw [Option.some.injEq] at h
    cases lost with
    | true => exact hreopen _ (settles_lose fs) (settled_lose fs) h
    | false => exact hreopen _ (settles_flush fs) (settled_flush fs) h
  · cases h

theorem performs_trace {cs : List (Cmd ι)} (h : performs hasher order cs x = some (l, x')) :
    Trace (Sys.Step hasher order) x l x' := by
  induction cs generalizing x l with
  | nil =>
    cases h
    exact .nil _
  | cons c cs ih =>
    obtain ⟨⟨e, x₁⟩, hx, hrest⟩ := Option.bind_eq_some_iff.mp h
    obtain ⟨⟨l', x₂⟩, hxs, heq⟩ := Option.bind_eq_some_iff.mp hrest
    cases heq
    exact (perform_trace hx).append (ih hxs)

/-- A computed run with these events, in whose last state `P` holds. -/
theorem exists_trace_of_performs (cs : List (Cmd ι)) (P : Sys ι → Bool)
    (h : (performs hasher order cs x).any (fun p => decide (p.1 = l) && P p.2) = true) :
    ∃ x', Trace (Sys.Step hasher order) x l x' ∧ P x' = true := by
  obtain ⟨⟨l', x'⟩, hx, hp⟩ := (Option.any_eq_true _ _).mp h
  rw [Bool.and_eq_true, decide_eq_true_eq] at hp
  obtain ⟨rfl, hp⟩ := hp
  exact ⟨x', performs_trace hx, hp⟩

theorem exists_trace_of_map (cs : List (Cmd ι))
    (h : (performs hasher order cs x).map Prod.fst = some l) :
    ∃ x', Trace (Sys.Step hasher order) x l x' := by
  obtain ⟨⟨l', x'⟩, hx, rfl⟩ := Option.map_eq_some_iff.mp h
  exact ⟨x', performs_trace hx⟩

end Sys

end Metcalfe.Nudb
