import Metcalfe.Library.DurableMap
import Metcalfe.Nudb.Gentex
import Metcalfe.Nudb.Lookup
import Metcalfe.Nudb.Moments
import Metcalfe.Nudb.Open

/-!
# A store and the threads that use it

The threads that call `fetch` and `insert`, and the one thread that commits (`basic_store::run`),
step after step in any order. A step of a caller is what it does under a lock, or one read of a
file; a step of the commit is a byte that is written, a call of the operating system, or one of the
moments at which it changes what the callers see.

A mutex is held by the threads that stand between taking it and releasing it: `m_` shared, by a
thread that walks through a bucket of the cache; `u_`, by a thread that is inserting. What needs
`m_` alone is one step, for which nobody holds it shared.

A caller may fail at each of its reads (`fallible`). The calls of `open` and `close` are made when no
other call is under way. The process may be ended at each moment; the commit and the steps of `open`
and `close` may also end with an error. The files are opened again when what was written before is
on the medium or lost (`Sys.Step.settles`), after a `close` that returned an error by another store
object, in which `ecb_` is not set.
-/

namespace Metcalfe.Nudb

open BigEndian Durable Stateful DurableMap

abbrev KeyOp := Op Bytes Bytes

abbrev StoreEvent (ι : Type) := Event ι Bytes Bytes

/-- What a lookup holds: `m_` shared, or a generation. -/
inductive Hold
  | free
  | shared
  | gen (g : Nat)
  deriving DecidableEq

def Hold.gen? : Hold → Option Nat
  | gen g => some g
  | _ => none

/-- Where a calling thread is. -/
inductive Thread
  | idle
  | called (op : KeyOp)
  /-- The key may be in bucket `n`, which is to be read from the key file. -/
  | block (op : KeyOp) (n g : Nat)
  | walking (op : KeyOp) (hold : Hold) (w : Walk)
  /-- An insert whose key was not found. -/
  | absent (key data : Bytes)
  | answered (op : KeyOp) (r : Reply Bytes)

namespace Thread

/-- `u_` is held. -/
def Inserting : Thread → Prop
  | block op _ _ => op.isInsert = true
  | walking op _ _ => op.isInsert = true
  | absent _ _ => True
  | _ => False

/-- `m_` is held shared. -/
def Shared : Thread → Prop
  | walking _ .shared _ => True
  | _ => False

def gen? : Thread → Option Nat
  | block _ _ g => some g
  | walking _ hold _ => hold.gen?
  | _ => none

/-- The call of a lookup that is under way. -/
def looking? : Thread → Option KeyOp
  | block op _ _ => some op
  | walking op _ _ => some op
  | _ => none

/-- After a lookup: a fetch replies what was found, an insert goes on if nothing was. -/
def found : KeyOp → Option Bytes → Thread
  | .fetch key, r => answered (.fetch key) (.ofOption r)
  | .insert key data, some _ => answered (.insert key data) .exists_
  | .insert key data, none => absent key data

end Thread

/-- `exists` releases `m_` once it is done with the first bucket. -/
def Hold.next (op : KeyOp) (h : Nat) (w : Walk) : Hold → Hold
  | .shared => if op.isInsert = true ∧ ¬ (w.i < w.b.size ∧ (w.b.at_ w.i).hash = h) then .free
      else .shared
  | hold => hold

def Gentex.release (g : Gentex) : Option Nat → Gentex
  | some n => g.unlockGen n
  | none => g

theorem Hold.gen?_next (op : KeyOp) (h : Nat) (w : Walk) (hold : Hold) :
    (hold.next op h w).gen? = hold.gen? := by
  cases hold with
  | shared =>
    dsimp only [Hold.next]
    split <;> rfl
  | _ => rfl

theorem Thread.gen?_found (op : KeyOp) (v : Option Bytes) : (Thread.found op v).gen? = none := by
  cases op with
  | fetch key => rfl
  | insert key data => cases v <;> rfl

theorem Thread.isInsert_of_found {op : KeyOp} {v : Option Bytes}
    (h : (Thread.found op v).Inserting) : op.isInsert = true := by
  cases op with
  | fetch key => exact h.elim
  | insert key data => rfl

namespace Gentex

variable {ι : Type} [Fintype ι] [DecidableEq ι] {g : Gentex} {held : ι → Option Nat} {i : ι}
  {n? : Option Nat}

omit [Fintype ι] [DecidableEq ι] in
theorem gen_release (g : Gentex) (n? : Option Nat) : (g.release n?).gen = g.gen := by
  cases n? with
  | none => rfl
  | some n =>
    show (g.unlockGen n).gen = _
    unfold unlockGen
    split <;> rfl

omit [Fintype ι] [DecidableEq ι] in
theorem Finished.release (h : g.Finished) (n? : Option Nat) : (g.release n?).Finished := by
  cases n? with
  | none => exact h
  | some n =>
    have hprev : g.prev = 0 := h
    show (g.unlockGen n).prev = 0
    unfold unlockGen
    split
    · exact hprev
    · show g.prev - 1 = 0
      omega

theorem Counts.release (h : g.Counts held) (hi : held i = n?) :
    (g.release n?).Counts (Function.update held i none) := by
  cases n? with
  | none =>
    have hself : Function.update held i none = held := by rw [← hi, Function.update_eq_self]
    rw [hself]
    exact h
  | some n => exact h.unlock hi

end Gentex

/-- Where the commit is. -/
inductive Phase
  | rest (fs : Files)
  /-- The log gets its header, and the new buckets are built. -/
  | saving (d : Disk) (t : Tick)
  /-- The old buckets are written to the log. -/
  | logging (c0 : Cache) (d : Disk) (t : Tick)
  /-- In `finish`. -/
  | waiting (fs : Files)
  /-- The new buckets are written to the key file. -/
  | writing (d : Disk) (t : Tick)
  /-- A commit has failed, and there will be no other. -/
  | stopped (fs : Files)

namespace Live

def hashOf (st : Live) (key : Bytes) : Nat := hash st.hasher key st.kh.salt

/-- The bucket that a key belongs to. -/
def bucketOf (st : Live) (key : Bytes) : Nat := bucketIndex (st.hashOf key) st.buckets st.modulus

/-- What the pools have. -/
def pooled (st : Live) (key : Bytes) : Option Bytes :=
  ((st.p1.find key).or (st.p0.find key)).map Value.data

end Live

namespace Phase

def files (order : Cache.Order) (st : Live) : Phase → Files
  | rest fs => fs
  | saving d t => moment st.prepare d t
  | logging c0 d t => moment (Disk.writeLog st.kh.blockSize (order.visit c0)) d t
  | waiting fs => fs
  | writing d t => moment (st.overwrite order) d t
  | stopped fs => fs

/-- The commit goes on. -/
inductive Next : Phase → Phase → Prop
  | saving (d : Disk) {t t' : Tick} (h : t.Next t') : Next (saving d t) (saving d t')
  | logging (c0 : Cache) (d : Disk) {t t' : Tick} (h : t.Next t') :
      Next (logging c0 d t) (logging c0 d t')
  | writing (d : Disk) {t t' : Tick} (h : t.Next t') : Next (writing d t) (writing d t')

/-- The commit ends with an error code, which leaves the files as they are. -/
inductive Fails (order : Cache.Order) (st : Live) : Phase → Files → Prop
  | saving {d d' : Disk} {t : Tick} {h : Halt} (hx : st.prepare (d.ending t) = .error h d')
      (hcode : h.isCode = true) : Fails order st (saving d t) d'.files
  | logging {c0 : Cache} {d d' : Disk} {t : Tick} {h : Halt}
      (hx : Disk.writeLog st.kh.blockSize (order.visit c0) (d.ending t) = .error h d')
      (hcode : h.isCode = true) : Fails order st (logging c0 d t) d'.files
  | writing {d d' : Disk} {t : Tick} {h : Halt} (hx : st.overwrite order (d.ending t) = .error h d')
      (hcode : h.isCode = true) : Fails order st (writing d t) d'.files

end Phase

/-- An open store. -/
structure Running (ι : Type) where
  live : Live
  gate : Gentex
  phase : Phase
  threads : ι → Thread

namespace Running

variable {ι : Type} [DecidableEq ι]

def files (order : Cache.Order) (r : Running ι) : Files := r.phase.files order r.live

def set (r : Running ι) (i : ι) (t : Thread) : Running ι :=
  { r with threads := Function.update r.threads i t }

@[simp]
theorem threads_set_self (r : Running ι) (i : ι) (t : Thread) : (r.set i t).threads i = t := by
  simp [set]

@[simp]
theorem threads_set_of_ne (r : Running ι) {i j : ι} (h : j ≠ i) (t : Thread) :
    (r.set i t).threads j = r.threads j := by
  simp [set, h]

/-- `m_` can be taken. -/
def Unshared (r : Running ι) : Prop := ∀ i, ¬ (r.threads i).Shared

/-- A caller may take `u_`, if it needs it. -/
def MayLook (r : Running ι) (op : KeyOp) : Prop :=
  op.isInsert = true → ∀ i, ¬ (r.threads i).Inserting

/-- What the parameters of a call are required to be. -/
def Accepts (st : Live) : KeyOp → Prop
  | .fetch key => key.length = st.kh.keySize
  | .insert key data => key.length = st.kh.keySize ∧ 0 < data.length ∧ data.length < 2 ^ 32

/-- The steps of the callers. -/
inductive Calls (order : Cache.Order) (fallible : Bool) :
    Running ι → Option (StoreEvent ι) → Running ι → Prop
  | call {r : Running ι} {i : ι} {op : KeyOp} (hop : Accepts r.live op)
      (h : r.threads i = .idle) :
      Calls order fallible r (some (.call i op)) (r.set i (.called op))
  /-- A commit has failed. -/
  | refuse {r : Running ι} {i : ι} {op : KeyOp} {fs : Files} (h : r.threads i = .called op)
      (hstop : r.phase = .stopped fs) :
      Calls order fallible r none (r.set i (.answered op .failed))
  /-- With `m_`, and `u_` for an insert: the key is in one of the pools. -/
  | pooled {r : Running ι} {i : ι} {op : KeyOp} {v : Bytes} (h : r.threads i = .called op)
      (hu : r.MayLook op) (hv : r.live.pooled op.key = some v) :
      Calls order fallible r none (r.set i (.found op (some v)))
  /-- Its bucket is in the cache. -/
  | cached {r : Running ι} {i : ι} {op : KeyOp} {b : Bucket} (h : r.threads i = .called op)
      (hu : r.MayLook op) (hv : r.live.pooled op.key = none)
      (hb : r.live.c1.find r.live.kh.blockSize (r.live.bucketOf op.key) = some b) :
      Calls order fallible r none
        (r.set i (.walking op .shared (.start (r.live.hashOf op.key) b)))
  /-- Its bucket is in the key file. -/
  | block {r : Running ι} {i : ι} {op : KeyOp} (h : r.threads i = .called op)
      (hu : r.MayLook op) (hv : r.live.pooled op.key = none)
      (hb : r.live.c1.find r.live.kh.blockSize (r.live.bucketOf op.key) = none) :
      Calls order fallible r none { r.set i (.block op (r.live.bucketOf op.key) r.gate.gen) with
        gate := r.gate.lockGen }
  | read {r : Running ι} {i : ι} {op : KeyOp} {n g : Nat} {b : Bucket}
      (h : r.threads i = .block op n g)
      (hb : Bucket.read r.live.kh.blockSize ((r.files order).bytes .key)
        ((n + 1) * r.live.kh.blockSize) = .ok b) :
      Calls order fallible r none
        (r.set i (.walking op (.gen g) (.start (r.live.hashOf op.key) b)))
  | next {r : Running ι} {i : ι} {op : KeyOp} {hold : Hold} {w w' : Walk}
      (h : r.threads i = .walking op hold w)
      (hw : w.next r.live.kh.blockSize r.live.kh.keySize (!op.isInsert) (r.live.hashOf op.key)
        op.key ((r.files order).bytes .dat) = .ok (.inl w')) :
      Calls order fallible r none
        (r.set i (.walking op (hold.next op (r.live.hashOf op.key) w) w'))
  | found {r : Running ι} {i : ι} {op : KeyOp} {hold : Hold} {w : Walk} {v : Option Bytes}
      (h : r.threads i = .walking op hold w)
      (hw : w.next r.live.kh.blockSize r.live.kh.keySize (!op.isInsert) (r.live.hashOf op.key)
        op.key ((r.files order).bytes .dat) = .ok (.inr v)) :
      Calls order fallible r none
        { r.set i (.found op v) with gate := r.gate.release hold.gen? }
  /-- A read fails. -/
  | fails {r : Running ι} {i : ι} {op : KeyOp} (hfallible : fallible = true)
      (h : (r.threads i).looking? = some op) :
      Calls order fallible r none { r.set i (.answered op .failed) with
        gate := r.gate.release (r.threads i).gen? }
  | insert {r : Running ι} {i : ι} {key data : Bytes} {p : Pool}
      (h : r.threads i = .absent key data) (hm : r.Unshared)
      (hp : r.live.p1.insert (r.live.hashOf key) key data = .ok p) :
      Calls order fallible r none { r.set i (.answered (.insert key data) .inserted) with
        live := { r.live with p1 := p } }
  | reply {r : Running ι} {i : ι} {op : KeyOp} {v : Reply Bytes}
      (h : r.threads i = .answered op v) :
      Calls order fallible r (some (.reply i op v)) (r.set i .idle)

/-- The steps of the commit. -/
inductive Commits (order : Cache.Order) : Running ι → Running ι → Prop
  /-- A commit begins. The number of buckets stays in the range of its type. -/
  | begin_ {r : Running ι} {fs : Files} (h : r.phase = .rest fs) (hm : r.Unshared)
      (hne : r.live.p1.values ≠ []) (hbounded : r.live.buckets + r.live.p1.values.length ≤ 2 ^ 32)
      (faults : Nat → Option Fault) :
      Commits order r { r with live := r.live.begin_, phase := .saving ⟨fs, 0, faults⟩ ⟨0, 0⟩ }
  | tick {r : Running ι} {p : Phase} (h : r.phase.Next p) : Commits order r { r with phase := p }
  | publish {r : Running ι} {d d' : Disk} {t : Tick} {x : Draft} (h : r.phase = .saving d t)
      (hm : r.Unshared) (hx : r.live.prepare (d.ending t) = .ok x d')
      (faults : Nat → Option Fault) :
      Commits order r { r with
        live := r.live.publish x, gate := r.gate.start
        phase := .logging x.c0 ⟨d'.files, 0, faults⟩ ⟨0, 0⟩ }
  | logged {r : Running ι} {c0 : Cache} {d d' : Disk} {t : Tick} (h : r.phase = .logging c0 d t)
      (hx : Disk.writeLog r.live.kh.blockSize (order.visit c0) (d.ending t) = .ok () d') :
      Commits order r { r with phase := .waiting d'.files }
  | finish {r : Running ι} {fs : Files} (h : r.phase = .waiting fs) (hg : r.gate.Finished)
      (faults : Nat → Option Fault) :
      Commits order r { r with phase := .writing ⟨fs, 0, faults⟩ ⟨0, 0⟩ }
  | end_ {r : Running ι} {d d' : Disk} {t : Tick} (h : r.phase = .writing d t) (hm : r.Unshared)
      (hx : r.live.overwrite order (d.ending t) = .ok () d') :
      Commits order r { r with live := r.live.end_, phase := .rest d'.files }
  | stop {r : Running ι} {fs : Files} (h : r.phase.Fails order r.live fs) :
      Commits order r { r with phase := .stopped fs }

inductive Step (order : Cache.Order) : Running ι → Option (StoreEvent ι) → Running ι → Prop
  | caller {r r' : Running ι} {e : Option (StoreEvent ι)} (h : r.Calls order true e r') :
      Step order r e r'
  | commit {r r' : Running ι} (h : r.Commits order r') : Step order r none r'

/-- What callers do when no read fails they may do in any case. -/
theorem Calls.step {order : Cache.Order} {fallible : Bool} {r r' : Running ι}
    {e : Option (StoreEvent ι)} (h : r.Calls order fallible e r') : r.Step order e r' := by
  refine .caller ?_
  cases h with
  | call hop h => exact .call hop h
  | refuse h hstop => exact .refuse h hstop
  | pooled h hu hv => exact .pooled h hu hv
  | cached h hu hv hb => exact .cached h hu hv hb
  | block h hu hv hb => exact .block h hu hv hb
  | read h hb => exact .read h hb
  | next h hw => exact .next h hw
  | found h hw => exact .found h hw
  | fails _ h => exact .fails rfl h
  | insert h hm hp => exact .insert h hm hp
  | reply h => exact .reply h

end Running

/-- A store that is not open, with its files, or one that is. -/
inductive Sys (ι : Type)
  | down (fs : Files)
  | up (r : Running ι)

/-- The threads of an open store, and the process that has opened it. While a log is recovered that
has records, the operating system reports no error. -/
inductive Sys.Step {ι : Type} [DecidableEq ι] (hasher : Hasher) (order : Cache.Order) :
    Sys ι → Option (StoreEvent ι) → Sys ι → Prop
  | up {r r' : Running ι} {e : Option (StoreEvent ι)} (h : r.Step order e r') :
      Sys.Step hasher order (.up r) e (.up r')
  | opened {fs : Files} {st : Live} {d' : Disk} {faults : Nat → Option Fault} {scratch : Bytes}
      (hsettled : fs.Settled)
      (hquiet : logFileHeaderSize < (fs.bytes .log).length → ¬ Disk.Failing ⟨fs, 0, faults⟩)
      (h : Live.open_ hasher scratch ⟨fs, 0, faults⟩ = .ok st d') :
      Sys.Step hasher order (.down fs) (some .opened)
        (.up ⟨st, ⟨0, 0, 0⟩, .rest d'.files, fun _ => .idle⟩)
  /-- The store cannot be opened, or the process is ended meanwhile. -/
  | unopened {fs : Files} {h : Halt} {d' : Disk} {faults : Nat → Option Fault} {scratch : Bytes}
      (hsettled : fs.Settled)
      (hquiet : logFileHeaderSize < (fs.bytes .log).length → ¬ Disk.Failing ⟨fs, 0, faults⟩)
      (hx : Live.open_ hasher scratch ⟨fs, 0, faults⟩ = .error h d') :
      Sys.Step hasher order (.down fs) none (.down d'.files)
  | closed {r : Running ι} {fs : Files} {d' : Disk} {faults : Nat → Option Fault}
      (hphase : r.phase = .rest fs) (hp1 : r.live.p1.values = [])
      (hidle : r.threads = fun _ => .idle) (h : Live.close ⟨fs, 0, faults⟩ = .ok () d') :
      Sys.Step hasher order (.up r) (some .closed) (.down d'.files)
  /-- `close` returns the error of a commit. -/
  | unsaved {r : Running ι} {fs : Files} (hphase : r.phase = .stopped fs)
      (hidle : r.threads = fun _ => .idle) :
      Sys.Step hasher order (.up r) (some .closeFailed) (.down fs)
  /-- `close` cannot remove the log file. -/
  | unerased {r : Running ι} {fs : Files} {h : Halt} {d' : Disk} {faults : Nat → Option Fault}
      (hphase : r.phase = .rest fs) (hp1 : r.live.p1.values = [])
      (hidle : r.threads = fun _ => .idle) (hx : Live.close ⟨fs, 0, faults⟩ = .error h d')
      (hcode : h.isCode = true) :
      Sys.Step hasher order (.up r) (some .closeFailed) (.down d'.files)
  | crashed {r : Running ι} :
      Sys.Step hasher order (.up r) (some .crashed) (.down (r.files order))
  /-- What is not yet on the medium is written or lost; that of the log in its order. -/
  | settles {fs fs' : Files} (hs : Survives fs fs') (hlog : LogInOrder fs fs') :
      Sys.Step hasher order (.down fs) none (.down fs')

end Metcalfe.Nudb
