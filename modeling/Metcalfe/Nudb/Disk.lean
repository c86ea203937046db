import Metcalfe.Library.Durable
import Metcalfe.Library.Stateful
import Metcalfe.Nudb.BulkIo

/-!
# The three files of a database

A store works on a data file, a key file and a log file, through the calls of `posix_file`. The
files are the state of the computations here, and a computation that stops leaves them as they
are at that moment. Each call may be the one at which the process ends, or fail with an error of
the operating system, by a schedule that is given beforehand; a write that does not succeed may
have transferred the first part of its bytes.

The functions of the source return an error code; a computation that stops with one has passed
it up to its caller. Codes that `Nudb.Error` does not have are in `Code`.
-/

namespace Metcalfe.Nudb

open BigEndian Durable Stateful Outcome

inductive Name
  | dat
  | key
  | log
  deriving DecidableEq, Repr

/-- Further codes of `nudb::error`, and the two conditions of the operating system that the code
compares with. -/
inductive Code
  | key_exists
  | log_file_exists
  | no_key_file
  | not_log_file
  | invalid_block_size
  | invalid_log_spill
  | invalid_log_index
  | salt_mismatch
  | pepper_mismatch
  | block_size_mismatch
  | no_such_file_or_directory
  | file_exists
  deriving DecidableEq, Repr

/-- Why a computation stopped: the process ended, or it failed. -/
inductive Halt
  | crash
  | stop (s : Stop)
  | code (c : Code)
  deriving DecidableEq, Repr

/-- A scheduled failure: the error number, if the call returns at all, and how many bytes of a
write were transferred. -/
structure Fault where
  errno : Option Nat
  done : Nat

def Fault.halt (f : Fault) : Halt :=
  match f.errno with
  | none => .crash
  | some e => .stop (.ec (.system e))

/-- An error code; the caller goes on and may look at it. -/
def Halt.isCode : Halt → Bool
  | .crash => false
  | .stop (.ec _) => true
  | .stop _ => false
  | .code _ => true

abbrev Files := Name → Option Media

namespace Files

def media (fs : Files) (nm : Name) : Media := (fs nm).getD (Media.clean [])

def bytes (fs : Files) (nm : Name) : Bytes := (fs.media nm).bytes

def put (fs : Files) (nm : Name) (m : Media) : Files := Function.update fs nm (some m)

def erase (fs : Files) (nm : Name) : Files := Function.update fs nm none

variable {fs : Files} {nm nm' : Name} {m m' : Media}

@[simp]
theorem media_put : (fs.put nm m).media nm = m := by simp [media, put]

theorem media_put_of_ne (h : nm' ≠ nm) : (fs.put nm m).media nm' = fs.media nm' := by
  simp [media, put, h]

@[simp]
theorem put_put : (fs.put nm m).put nm m' = fs.put nm m' := by simp [put]

theorem put_media (h : (fs nm).isSome = true) : fs.put nm (fs.media nm) = fs := by
  obtain ⟨m, hm⟩ := Option.isSome_iff_exists.mp h
  unfold put media
  rw [hm, Option.getD_some, ← hm, Function.update_eq_self]

theorem media_of_eq_some (h : fs nm = some m) : fs.media nm = m := by
  rw [media, h]
  rfl

@[simp]
theorem bytes_put : (fs.put nm m).bytes nm = m.bytes := by
  rw [bytes, media_put]

theorem bytes_of_eq_some (h : fs nm = some m) : fs.bytes nm = m.bytes := by
  rw [bytes, media_of_eq_some h]

end Files

structure Disk where
  files : Files
  ops : Nat
  faults : Nat → Option Fault

/-- Computations on the files. -/
abbrev Act := EStateM Halt Disk

namespace Disk

/-- The way out of a call that does not succeed, as it was scheduled. -/
def Faulty (d : Disk) (h : Halt) : Prop := ∃ k f, d.faults k = some f ∧ h = f.halt

/-- A call: it does not succeed, with its effect in part, or it does what it is for. -/
def syscall {α : Type} (torn : Nat → Files → Files) (call : Files → Except Halt (α × Files)) :
    Act α := fun d =>
  match d.faults d.ops with
  | some fault => .error fault.halt { d with ops := d.ops + 1, files := torn fault.done d.files }
  | none =>
    match call d.files with
    | .ok (a, fs) => .ok a { d with ops := d.ops + 1, files := fs }
    | .error h => .error h { d with ops := d.ops + 1 }

/-- A call that leaves the files as they are when it does not succeed. -/
def whole {α : Type} (call : Files → Except Halt (α × Files)) : Act α := syscall (fun _ fs => fs) call

def size (nm : Name) : Act Nat := whole fun fs => .ok ((fs.bytes nm).length, fs)

def read (nm : Name) (offset n : Nat) : Act Bytes :=
  if n = 0 then pure []
  else whole fun fs =>
    if (fs.bytes nm).length < offset + n then .error (.stop (.ec .short_read))
    else .ok (slice (fs.bytes nm) offset n, fs)

def write (nm : Name) (offset : Nat) (data : Bytes) : Act Unit :=
  if data = [] then pure ()
  else syscall (fun n fs => fs.put nm ((fs.media nm).change (.write offset (data.take n))))
    fun fs => .ok ((), fs.put nm ((fs.media nm).change (.write offset data)))

def sync (nm : Name) : Act Unit := whole fun fs => .ok ((), fs.put nm (fs.media nm).sync)

def trunc (nm : Name) (length : Nat) : Act Unit :=
  whole fun fs => .ok ((), fs.put nm ((fs.media nm).change (.trunc length)))

def create (nm : Name) : Act Unit := whole fun fs =>
  if (fs nm).isSome then .error (.code .file_exists) else .ok ((), fs.put nm (Media.clean []))

/-- `open`, as an existing file. -/
def open_ (nm : Name) : Act Unit := whole fun fs =>
  if (fs nm).isSome then .ok ((), fs) else .error (.code .no_such_file_or_directory)

def erase (nm : Name) : Act Unit := whole fun fs =>
  if (fs nm).isSome then .ok ((), fs.erase nm) else .error (.code .no_such_file_or_directory)

variable {α : Type} {d : Disk} {nm : Name}

/-- A call that does not succeed and leaves the files as they are. -/
def Kept (d : Disk) (h : Halt) (d' : Disk) : Prop := Faulty d h ∧ d'.files = d.files

theorem syscall_leads {torn : Nat → Files → Files} {call : Files → Except Halt (α × Files)} {a : α}
    {fs : Files} (h : call d.files = .ok (a, fs)) :
    Leads (syscall torn call) d (fun a' d' => a' = a ∧ d'.files = fs)
      (fun h d' => Faulty d h ∧ ∃ n, d'.files = torn n d.files) := by
  unfold Leads syscall
  cases hf : d.faults d.ops with
  | some fault => exact ⟨⟨d.ops, fault, hf, rfl⟩, fault.done, rfl⟩
  | none =>
    rw [h]
    exact ⟨rfl, rfl⟩

theorem whole_leads {call : Files → Except Halt (α × Files)} {a : α} {fs : Files}
    (h : call d.files = .ok (a, fs)) :
    Leads (whole call) d (fun a' d' => a' = a ∧ d'.files = fs) (Kept d) :=
  (syscall_leads h).mono (fun _ _ h => h) fun _ _ h => ⟨h.1, h.2.choose_spec⟩

/-- A call that is refused. -/
theorem refused_leads {call : Files → Except Halt (α × Files)} {h : Halt}
    (hcall : call d.files = .error h) : Leads (whole call) d (fun _ _ => False)
      (fun e d' => (Faulty d e ∨ e = h) ∧ d'.files = d.files) := by
  unfold whole Leads syscall
  cases hf : d.faults d.ops with
  | some fault => exact ⟨.inl ⟨d.ops, fault, hf, rfl⟩, rfl⟩
  | none =>
    rw [hcall]
    exact ⟨.inr rfl, rfl⟩

theorem size_leads (d : Disk) (nm : Name) : Leads (size nm) d
    (fun n d' => n = (d.files.bytes nm).length ∧ d'.files = d.files) (Kept d) :=
  whole_leads rfl

theorem read_leads {offset n : Nat} (h : offset + n ≤ (d.files.bytes nm).length) :
    Leads (read nm offset n) d
      (fun b d' => b = slice (d.files.bytes nm) offset n ∧ d'.files = d.files) (Kept d) := by
  unfold read
  by_cases hn : n = 0
  · subst hn
    rw [if_pos rfl]
    exact leads_pure ⟨by simp [slice], rfl⟩
  · rw [if_neg hn]
    apply whole_leads
    rw [if_neg (by omega)]

/-- The end of the file comes before the bytes that are asked for. -/
theorem read_short_leads {offset n : Nat} (hn : n ≠ 0)
    (h : (d.files.bytes nm).length < offset + n) :
    Leads (read nm offset n) d (fun _ _ => False)
      (fun e d' => (Faulty d e ∨ e = .stop (.ec .short_read)) ∧ d'.files = d.files) := by
  unfold read
  rw [if_neg hn]
  apply refused_leads
  rw [if_pos h]

/-- A write, or the first part of one. -/
theorem write_leads (d : Disk) (nm : Name) (offset : Nat) {data : Bytes} (hdata : data ≠ []) :
    Leads (write nm offset data) d
      (fun _ d' => d'.files = d.files.put nm ((d.files.media nm).change (.write offset data)))
      (fun h d' => Faulty d h ∧ ∃ n, d'.files =
        d.files.put nm ((d.files.media nm).change (.write offset (data.take n)))) := by
  unfold write
  rw [if_neg hdata]
  exact (syscall_leads rfl).mono (fun _ _ h => h.2) fun _ _ h => h

theorem sync_leads (d : Disk) (nm : Name) : Leads (sync nm) d
    (fun _ d' => d'.files = d.files.put nm (d.files.media nm).sync) (Kept d) :=
  (whole_leads rfl).mono (fun _ _ h => h.2) fun _ _ h => h

theorem trunc_leads (d : Disk) (nm : Name) (length : Nat) : Leads (trunc nm length) d
    (fun _ d' => d'.files = d.files.put nm ((d.files.media nm).change (.trunc length)))
    (Kept d) :=
  (whole_leads rfl).mono (fun _ _ h => h.2) fun _ _ h => h

theorem create_leads (h : d.files nm = none) : Leads (create nm) d
    (fun _ d' => d'.files = d.files.put nm (Media.clean [])) (Kept d) := by
  refine (whole_leads (a := ()) ?_).mono (fun _ _ h => h.2) fun _ _ h => h
  rw [h]
  rfl

theorem open_leads (h : (d.files nm).isSome = true) :
    Leads (open_ nm) d (fun _ d' => d'.files = d.files) (Kept d) := by
  refine (whole_leads (a := ()) ?_).mono (fun _ _ h => h.2) fun _ _ h => h
  rw [if_pos h]

theorem open_missing_leads (h : d.files nm = none) : Leads (open_ nm) d (fun _ _ => False)
    (fun e d' => (Faulty d e ∨ e = .code .no_such_file_or_directory) ∧ d'.files = d.files) := by
  apply refused_leads
  rw [h]
  rfl

theorem erase_leads (h : (d.files nm).isSome = true) :
    Leads (erase nm) d (fun _ d' => d'.files = d.files.erase nm) (Kept d) := by
  refine (whole_leads (a := ()) ?_).mono (fun _ _ h => h.2) fun _ _ h => h
  rw [if_pos h]

/-! ## The schedule -/

/-- A call is to fail with an error of the operating system. -/
def Failing (d : Disk) : Prop := ∃ k f, d.faults k = some f ∧ f.errno ≠ none

/-- The process is to be ended at a call, when so many bytes of it are done. -/
def ended : Option (Nat × Nat) → Nat → Option Fault
  | some (k, done) => fun n => if n = k then some ⟨none, done⟩ else none
  | none => fun _ => none

theorem not_failing_ended (end_ : Option (Nat × Nat)) (fs : Files) :
    ¬ Failing ⟨fs, 0, ended end_⟩ := by
  rintro ⟨k, f, hk, hf⟩
  cases end_ with
  | none => cases hk
  | some p =>
    dsimp only [ended] at hk
    split at hk
    · cases hk
      exact hf rfl
    · cases hk

/-- The error code of a call, as it was scheduled. -/
def Reported (d : Disk) (h : Halt) : Prop := Faulty d h ∧ h.isCode = true

theorem Reported.failing {d : Disk} {h : Halt} (hr : Reported d h) : Failing d := by
  obtain ⟨⟨k, f, hk, rfl⟩, hcode⟩ := hr
  refine ⟨k, f, hk, fun hnone => ?_⟩
  unfold Fault.halt at hcode
  rw [hnone] at hcode
  cases hcode

theorem Reported.ne_short {d : Disk} {h : Halt} (hr : Reported d h) :
    h ≠ .stop (.ec .short_read) := by
  obtain ⟨⟨k, f, -, rfl⟩, -⟩ := hr
  unfold Fault.halt
  cases f.errno <;> simp

theorem Reported.of_eq {d d' : Disk} {h : Halt} (hr : Reported d' h) (hd : d'.faults = d.faults) :
    Reported d h := by
  unfold Reported Faulty at *
  rwa [hd] at hr

theorem Reported.ne_code {d : Disk} {h : Halt} (hr : Reported d h) (c : Code) : h ≠ .code c := by
  obtain ⟨⟨k, f, -, rfl⟩, -⟩ := hr
  unfold Fault.halt
  cases f.errno <;> simp

/-- A call that only reads, and whose error code is looked at. -/
theorem leads_attempt_kept {x : Act α} {R : α → Prop}
    (hx : Leads x d (fun a d' => R a ∧ d'.files = d.files) (Kept d)) :
    Leads (attempt Halt.isCode x) d
      (fun y d' => d'.files = d.files ∧ Ends y R (Reported d))
      (fun _ d' => d'.files = d.files) :=
  (leads_attempt hx (fun _ _ h => ⟨h.2, h.1⟩) fun _ _ h hc => ⟨h.2, h.1, hc⟩).mono
    (fun _ _ h => h) fun _ _ h => h.1.2

theorem frames_syscall (torn : Nat → Files → Files) (call : Files → Except Halt (α × Files)) :
    Frames faults (syscall torn call) := by
  intro d
  unfold Leads syscall
  cases d.faults d.ops with
  | some fault => rfl
  | none => cases call d.files <;> rfl

theorem frames_whole (call : Files → Except Halt (α × Files)) : Frames faults (whole call) :=
  frames_syscall _ _

theorem frames_size (nm : Name) : Frames faults (size nm) := frames_whole _

theorem frames_open (nm : Name) : Frames faults (open_ nm) := frames_whole _

theorem frames_read (nm : Name) (offset n : Nat) : Frames faults (read nm offset n) := by
  unfold read
  split
  · exact frames_pure _
  · exact frames_syscall _ _

theorem frames_write (nm : Name) (offset : Nat) (data : Bytes) :
    Frames faults (write nm offset data) := by
  unfold write
  split
  · exact frames_pure _
  · exact frames_syscall _ _

/-- A first step that only reads: what follows starts from the same files and the same schedule. -/
theorem leads_reading {β : Type} {x : Act α} {k : α → Act β} {R : α → Prop} {Q : β → Disk → Prop}
    {C : Halt → Disk → Prop}
    (hx : Leads x d (fun a d' => R a ∧ d'.files = d.files) (fun _ d' => d'.files = d.files))
    (hf : Frames faults x) (hC : ∀ h d', d'.files = d.files → C h d')
    (hk : ∀ a d', R a → d'.files = d.files → d'.faults = d.faults → Leads (k a) d' Q C) :
    Leads (x >>= k) d Q C :=
  ((hx.and_frames hf).mono (fun _ _ h => h) fun h d' hd' => hC h d' hd'.1).bind
    fun a d' ha => hk a d' ha.1.1 ha.1.2 ha.2

end Disk

end Metcalfe.Nudb
