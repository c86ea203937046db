import Metcalfe.Nudb.Disk
import Metcalfe.Nudb.Log

/-!
# What an interruption leaves

`Survives` says what may be found of files whose unsynced changes are lost in part: anything at the
positions that were written since the last `sync`. A name that is created or removed is so at once.
The log file has no checksums, and a hole in it reads as a record of bucket 0 without entries:
`recover` relies on its changes reaching the medium in their order (`LogInOrder`). Both together
are `Settles`.

`Restores` says which files stand for a database that is to be recovered: its own files, with no
log that can be read, or files over which the records of a log restore it. A recovery that is
interrupted leaves files that stand for the same database (`Undoing.safe`).
-/

namespace Metcalfe.Nudb

open BigEndian Durable

/-- What may be found of files whose unsynced changes are lost in part. -/
def Survives (fs fs' : Files) : Prop :=
  ∀ nm, match fs nm with
    | none => fs' nm = none
    | some m => ∃ b, fs' nm = some (Media.clean b) ∧ m.Scattered b

/-- The changes of the log file have reached the medium in their order. -/
def LogInOrder (fs fs' : Files) : Prop :=
  ∀ m b, fs .log = some m → fs' .log = some (Media.clean b) → Cut m.synced m.pending b

structure Settles (fs fs' : Files) : Prop where
  survives : Survives fs fs'
  inOrder : LogInOrder fs fs'

section Settling

variable {fs fs' : Files} {nm : Name} {m : Media}

theorem Settles.of_some (h : Settles fs fs') (hm : fs nm = some m) :
    ∃ b, fs' nm = some (Media.clean b) ∧ m.Scattered b := by
  have := h.survives nm
  rwa [hm] at this

theorem Settles.of_log (h : Settles fs fs') (hm : fs .log = some m) :
    ∃ b, fs' .log = some (Media.clean b) ∧ Cut m.synced m.pending b := by
  obtain ⟨b, hb, -⟩ := h.of_some hm
  exact ⟨b, hb, h.inOrder m b hm hb⟩

theorem Settles.of_none (h : Settles fs fs') (hm : fs nm = none) : fs' nm = none := by
  have := h.survives nm
  rwa [hm] at this

/-- Nothing becomes of a file without pending changes. -/
theorem Settles.of_clean (h : Settles fs fs') {b : Bytes} (hm : fs nm = some (Media.clean b)) :
    fs' nm = some (Media.clean b) := by
  obtain ⟨b', hb', hscattered⟩ := h.of_some hm
  rwa [hscattered.eq_of_clean] at hb'

/-- What was written is on the medium. -/
def Files.Settled (fs : Files) : Prop := ∀ nm m, fs nm = some m → ∃ b, m = Media.clean b

/-- Nothing is lost. -/
def Files.flush (fs : Files) : Files := fun nm => (fs nm).map Media.sync

theorem settles_flush (fs : Files) : Settles fs fs.flush where
  survives := by
    intro nm
    unfold Files.flush
    cases fs nm with
    | none => rfl
    | some m => exact ⟨m.bytes, rfl, m.scattered_bytes⟩
  inOrder := by
    intro m b hm hb
    rw [Files.flush, hm, Option.map_some, Option.some.injEq] at hb
    obtain rfl : m.bytes = b := congrArg Media.synced hb
    exact cut_all _ _

/-- All that is not on the medium is lost. -/
def Files.lose (fs : Files) : Files := fun nm => (fs nm).map fun m => Media.clean m.synced

theorem settles_lose (fs : Files) : Settles fs fs.lose where
  survives := by
    intro nm
    unfold Files.lose
    cases fs nm with
    | none => rfl
    | some m => exact ⟨m.synced, rfl, m.scattered_synced⟩
  inOrder := by
    intro m b hm hb
    rw [Files.lose, hm, Option.map_some, Option.some.injEq] at hb
    obtain rfl : m.synced = b := congrArg Media.synced hb
    exact .here _ _

theorem settled_lose (fs : Files) : fs.lose.Settled := by
  intro nm m hm
  obtain ⟨m', -, rfl⟩ := Option.map_eq_some_iff.mp hm
  exact ⟨m'.synced, rfl⟩

theorem settled_flush (fs : Files) : fs.flush.Settled := by
  intro nm m hm
  obtain ⟨m', -, rfl⟩ := Option.map_eq_some_iff.mp hm
  exact ⟨m'.bytes, rfl⟩

theorem Files.Settled.flush (h : fs.Settled) : fs.flush = fs := by
  funext nm
  unfold Files.flush
  cases hm : fs nm with
  | none => rfl
  | some m =>
    obtain ⟨b, rfl⟩ := h nm m hm
    rfl

theorem Files.Settled.settles (h : fs.Settled) : Settles fs fs := by
  have := settles_flush fs
  rwa [h.flush] at this

end Settling

/-! ## Files that stand for a database -/

/-- What recovery relies on in the files of a database. -/
structure Intact (cfg : Config) (dat key : Bytes) (buckets : Nat) : Prop where
  datHeader : writeDatFileHeader cfg.datFileHeader <+: dat
  keyHeader : key.take cfg.blockSize = cfg.headerBlock
  length : key.length = (buckets + 1) * cfg.blockSize
  pos : 0 < buckets
  bounded : buckets ≤ 2 ^ 32
  size : dat.length < 2 ^ 49

theorem Table.intact {cfg : Config} {items : List Item} {key : Bytes} {buckets modulus : Nat}
    (h : Table cfg items key buckets modulus) : Intact cfg (cfg.dat items) key buckets :=
  ⟨List.prefix_append _ _, h.header, h.length, h.sized.pos, h.bounded, h.size⟩

/-- The positions of the key file that are in none of the blocks of the records. -/
def Outside (blockSize : Nat) (rs : List LogRecord) (i : Nat) : Prop :=
  ∀ r ∈ rs, ¬ InBlock blockSize r.index i

inductive Restores (cfg : Config) (dat key : Bytes) (buckets : Nat) (fs : Files) : Prop
  | settled (hdat : fs .dat = some (Media.clean dat)) (hkey : fs .key = some (Media.clean key))
      (hlog : fs .log = none ∨ ∃ l, fs .log = some (Media.clean l) ∧ l.length < logFileHeaderSize)
  | logged {datNow keyNow log : Bytes} {rs : List LogRecord} {torn : Bytes}
      (hdat : fs .dat = some (Media.clean datNow)) (hkey : fs .key = some (Media.clean keyNow))
      (hlog : fs .log = some (Media.clean log)) (hlogs : cfg.Logs dat key buckets rs torn log)
      (hpre : dat <+: datNow) (hle : key.length ≤ keyNow.length)
      (hkeeps : (Media.clean keyNow).Keeps (Outside cfg.blockSize rs) key)

/-- A rollback that is under way, or the last part of a commit before its log is cut off. -/
structure Undoing (cfg : Config) (dat key : Bytes) (buckets : Nat) (rs : List LogRecord)
    (torn log : Bytes) (fs : Files) : Prop where
  logs : cfg.Logs dat key buckets rs torn log
  log : fs .log = some (Media.clean log)
  dat : ∃ m, fs .dat = some m ∧ m.Keeps (fun _ => True) dat
  key : ∃ m, fs .key = some m ∧ m.AtLeast key.length ∧ m.Keeps (Outside cfg.blockSize rs) key

/-- What is found after an interruption stands for the database. -/
def Safe (cfg : Config) (dat key : Bytes) (buckets : Nat) (fs : Files) : Prop :=
  ∀ fs', Settles fs fs' → Restores cfg dat key buckets fs'

/-- The files stand for a database with these records. -/
def Stands (cfg : Config) (recs : List (Bytes × Bytes)) (fs : Files) : Prop :=
  ∃ items key buckets modulus, Table cfg items key buckets modulus ∧ records items = recs ∧
    Restores cfg (cfg.dat items) key buckets fs

section Surviving

variable {cfg : Config} {dat key log torn : Bytes} {buckets : Nat} {rs : List LogRecord}
  {fs fs' : Files}

theorem Undoing.safe (h : Undoing cfg dat key buckets rs torn log fs) :
    Safe cfg dat key buckets fs := by
  intro fs' hs
  obtain ⟨m, hm, hdat⟩ := h.dat
  obtain ⟨datNow, hdatNow, hscattered⟩ := hs.of_some hm
  obtain ⟨m', hm', hlength, hkey⟩ := h.key
  obtain ⟨keyNow, hkeyNow, hscattered'⟩ := hs.of_some hm'
  have hpre := (hdat.scattered hscattered).isPrefix fun _ _ => trivial
  exact .logged hdatNow hkeyNow (hs.of_clean h.log) h.logs hpre (hscattered'.le _ hlength)
    (hkey.scattered hscattered')

theorem Restores.undoing {datNow keyNow : Bytes} (hdat : fs .dat = some (Media.clean datNow))
    (hkey : fs .key = some (Media.clean keyNow)) (hlog : fs .log = some (Media.clean log))
    (hlogs : cfg.Logs dat key buckets rs torn log) (hpre : dat <+: datNow)
    (hle : key.length ≤ keyNow.length)
    (hkeeps : (Media.clean keyNow).Keeps (Outside cfg.blockSize rs) key) :
    Undoing cfg dat key buckets rs torn log fs :=
  ⟨hlogs, hlog, ⟨_, hdat, Media.keeps_of_isPrefix hpre⟩,
    ⟨_, hkey, ⟨hle, by simp [Media.clean]⟩, hkeeps⟩⟩

theorem Undoing.put_dat {m : Media} (h : Undoing cfg dat key buckets rs torn log fs)
    (hm : m.Keeps (fun _ => True) dat) :
    Undoing cfg dat key buckets rs torn log (fs.put .dat m) := by
  refine ⟨h.logs, ?_, ⟨m, Function.update_self _ _ _, hm⟩, ?_⟩
  · rw [Files.put, Function.update_of_ne (by simp)]
    exact h.log
  · rw [Files.put, Function.update_of_ne (by simp)]
    exact h.key

theorem Undoing.put_key {m : Media} (h : Undoing cfg dat key buckets rs torn log fs)
    (hlen : m.AtLeast key.length) (hm : m.Keeps (Outside cfg.blockSize rs) key) :
    Undoing cfg dat key buckets rs torn log (fs.put .key m) := by
  refine ⟨h.logs, ?_, ?_, ⟨m, Function.update_self _ _ _, hlen, hm⟩⟩
  · rw [Files.put, Function.update_of_ne (by simp)]
    exact h.log
  · rw [Files.put, Function.update_of_ne (by simp)]
    exact h.dat

theorem Undoing.bytes_log (h : Undoing cfg dat key buckets rs torn log fs) :
    fs.bytes .log = log := by
  rw [Files.bytes_of_eq_some h.log]
  rfl

theorem Undoing.le_bytes (h : Undoing cfg dat key buckets rs torn log fs) :
    key.length ≤ (fs.bytes .key).length := by
  obtain ⟨m, hm, hlength, -⟩ := h.key
  rw [Files.bytes_of_eq_some hm]
  exact hlength.le_bytes

/-- A write to one block leaves the positions outside of it alone. -/
theorem spares_write {blockSize n i : Nat} {data : Bytes} (hlen : data.length ≤ blockSize)
    (hi : ¬ InBlock blockSize n i) : (Change.write ((n + 1) * blockSize) data).Spares i := by
  unfold InBlock at hi
  show i < (n + 1) * blockSize ∨ (n + 1) * blockSize + data.length ≤ i
  have hmul : (n + 2) * blockSize = (n + 1) * blockSize + blockSize := by ring
  omega

/-- Whatever is written to a block that has a record, the record is still there. -/
theorem Undoing.write (h : Undoing cfg dat key buckets rs torn log fs)
    {r₀ : LogRecord} (hr₀ : r₀ ∈ rs) {data : Bytes} (hlen : data.length ≤ cfg.blockSize) :
    Undoing cfg dat key buckets rs torn log
      (fs.put .key ((fs.media .key).change (.write ((r₀.index + 1) * cfg.blockSize) data))) := by
  obtain ⟨m, hm, hlength, hkeeps⟩ := h.key
  obtain ⟨m', hm', hkeeps'⟩ := h.dat
  rw [Files.media_of_eq_some hm]
  refine ⟨h.logs, ?_, ⟨m', ?_, hkeeps'⟩, ⟨_, Function.update_self _ _ _, hlength.change trivial,
    hkeeps.change fun i _ hi => spares_write hlen (hi r₀ hr₀)⟩⟩
  · rw [Files.put, Function.update_of_ne (by simp)]
    exact h.log
  · rw [Files.put, Function.update_of_ne (by simp)]
    exact hm'

theorem Restores.safe (h : Restores cfg dat key buckets fs) : Safe cfg dat key buckets fs := by
  cases h with
  | settled hdat hkey hlog =>
    intro fs' hs
    refine .settled (hs.of_clean hdat) (hs.of_clean hkey) ?_
    rcases hlog with hlog | ⟨l, hlog, hlt⟩
    · exact .inl (hs.of_none hlog)
    · exact .inr ⟨l, hs.of_clean hlog, hlt⟩
  | logged hdat hkey hlog hlogs hpre hle hkeeps =>
    exact (Restores.undoing hdat hkey hlog hlogs hpre hle hkeeps).safe

/-- The beginning of a commit: the header is being written to the log. -/
theorem restores_of_header (hdat : fs .dat = some (Media.clean dat))
    (hkey : fs .key = some (Media.clean key)) {fs₀ : Files}
    (hlog : Growing .log fs₀ [] (writeLogFileHeader (cfg.logFileHeader key.length dat.length)) fs)
    (hs : Settles fs fs') : Restores cfg dat key buckets fs' := by
  obtain ⟨m, rfl, hsynced, happends, hm⟩ := hlog
  obtain ⟨l, hl, hcut⟩ := hs.of_log (show (fs₀.put .log m) .log = some m by simp [Files.put])
  rw [hsynced] at hcut
  have hle : l <+: writeLogFileHeader (cfg.logFileHeader key.length dat.length) := by
    refine (happends.cut hcut).2.trans ?_
    rwa [Media.bytes, hsynced] at hm
  by_cases hlt : l.length < logFileHeaderSize
  · exact .settled (hs.of_clean hdat) (hs.of_clean hkey) (.inr ⟨l, hl, hlt⟩)
  · have heq : l = writeLogFileHeader (cfg.logFileHeader key.length dat.length) := by
      apply hle.eq_of_length_le
      rw [length_writeLogFileHeader]
      exact not_lt.mp hlt
    have hlogs : cfg.Logs dat key buckets [] [] l := ⟨by rw [heq]; simp, by simp, .inl rfl⟩
    exact .logged (hs.of_clean hdat) (hs.of_clean hkey) hl hlogs List.prefix_rfl le_rfl
      Media.keeps_clean

/-- The middle of a commit: the data file grows, and then the records are written to the log. -/
theorem restores_of_records {m : Media} (hdat : fs .dat = some m)
    (hkeeps : m.Keeps (fun _ => True) dat) (hkey : fs .key = some (Media.clean key)) {fs₀ : Files}
    (hrs : ∀ r ∈ rs, r.Of cfg dat key buckets)
    (hlog : Growing .log fs₀ (writeLogFileHeader (cfg.logFileHeader key.length dat.length))
      (writeLogFileHeader (cfg.logFileHeader key.length dat.length) ++
        rs.flatMap LogRecord.bytes) fs)
    (hs : Settles fs fs') : Restores cfg dat key buckets fs' := by
  obtain ⟨m', rfl, hsynced, happends, hm'⟩ := hlog
  obtain ⟨l, hl, hcut⟩ := hs.of_log (show (fs₀.put .log m') .log = some m' by simp [Files.put])
  rw [hsynced] at hcut
  obtain ⟨hge, hle⟩ := happends.cut hcut
  rw [Media.bytes, hsynced] at hm'
  obtain ⟨rs', torn, hlogs⟩ := exists_logs_of_isPrefix hrs hge (hle.trans hm')
  obtain ⟨datNow, hdatNow, hscattered⟩ := hs.of_some hdat
  exact .logged hdatNow (hs.of_clean hkey) hl hlogs
    ((hkeeps.scattered hscattered).isPrefix fun _ _ => trivial) le_rfl Media.keeps_clean

/-- The end of a commit: the log is cut off, or not. -/
theorem restores_of_trunc {dat' key' : Bytes} {buckets' : Nat}
    (hlogs : cfg.Logs dat key buckets rs torn log) (hdat : fs .dat = some (Media.clean dat'))
    (hkey : fs .key = some (Media.clean key')) (hpre : dat <+: dat')
    (hle : key.length ≤ key'.length)
    (hkeeps : (Media.clean key').Keeps (Outside cfg.blockSize rs) key)
    (hlog : fs .log = some ((Media.clean log).change (.trunc 0))) (hs : Settles fs fs') :
    Restores cfg dat key buckets fs' ∨ Restores cfg dat' key' buckets' fs' := by
  obtain ⟨l, hl, hcut⟩ := hs.of_log hlog
  change Cut log [.trunc 0] l at hcut
  cases hcut with
  | here => exact .inl (.logged (hs.of_clean hdat) (hs.of_clean hkey) hl hlogs hpre hle hkeeps)
  | next hcut =>
    have hnil : l = [] := by
      rw [cut_nil hcut]
      simp [Change.apply]
    subst hnil
    refine .inr (.settled (hs.of_clean hdat) (hs.of_clean hkey) (.inr ⟨[], hl, ?_⟩))
    unfold logFileHeaderSize
    simp

end Surviving

end Metcalfe.Nudb
