import Metcalfe.Nudb.Crash
import Metcalfe.Nudb.DiskBucket
import Metcalfe.Nudb.Headers

/-!
# Recovery

`recover` of `recover.ipp`: when there is a log, its records are written back to the key file, both
files are cut to the sizes that the log has, and the log is emptied and removed.

From files that stand for a database (`Restores`), a recovery that returns leaves exactly that
database and no log, and one that stops, at whichever call, leaves files that stand for it
(`recover_leads`). There is one exception. When a log record cannot be read for an error of the
operating system, `recover` only looks at the error after it has written the record: it writes a
bucket that it has not read, and if the record is an incomplete one, no other recovery will undo
that. The second part therefore assumes that the log has no incomplete record, or that no error of
the operating system occurs.
-/

namespace Metcalfe.Nudb

open BigEndian Durable Stateful Outcome

namespace Disk

/-- `erase_file`: a file that is not there is no error. -/
def eraseFile (nm : Name) : Act Unit := do
  match ← attempt Halt.isCode (erase nm) with
  | .ok () => pure ()
  | .error h => if h = .code .no_such_file_or_directory then pure () else throw h

/-- One round of the loop over the log records; nothing is returned when the log is incomplete. -/
def recoverRecord (kh : KeyFileHeader) (dataFileSize : Nat) (b : Bucket) (r : BulkReader) :
    Act (Option (Bucket × BulkReader)) := do
  match ← attempt Halt.isCode (r.take .log 8) with
  | .error h => if h = .stop (.ec .short_read) then pure none else throw h
  | .ok (is, r) =>
    let (v, _) := readField 8 is
    if v > 2 ^ 32 - 1 then throw (.stop .assertion)
    let (b, r, ec) ← readFrom .log b r
    if ec = some (.stop (.ec .short_read)) then return none
    if b.spill ≠ 0 ∧ b.spill + bucketSize kh.capacity > dataFileSize then
      throw (.code .invalid_log_spill)
    if v > kh.buckets then throw (.code .invalid_log_index)
    write .key ((v + 1) * kh.blockSize) b.blockBytes
    match ec with
    | some h => throw h
    | none => pure (some ({ b with p := b.blockBytes }, r))

def recoverLoop (kh : KeyFileHeader) (dataFileSize : Nat) : Nat → Bucket → BulkReader → Act Unit
  | 0, _, _ => throw (.stop .unfinished)
  | fuel + 1, b, r => do
    if r.eof then return ()
    match ← recoverRecord kh dataFileSize b r with
    | none => pure ()
    | some (b, r) => recoverLoop kh dataFileSize fuel b r

/-- Writes the records of the log back. The buffer for a bucket is `scratch` at first. -/
def rollBack (hasher : Hasher) (dh : DatFileHeader) (lh : LogFileHeader)
    (dataFileSize logFileSize : Nat) (scratch : Bytes) : Act Unit := do
  let kh ← readKeyHeader
  lift .stop (verifyKey hasher kh)
  lift .stop (verify hasher dh kh)
  lift id (verifyKeyLog hasher kh lh)
  let readSize := 1024 * kh.blockSize
  recoverLoop kh dataFileSize (logFileSize + 1) (Bucket.ofBlob kh.blockSize scratch)
    ⟨logFileSize, logFileHeaderSize, [], readSize⟩

def truncFiles (lh : LogFileHeader) : Act Unit := do
  trunc .dat lh.datFileSize
  sync .dat
  if lh.keyFileSize ≠ 0 then
    trunc .key lh.keyFileSize
    sync .key
  else
    erase .key

def clearLog : Act Unit := do
  trunc .log 0
  sync .log
  erase .log

/-- From the opening of the log file on. -/
def recoverLog (hasher : Hasher) (dh : DatFileHeader) (dataFileSize : Nat) (scratch : Bytes) :
    Act Unit := do
  match ← attempt Halt.isCode (open_ .log) with
  | .error h => if h = .code .no_such_file_or_directory then pure () else throw h
  | .ok () =>
    let logFileSize ← size .log
    match ← attempt Halt.isCode (read .log 0 logFileHeaderSize) with
    | .error h => if h = .stop (.ec .short_read) then clearLog else throw h
    | .ok buf =>
      let lh := readLogFileHeader buf
      lift id (verifyLog hasher lh)
      if lh.keyFileSize ≠ 0 then rollBack hasher dh lh dataFileSize logFileSize scratch
      truncFiles lh
      clearLog

def recover (hasher : Hasher) (scratch : Bytes) : Act Unit := do
  open_ .dat
  let dataFileSize ← size .dat
  let dh ← readDatHeader
  lift .stop (verifyDat dh)
  open_ .key
  let keyFileSize ← size .key
  if keyFileSize ≤ keyFileHeaderSize then
    eraseFile .log
    erase .key
    throw (.code .no_key_file)
  recoverLog hasher dh dataFileSize scratch

end Disk

/-! ## The records -/

section Records

variable {cfg : Config} {dat key log torn : Bytes} {buckets : Nat} {rs todo : List LogRecord}
  {d : Disk} {r : BulkReader} {s : Bytes} {b : Bucket} {n : Nat} {kh : KeyFileHeader}
  {dataFileSize : Nat}

/-- The blocks that have no record in `todo` are as they were. -/
def Restored (blockSize : Nat) (key : Bytes) (todo : List LogRecord) (fs : Files) : Prop :=
  ∀ i < key.length, Outside blockSize todo i → (fs.bytes .key)[i]? = key[i]?

theorem Restored.write {fs : Files} {r₀ : LogRecord} {data : Bytes}
    (h : Restored cfg.blockSize key (r₀ :: todo) fs)
    (hlen : key.length ≤ (fs.bytes .key).length) (hof : r₀.Of cfg dat key buckets)
    (hle : (r₀.index + 2) * cfg.blockSize ≤ key.length)
    (hdata : data = blob cfg.blockSize r₀.es r₀.spill) :
    Restored cfg.blockSize key todo
      (fs.put .key ((fs.media .key).change (.write ((r₀.index + 1) * cfg.blockSize) data))) := by
  intro i hi hout
  have hblock := hof.block
  rw [← hdata] at hblock
  have hmul : (r₀.index + 2) * cfg.blockSize = (r₀.index + 1) * cfg.blockSize + cfg.blockSize := by
    ring
  have hdatalen : data.length = cfg.blockSize := by
    rw [← hblock, length_slice]
    omega
  rw [Files.bytes, Files.media_put, Media.bytes_change]
  show (splice (fs.bytes .key) ((r₀.index + 1) * cfg.blockSize) data)[i]? = _
  by_cases hin : InBlock cfg.blockSize r₀.index i
  · unfold InBlock at hin
    have hget := congrArg (fun l => l[i - (r₀.index + 1) * cfg.blockSize]?) hblock
    rw [slice, List.getElem?_take_of_lt (by omega), List.getElem?_drop] at hget
    rw [show (r₀.index + 1) * cfg.blockSize + (i - (r₀.index + 1) * cfg.blockSize) = i by omega]
      at hget
    rw [hget]
    exact getElem?_splice_of_mem (by omega) hin.1 (by omega)
  · rw [Change.getElem?_splice (by omega)
      (show i < (r₀.index + 1) * cfg.blockSize ∨ _ from spares_write hdatalen.le hin)]
    apply h i hi
    intro r hr
    rcases List.mem_cons.mp hr with rfl | hr
    · exact hin
    · exact hout r hr

theorem LogRecord.Of.length_lt {r₀ : LogRecord} (hof : r₀.Of cfg dat key buckets) :
    r₀.es.length < 256 ^ 2 := by
  have := bucketSize_le_of_le cfg.capacity_pos hof.length_le
  have := cfg.blockSize_lt
  unfold bucketSize entrySize at *
  omega

/-- The checks of a record's bucket pass. -/
theorem LogRecord.Of.accepted {r₀ : LogRecord} (hof : r₀.Of cfg dat key buckets) (hn : buckets ≤ n)
    (hsize : dat.length ≤ dataFileSize) :
    ¬ (r₀.spill ≠ 0 ∧ r₀.spill + bucketSize (cfg.keyFileHeader n).capacity > dataFileSize) ∧
      ¬ r₀.index > (cfg.keyFileHeader n).buckets := by
  constructor
  · rintro ⟨hne, hgt⟩
    have hin := hof.inside hne
    have hgt' : r₀.spill + bucketSize cfg.capacity > dataFileSize := hgt
    omega
  · have hindex := hof.index_lt
    show ¬ r₀.index > n
    omega

/-- A bucket is written to the place of a record, whatever is in it. -/
theorem writeBack_leads (hundo : Undoing cfg dat key buckets rs torn log d.files)
    {r₀ : LogRecord} (hr₀ : r₀ ∈ rs) (hb : b.blockSize = cfg.blockSize) :
    Leads (Disk.write .key ((r₀.index + 1) * cfg.blockSize) b.blockBytes) d
      (fun _ d' => Undoing cfg dat key buckets rs torn log d'.files ∧
        d'.files = d.files.put .key ((d.files.media .key).change
          (.write ((r₀.index + 1) * cfg.blockSize) b.blockBytes)))
      (fun _ d' => Undoing cfg dat key buckets rs torn log d'.files) := by
  have hlen : b.blockBytes.length ≤ cfg.blockSize := by
    rw [← hb]
    exact b.length_blockBytes_le
  have hne : b.blockBytes ≠ [] := Bucket.blockBytes_ne_nil (by rw [hb]; exact cfg.blockSize_pos)
  refine (Disk.write_leads d .key _ hne).mono (fun _ d' h => ?_) fun _ d' h => ?_
  · rw [h]
    exact ⟨hundo.write hr₀ hlen, rfl⟩
  · obtain ⟨-, k, hk⟩ := h
    rw [hk]
    exact hundo.write hr₀ ((List.length_take_le' _ _).trans hlen)

/-- A record is written back. -/
theorem recoverRecord_leads (hundo : Undoing cfg dat key buckets rs torn log d.files)
    {r₀ : LogRecord} (hrest : Restored cfg.blockSize key (r₀ :: todo) d.files) (hr₀ : r₀ ∈ rs)
    (hkey : key.length = (buckets + 1) * cfg.blockSize) (hbounded : buckets ≤ 2 ^ 32)
    (hb : b.blockSize = cfg.blockSize) (hn : buckets ≤ n) (hsize : dat.length ≤ dataFileSize)
    (hr : r.Ahead log (r₀.bytes ++ s)) :
    Leads (Disk.recoverRecord (cfg.keyFileHeader n) dataFileSize b r) d
      (fun x d' => ∃ b' r', x = some (b', r') ∧ b'.blockSize = cfg.blockSize ∧ r'.Ahead log s ∧
        Undoing cfg dat key buckets rs torn log d'.files ∧
        Restored cfg.blockSize key todo d'.files)
      (fun _ d' => Undoing cfg dat key buckets rs torn log d'.files) := by
  have hof := hundo.logs.records r₀ hr₀
  have hindex := hof.index_lt
  rw [← hundo.bytes_log, LogRecord.bytes, List.append_assoc] at hr
  have htake := Disk.attempt_take_leads hr
  rw [length_toBytes] at htake
  unfold Disk.recoverRecord
  refine (htake.mono (fun _ _ h => h) fun _ _ h => by rwa [h]).bind fun x d₁ hx => ?_
  obtain ⟨hfiles, hfaults, hx⟩ := hx
  cases x with
  | error e =>
    dsimp only
    rw [if_neg (Disk.Reported.ne_short hx)]
    exact leads_throw (by rwa [hfiles])
  | ok x =>
    obtain ⟨is, r'⟩ := x
    obtain ⟨rfl, hr'⟩ := hx
    have hfield := readField_append (show r₀.index < 256 ^ 8 by omega) []
    rw [List.append_nil] at hfield
    dsimp only
    rw [hfield, if_neg (show ¬ r₀.index > 2 ^ 32 - 1 by omega)]
    rw [← hfiles] at hr'
    refine ((Disk.readFrom_leads (b := b) hr' hof.length_lt hof.spill_lt).mono (fun _ _ h => h)
      fun _ _ h => by rwa [h, hfiles]).bind fun y d₂ hy => ?_
    obtain ⟨b', r'', ec⟩ := y
    obtain ⟨hfiles', hblock, hy⟩ := hy
    rw [hb] at hblock hy
    have hsame : d₂.files = d.files := hfiles'.trans hfiles
    have hundo' : Undoing cfg dat key buckets rs torn log d₂.files := by rwa [hsame]
    have hwrite := writeBack_leads (d := d₂) hundo' hr₀ hblock
    obtain ⟨hinside, hindexLe⟩ := hof.accepted hn hsize
    cases ec with
    | none =>
      obtain ⟨hshow, hahead⟩ := hy
      dsimp only at hshow hahead ⊢
      rw [if_neg (by simp), hshow.points, if_neg hinside, if_neg hindexLe]
      refine hwrite.bind fun _ d₃ hd₃ => leads_pure ⟨_, r'', rfl, hblock, ?_, hd₃.1, ?_⟩
      · rwa [← hundo.bytes_log, ← hfiles]
      · have hle : (r₀.index + 2) * cfg.blockSize ≤ key.length := by
          rw [hkey]
          exact Nat.mul_le_mul_right _ (by omega)
        rw [← hsame] at hrest
        rw [hd₃.2]
        exact hrest.write hundo'.le_bytes hof hle
          (hshow.blockBytes (bucketSize_le_of_le cfg.capacity_pos hof.length_le))
    | some e =>
      -- The bucket was not read, and is written all the same.
      dsimp only at hy ⊢
      have hne' : ¬ some e = some (Halt.stop (.ec .short_read)) := by
        rw [Option.some.injEq]
        exact hy.ne_short
      rw [if_neg hne']
      by_cases hspill : b'.spill ≠ 0 ∧
          b'.spill + bucketSize (cfg.keyFileHeader n).capacity > dataFileSize
      · rw [if_pos hspill]
        exact leads_throw hundo'
      · rw [if_neg hspill, if_neg hindexLe]
        exact hwrite.bind fun _ d₃ hd₃ => leads_throw hd₃.1

/-- A record that is not complete ends the loop. -/
theorem recoverRecord_torn {r₀ : LogRecord} (hof : r₀.Of cfg dat key buckets)
    (hlog : d.files.bytes .log = log) (hbounded : buckets ≤ 2 ^ 32) (hr : r.Ahead log s)
    (hs : s <+: r₀.bytes) (hshort : s.length < r₀.bytes.length) (hfail : ¬ d.Failing) :
    Leads (Disk.recoverRecord kh dataFileSize b r) d (fun x d' => x = none ∧ d'.files = d.files)
      (fun _ d' => d'.files = d.files) := by
  have hindex := hof.index_lt
  have hlen : r₀.es.length < 256 ^ 2 := by
    have := bucketSize_le_of_le cfg.capacity_pos hof.length_le
    have := cfg.blockSize_lt
    unfold bucketSize entrySize at *
    omega
  rw [← hlog] at hr
  unfold Disk.recoverRecord
  by_cases hlt : s.length < 8
  · refine leads_bind_of_eq_ok (Disk.attempt_take_short hr hlt) ?_
    exact leads_pure ⟨rfl, rfl⟩
  · have hpre : toBytes 8 r₀.index <+: s := by
      apply List.prefix_of_prefix_length_le (List.prefix_append _ (encode r₀.es r₀.spill)) hs
      rw [length_toBytes]
      omega
    obtain ⟨t, rfl⟩ := hpre
    rw [LogRecord.bytes, List.prefix_append_right_inj] at hs
    rw [LogRecord.bytes, List.length_append, List.length_append] at hshort
    have htake := Disk.attempt_take_leads hr
    rw [length_toBytes] at htake
    refine htake.bind fun x d₁ hx => ?_
    obtain ⟨hfiles, hfaults, hx⟩ := hx
    cases x with
    | error e => exact absurd (Disk.Reported.failing hx) hfail
    | ok x =>
      obtain ⟨is, r'⟩ := x
      obtain ⟨rfl, hr'⟩ := hx
      have hfield := readField_append (show r₀.index < 256 ^ 8 by omega) []
      rw [List.append_nil] at hfield
      dsimp only
      rw [hfield]
      rw [if_neg (show ¬ r₀.index > 2 ^ 32 - 1 by omega)]
      rw [← hfiles] at hr'
      refine ((Disk.readFrom_torn (b := b) hr' hs (by omega) hlen hof.spill_lt).mono
        (fun _ _ h => h) fun _ _ h => h.trans hfiles).bind fun y d₂ hy => ?_
      obtain ⟨b', r'', ec⟩ := y
      obtain ⟨hfiles', hy⟩ := hy
      rcases hy with hec | hfailing
      · dsimp only at hec ⊢
        rw [if_pos hec]
        exact leads_pure ⟨rfl, hfiles'.trans hfiles⟩
      · unfold Disk.Failing at hfail hfailing
        rw [hfaults] at hfailing
        exact absurd hfailing hfail

theorem frames_recoverRecord : Frames Disk.faults (Disk.recoverRecord kh dataFileSize b r) := by
  refine (BulkReader.frames_take .log r 8).attempt.bind fun x => ?_
  cases x with
  | error h =>
    dsimp only
    split
    · exact frames_pure _
    · exact frames_throw _
  | ok x =>
    dsimp only
    split
    · exact frames_throw _
    refine (Disk.frames_readFrom .log b _).bind fun y => ?_
    obtain ⟨b', r', ec⟩ := y
    dsimp only
    split
    · exact frames_pure _
    split
    · exact frames_throw _
    split
    · exact frames_throw _
    refine (Disk.frames_write _ _ _).bind fun _ => ?_
    cases ec with
    | none => exact frames_pure _
    | some e => exact frames_throw _

/-- All records are written back, and an incomplete one is left out. -/
theorem recoverLoop_leads (hundo : Undoing cfg dat key buckets rs torn log d.files)
    (hrest : Restored cfg.blockSize key todo d.files) (htodo : todo <:+ rs)
    (hkey : key.length = (buckets + 1) * cfg.blockSize) (hbounded : buckets ≤ 2 ^ 32)
    (hb : b.blockSize = cfg.blockSize) (hn : buckets ≤ n) (hsize : dat.length ≤ dataFileSize)
    (hr : r.Ahead log (todo.flatMap LogRecord.bytes ++ torn)) (hfail : torn = [] ∨ ¬ d.Failing)
    {fuel : Nat} (hfuel : todo.length < fuel) :
    Leads (Disk.recoverLoop (cfg.keyFileHeader n) dataFileSize fuel b r) d
      (fun _ d' => Undoing cfg dat key buckets rs torn log d'.files ∧
        Restored cfg.blockSize key [] d'.files)
      (fun _ d' => Undoing cfg dat key buckets rs torn log d'.files) := by
  induction todo generalizing d b r fuel with
  | nil =>
    obtain ⟨fuel, rfl⟩ := Nat.exists_eq_succ_of_ne_zero (show fuel ≠ 0 by omega)
    rw [List.flatMap_nil, List.nil_append] at hr
    unfold Disk.recoverLoop
    by_cases hnil : torn = []
    · rw [if_pos (hr.eof_iff.mpr hnil)]
      exact leads_pure ⟨hundo, hrest⟩
    · rw [if_neg fun h => hnil (hr.eof_iff.mp h)]
      rcases hundo.logs.torn with h | ⟨r₀, hof, hle, hlt⟩
      · exact absurd h hnil
      refine ((recoverRecord_torn hof hundo.bytes_log hbounded hr hle hlt
        (hfail.resolve_left hnil)).mono (fun _ _ h => h) fun _ _ h => by rwa [h]).bind
        fun x d' hx => ?_
      obtain ⟨rfl, hfiles⟩ := hx
      dsimp only
      exact leads_pure (by rw [hfiles]; exact ⟨hundo, hrest⟩)
  | cons r₀ todo ih =>
    obtain ⟨fuel, rfl⟩ := Nat.exists_eq_succ_of_ne_zero (show fuel ≠ 0 by omega)
    rw [List.flatMap_cons, List.append_assoc] at hr
    have hnil : r₀.bytes ++ (todo.flatMap LogRecord.bytes ++ torn) ≠ [] := by
      intro h
      have hlen := congrArg List.length h
      rw [List.length_append, r₀.length_bytes, List.length_nil] at hlen
      omega
    have hmem : r₀ ∈ rs := htodo.subset List.mem_cons_self
    unfold Disk.recoverLoop
    rw [if_neg fun h => hnil (hr.eof_iff.mp h)]
    refine (((recoverRecord_leads hundo hrest hmem hkey hbounded hb hn hsize hr).and_frames
      frames_recoverRecord).mono (fun _ _ h => h) fun _ _ h => h.1).bind fun x d' hx => ?_
    obtain ⟨⟨b', r', rfl, hb', hr', hundo', hrest'⟩, hfaults⟩ := hx
    dsimp only
    apply ih hundo' hrest' ((List.suffix_cons _ _).trans htodo) hb' hr'
    · unfold Disk.Failing at *
      rwa [hfaults]
    · rw [List.length_cons] at hfuel
      omega

end Records

/-! ## The whole of a recovery -/

/-- The database, and no log. -/
structure Recovered (dat key : Bytes) (fs : Files) : Prop where
  dat : fs .dat = some (Media.clean dat)
  key : fs .key = some (Media.clean key)
  log : fs .log = none

section Whole

variable {cfg : Config} {dat key log torn : Bytes} {buckets : Nat} {rs : List LogRecord}
  {d : Disk} {fs : Files}

/-- Both files are cut to their old sizes, and are the old files. -/
theorem truncFiles_leads (hundo : Undoing cfg dat key buckets rs torn log d.files)
    (hrest : Restored cfg.blockSize key [] d.files) (hkey : key ≠ []) :
    Leads (Disk.truncFiles (cfg.logFileHeader key.length dat.length)) d
      (fun _ d' => Undoing cfg dat key buckets rs torn log d'.files ∧
        d'.files .dat = some (Media.clean dat) ∧ d'.files .key = some (Media.clean key))
      (fun _ d' => Safe cfg dat key buckets d'.files) := by
  obtain ⟨m, hm, hkeeps⟩ := hundo.dat
  obtain ⟨m', hm', hlen, hkeeps'⟩ := hundo.key
  have hdatBytes : (m.change (.trunc dat.length)).bytes = dat := by
    rw [Media.bytes_change]
    exact apply_trunc (hkeeps.isPrefix fun _ _ => trivial)
  have hkeyBytes : (m'.change (.trunc key.length)).bytes = key := by
    rw [Media.bytes_change]
    apply apply_trunc
    rw [List.prefix_iff_getElem?]
    intro i hi
    have hget := hrest i hi (by simp [Outside])
    rw [Files.bytes_of_eq_some hm', List.getElem?_eq_getElem hi] at hget
    exact hget
  have hdatCut := hkeeps.change (c := .trunc dat.length) fun i hi _ => hi
  have hkeyCut := hkeeps'.change (c := .trunc key.length) fun i hi _ => hi
  unfold Disk.truncFiles
  refine ((Disk.trunc_leads d .dat dat.length).mono (fun _ _ h => h) fun _ d' h => ?_).bind
    fun _ d₁ h₁ => ?_
  · rw [h.2]
    exact hundo.safe
  rw [Files.media_of_eq_some hm] at h₁
  have hundo₁ := hundo.put_dat hdatCut
  refine ((Disk.sync_leads d₁ .dat).mono (fun _ _ h => h) fun _ d' h => ?_).bind fun _ d₂ h₂ => ?_
  · rw [h.2, h₁]
    exact hundo₁.safe
  rw [h₁, Files.media_put, Files.put_put, Media.sync, hdatBytes] at h₂
  have hundo₂ := hundo.put_dat (m := Media.clean dat) Media.keeps_clean
  rw [← h₂] at hundo₂
  have hdat₂ : d₂.files .dat = some (Media.clean dat) := by
    rw [h₂]
    exact Function.update_self _ _ _
  have hkey₂ : d₂.files .key = some m' := by
    rw [h₂, Files.put, Function.update_of_ne (by simp)]
    exact hm'
  have hpos : (cfg.logFileHeader key.length dat.length).keyFileSize ≠ 0 :=
    fun h => hkey (List.eq_nil_of_length_eq_zero h)
  rw [if_pos hpos]
  refine ((Disk.trunc_leads d₂ .key key.length).mono (fun _ _ h => h) fun _ d' h => ?_).bind
    fun _ d₃ h₃ => ?_
  · rw [h.2]
    exact hundo₂.safe
  rw [Files.media_of_eq_some hkey₂] at h₃
  have hundo₃ := hundo₂.put_key (hlen.change (c := .trunc key.length) le_rfl) hkeyCut
  refine (Disk.sync_leads d₃ .key).mono (fun _ d₄ h₄ => ?_) fun _ d' h => ?_
  · rw [h₃, Files.media_put, Files.put_put, Media.sync, hkeyBytes] at h₄
    have hundo₄ := hundo₂.put_key Media.atLeast_clean Media.keeps_clean
    rw [← h₄] at hundo₄
    refine ⟨hundo₄, ?_, ?_⟩
    · rw [h₄, Files.put, Function.update_of_ne (by simp)]
      exact hdat₂
    · rw [h₄]
      exact Function.update_self _ _ _
  · rw [h.2, h₃]
    exact hundo₃.safe

/-- The log is emptied and removed, when without it the files are those of the database. -/
theorem clearLog_leads (hdat : d.files .dat = some (Media.clean dat))
    (hkey : d.files .key = some (Media.clean key)) (hlog : d.files .log = some (Media.clean log))
    (hold : ∀ fs : Files, fs .dat = some (Media.clean dat) → fs .key = some (Media.clean key) →
      fs .log = some (Media.clean log) → Restores cfg dat key buckets fs) :
    Leads Disk.clearLog d (fun _ d' => Recovered dat key d'.files)
      (fun _ d' => Safe cfg dat key buckets d'.files) := by
  have hempty : ([] : Bytes).length < logFileHeaderSize := by
    unfold logFileHeaderSize
    simp
  have hput : ∀ m : Media, (d.files.put .log m) .dat = some (Media.clean dat) ∧
      (d.files.put .log m) .key = some (Media.clean key) ∧ (d.files.put .log m) .log = some m := by
    intro m
    refine ⟨?_, ?_, Function.update_self _ _ _⟩
    · rw [Files.put, Function.update_of_ne (by simp)]
      exact hdat
    · rw [Files.put, Function.update_of_ne (by simp)]
      exact hkey
  unfold Disk.clearLog
  refine ((Disk.trunc_leads d .log 0).mono (fun _ _ h => h) fun _ d' h => ?_).bind
    fun _ d₁ h₁ => ?_
  · intro fs' hs
    rw [h.2] at hs
    exact hold fs' (hs.of_clean hdat) (hs.of_clean hkey) (hs.of_clean hlog)
  rw [Files.media_of_eq_some hlog] at h₁
  obtain ⟨hdat₁, hkey₁, hlog₁⟩ := hput ((Media.clean log).change (.trunc 0))
  rw [← h₁] at hdat₁ hkey₁ hlog₁
  refine ((Disk.sync_leads d₁ .log).mono (fun _ _ h => h) fun _ d' h => ?_).bind fun _ d₂ h₂ => ?_
  · intro fs' hs
    rw [h.2] at hs
    obtain ⟨l, hl, hcut⟩ := hs.of_log hlog₁
    change Cut log [.trunc 0] l at hcut
    cases hcut with
    | here => exact hold fs' (hs.of_clean hdat₁) (hs.of_clean hkey₁) hl
    | next hcut =>
      have hnil : l = [] := by
        rw [cut_nil hcut]
        simp [Change.apply]
      subst hnil
      exact .settled (hs.of_clean hdat₁) (hs.of_clean hkey₁) (.inr ⟨[], hl, hempty⟩)
  have hsync : ((Media.clean log).change (.trunc 0)).sync = Media.clean [] := by
    rw [Media.sync, Media.bytes_change]
    simp [Change.apply]
  rw [h₁, Files.media_put, Files.put_put, hsync] at h₂
  obtain ⟨hdat₂, hkey₂, hlog₂⟩ := hput (Media.clean [])
  rw [← h₂] at hdat₂ hkey₂ hlog₂
  refine (Disk.erase_leads (show (d₂.files .log).isSome = true by rw [hlog₂]; rfl)).mono
    (fun _ d₃ h₃ => ?_) fun _ d' h => ?_
  · rw [h₃]
    refine ⟨?_, ?_, Function.update_self _ _ _⟩
    · rw [Files.erase, Function.update_of_ne (by simp)]
      exact hdat₂
    · rw [Files.erase, Function.update_of_ne (by simp)]
      exact hkey₂
  · intro fs' hs
    rw [h.2] at hs
    exact .settled (hs.of_clean hdat₂) (hs.of_clean hkey₂)
      (.inr ⟨[], hs.of_clean hlog₂, hempty⟩)

/-- The log has no incomplete record. -/
def WholeLog (cfg : Config) (dat key : Bytes) (buckets : Nat) (fs : Files) : Prop :=
  ∀ log rs torn, fs .log = some (Media.clean log) → cfg.Logs dat key buckets rs torn log → torn = []

/-- The header block is in none of the blocks of buckets. -/
theorem header_of_keeps {b : Bytes} (hin : Intact cfg dat key buckets)
    (hle : key.length ≤ b.length)
    (hkeeps : (Media.clean b).Keeps (Outside cfg.blockSize rs) key) :
    b.take cfg.blockSize = cfg.headerBlock := by
  rw [← hin.keyHeader]
  have hlen := hin.length
  have hblock : cfg.blockSize ≤ key.length := by
    rw [hlen]
    exact Nat.le_mul_of_pos_left _ (Nat.succ_pos _)
  apply List.ext_getElem?
  intro i
  by_cases hi : i < cfg.blockSize
  · rw [List.getElem?_take_of_lt hi, List.getElem?_take_of_lt hi]
    refine hkeeps.getElem? (by omega) fun r _ hin => ?_
    have hge : cfg.blockSize ≤ (r.index + 1) * cfg.blockSize :=
      Nat.le_mul_of_pos_left _ (Nat.succ_pos _)
    have := hin.1
    omega
  · rw [List.getElem?_eq_none, List.getElem?_eq_none]
    · rw [List.length_take]
      omega
    · rw [List.length_take]
      omega

theorem rollBack_leads (hin : Intact cfg dat key buckets) {datNow keyNow : Bytes}
    (hkey : d.files .key = some (Media.clean keyNow))
    (hundo : Undoing cfg dat key buckets rs torn log d.files)
    (hle : key.length ≤ keyNow.length)
    (hkeeps : (Media.clean keyNow).Keeps (Outside cfg.blockSize rs) key)
    (hsize : dat.length ≤ datNow.length) (hfail : torn = [] ∨ ¬ d.Failing) (scratch : Bytes) :
    Leads (Disk.rollBack cfg.hasher cfg.datFileHeader (cfg.logFileHeader key.length dat.length)
        datNow.length log.length scratch) d
      (fun _ d' => Undoing cfg dat key buckets rs torn log d'.files ∧
        Restored cfg.blockSize key [] d'.files)
      (fun _ d' => Safe cfg dat key buckets d'.files) := by
  have hsafe : ∀ (h : Halt) (d' : Disk), d'.files = d.files → Safe cfg dat key buckets d'.files := by
    intro _ d' h
    rw [h]
    exact hundo.safe
  have hbytes : d.files.bytes .key = keyNow := by
    rw [Files.bytes_of_eq_some hkey]
    rfl
  have hhead := header_of_keeps hin hle hkeeps
  rw [← hbytes] at hhead
  have hblocks : buckets ≤ bucketsOfFileSize keyNow.length cfg.blockSize := by
    have hpos := cfg.blockSize_pos
    have hin' := hin.length
    have hgt : cfg.blockSize < keyNow.length := by
      have hmul : 2 * cfg.blockSize ≤ (buckets + 1) * cfg.blockSize :=
        Nat.mul_le_mul_right _ (by have := hin.pos; omega)
      omega
    rw [bucketsOfFileSize, if_pos hgt, if_pos hpos, Nat.le_div_iff_mul_le hpos]
    rw [add_mul, one_mul] at hin'
    omega
  have hpos : 0 < bucketsOfFileSize keyNow.length cfg.blockSize := by
    have := hin.pos
    omega
  unfold Disk.rollBack
  refine Disk.leads_reading (cfg.readKeyHeader_leads hhead) Disk.frames_readKeyHeader hsafe
    fun kh d₁ hkh hfiles hfaults => ?_
  rw [hbytes] at hkh
  subst hkh
  rw [cfg.verifyKey_header hpos, cfg.verify_header hpos, verifyKeyLog_config]
  simp only [lift_ok_bind]
  have hlogBytes : log.length ≤ (d₁.files.bytes .log).length := by rw [hfiles, hundo.bytes_log]
  rw [← hfiles] at hundo
  have hheader := length_writeLogFileHeader (cfg.logFileHeader key.length dat.length)
  have hlogEq := hundo.logs.eq
  have hahead : (BulkReader.mk log.length logFileHeaderSize []
      (1024 * (cfg.keyFileHeader (bucketsOfFileSize keyNow.length cfg.blockSize)).blockSize)).Ahead
      log (rs.flatMap LogRecord.bytes ++ torn) := by
    have hlong : logFileHeaderSize ≤ log.length := by
      rw [hlogEq, List.length_append, hheader]
      omega
    refine ⟨le_rfl, hlong, by simp, ?_⟩
    rw [List.nil_append, slice, List.take_of_length_le (by rw [List.length_drop])]
    conv_lhs => rw [hlogEq]
    exact List.drop_left' hheader
  have hrest : Restored cfg.blockSize key rs d₁.files := by
    intro i hi hout
    rw [hfiles, hbytes]
    exact hkeeps.getElem? hi hout
  refine (recoverLoop_leads hundo hrest List.suffix_rfl hin.length hin.bounded ?_ hblocks hsize
    hahead ?_ ?_).mono (fun _ _ h => h) fun _ _ h => h.safe
  · rfl
  · unfold Disk.Failing at *
    rwa [hfaults]
  · have hone : ∀ n ∈ rs.map fun r => r.bytes.length, 1 ≤ n := by
      intro n hn
      obtain ⟨r, -, rfl⟩ := List.mem_map.mp hn
      rw [r.length_bytes]
      omega
    have hcount : rs.length ≤ (rs.flatMap LogRecord.bytes).length := by
      rw [List.length_flatMap]
      simpa using List.length_le_sum_of_one_le _ hone
    rw [hlogEq, List.length_append, List.length_append]
    omega

/-- The header of the log, as it is read back. -/
theorem readLogFileHeader_config (hin : Intact cfg dat key buckets) :
    readLogFileHeader (writeLogFileHeader (cfg.logFileHeader key.length dat.length)) =
      cfg.logFileHeader key.length dat.length := by
  have hkey : key.length < 256 ^ 8 := by
    rw [hin.length]
    have h1 := cfg.blockSize_lt
    have h2 := hin.bounded
    calc (buckets + 1) * cfg.blockSize ≤ (2 ^ 32 + 1) * 2 ^ 16 :=
          Nat.mul_le_mul (by omega) h1.le
      _ < 256 ^ 8 := by norm_num
  have hdat : dat.length < 256 ^ 8 := hin.size.trans (by norm_num)
  rw [readLogFileHeader_write _ (by simp [Config.logFileHeader, currentVersion]) cfg.keySize_lt
    cfg.blockSize_lt hkey hdat]
  rfl

/-- With no log, or one that is too short. -/
theorem recoverLog_settled (hdat : d.files .dat = some (Media.clean dat))
    (hkey : d.files .key = some (Media.clean key))
    (hlog : d.files .log = none ∨
      ∃ l, d.files .log = some (Media.clean l) ∧ l.length < logFileHeaderSize)
    (dataFileSize : Nat) (scratch : Bytes) :
    Leads (Disk.recoverLog cfg.hasher cfg.datFileHeader dataFileSize scratch) d
      (fun _ d' => Recovered dat key d'.files)
      (fun _ d' => Safe cfg dat key buckets d'.files) := by
  have hres : Restores cfg dat key buckets d.files := .settled hdat hkey hlog
  have hsafe : ∀ d' : Disk, d'.files = d.files → Safe cfg dat key buckets d'.files := by
    intro d' h
    rw [h]
    exact hres.safe
  unfold Disk.recoverLog
  rcases hlog with hlog | ⟨l, hlog, hlt⟩
  · refine ((leads_attempt (R := fun x d' => d'.files = d.files ∧ ∃ h, x = .error h)
      (Disk.open_missing_leads hlog)
      (fun _ _ h => h.elim) fun h d' hd' _ => ⟨hd'.2, h, rfl⟩).mono (fun _ _ h => h)
      fun _ d' h => hsafe d' h.1.2).bind fun x d₁ hx => ?_
    obtain ⟨hfiles, h, rfl⟩ := hx
    dsimp only
    split
    · exact leads_pure ⟨by rw [hfiles]; exact hdat, by rw [hfiles]; exact hkey,
        by rw [hfiles]; exact hlog⟩
    · exact leads_throw (hsafe d₁ hfiles)
  · have hopen := Disk.leads_attempt_kept (R := fun _ => True) ((Disk.open_leads
      (show (d.files .log).isSome = true by rw [hlog]; rfl)).mono (fun _ _ h => ⟨trivial, h⟩)
      fun _ _ h => h)
    refine (hopen.mono (fun _ _ h => h) fun _ d' h => hsafe d' h).bind fun x d₁ hx => ?_
    obtain ⟨hf₁, hx⟩ := hx
    cases x with
    | error h =>
      dsimp only
      rw [if_neg (Disk.Reported.ne_code hx _)]
      exact leads_throw (hsafe d₁ hf₁)
    | ok _ =>
      refine ((Disk.size_leads d₁ .log).mono (fun _ _ h => h)
        fun _ d' h => hsafe d' (h.2.trans hf₁)).bind fun size d₂ hsz => ?_
      have hf₂ : d₂.files = d.files := hsz.2.trans hf₁
      have hshort : (d₂.files.bytes .log).length < 0 + logFileHeaderSize := by
        rw [hf₂, Files.bytes_of_eq_some hlog, Nat.zero_add]
        exact hlt
      have hread : Leads (attempt Halt.isCode (Disk.read .log 0 logFileHeaderSize)) d₂
          (fun y d' => d'.files = d₂.files ∧ ∃ h, y = .error h) _ :=
        leads_attempt (Disk.read_short_leads (by simp [logFileHeaderSize]) hshort)
          (fun _ _ h => h.elim) fun h d' hd' _ => ⟨hd'.2, h, rfl⟩
      refine (hread.mono (fun _ _ h => h) fun _ d' h => hsafe d' (h.1.2.trans hf₂)).bind
        fun y d₃ hy => ?_
      obtain ⟨hf₃, h, rfl⟩ := hy
      have hf : d₃.files = d.files := hf₃.trans hf₂
      dsimp only
      split
      · rw [← hf] at hdat hkey hlog
        refine clearLog_leads hdat hkey hlog fun fs h1 h2 h3 => .settled h1 h2 (.inr ⟨l, h3, hlt⟩)
      · exact leads_throw (hsafe d₃ hf)

/-- With the records of a log. -/
theorem recoverLog_logged (hin : Intact cfg dat key buckets) {datNow keyNow : Bytes}
    (hdat : d.files .dat = some (Media.clean datNow))
    (hkey : d.files .key = some (Media.clean keyNow))
    (hlog : d.files .log = some (Media.clean log)) (hlogs : cfg.Logs dat key buckets rs torn log)
    (hpre : dat <+: datNow) (hle : key.length ≤ keyNow.length)
    (hkeeps : (Media.clean keyNow).Keeps (Outside cfg.blockSize rs) key)
    (hfail : torn = [] ∨ ¬ d.Failing) (scratch : Bytes) :
    Leads (Disk.recoverLog cfg.hasher cfg.datFileHeader datNow.length scratch) d
      (fun _ d' => Recovered dat key d'.files)
      (fun _ d' => Safe cfg dat key buckets d'.files) := by
  have hundo := Restores.undoing hdat hkey hlog hlogs hpre hle hkeeps
  have hsafe : ∀ (h : Halt) (d' : Disk), d'.files = d.files → Safe cfg dat key buckets d'.files := by
    intro _ d' h
    rw [h]
    exact hundo.safe
  have hheader := length_writeLogFileHeader (cfg.logFileHeader key.length dat.length)
  have hslice : slice log 0 logFileHeaderSize =
      writeLogFileHeader (cfg.logFileHeader key.length dat.length) := by
    rw [hlogs.eq]
    exact slice_start hheader
  have hlong : logFileHeaderSize ≤ log.length := by
    rw [hlogs.eq, List.length_append, hheader]
    omega
  have hne : key ≠ [] := by
    intro hnil
    have hlen := hin.length
    rw [hnil, List.length_nil] at hlen
    have := cfg.blockSize_pos
    have := Nat.mul_pos (show 0 < buckets + 1 by omega) this
    omega
  unfold Disk.recoverLog
  have hopen := Disk.leads_attempt_kept (R := fun _ => True) ((Disk.open_leads
    (show (d.files .log).isSome = true by rw [hlog]; rfl)).mono (fun _ _ h => ⟨trivial, h⟩)
    fun _ _ h => h)
  refine Disk.leads_reading (hopen.mono (fun _ _ h => ⟨h.2, h.1⟩) fun _ _ h => h)
    (Disk.frames_open _).attempt hsafe fun x d₁ hx hf₁ hs₁ => ?_
  cases x with
  | error h =>
    dsimp only
    rw [if_neg (Disk.Reported.ne_code hx _)]
    exact leads_throw (hsafe h d₁ hf₁)
  | ok _ =>
    rw [← hf₁] at hsafe
    refine Disk.leads_reading ((Disk.size_leads d₁ .log).mono (fun _ _ h => h) fun _ _ h => h.2)
      (Disk.frames_size _) hsafe fun size d₂ hsz hf₂ hs₂ => ?_
    rw [hf₁, hundo.bytes_log] at hsz
    subst hsz
    have hbytes : d₂.files.bytes .log = log := by rw [hf₂, hf₁, hundo.bytes_log]
    have hread := Disk.leads_attempt_kept (Disk.read_leads
      (show 0 + logFileHeaderSize ≤ (d₂.files.bytes .log).length by rw [hbytes]; omega))
    rw [hbytes, hslice] at hread
    rw [← hf₂] at hsafe
    refine Disk.leads_reading (hread.mono (fun _ _ h => ⟨h.2, h.1⟩) fun _ _ h => h)
      (Disk.frames_read _ _ _).attempt hsafe fun y d₃ hy hf₃ hs₃ => ?_
    have hf : d₃.files = d.files := hf₃.trans (hf₂.trans hf₁)
    have hs : d₃.faults = d.faults := hs₃.trans (hs₂.trans hs₁)
    rw [← hf] at hundo hkey
    cases y with
    | error h =>
      dsimp only
      rw [if_neg (Disk.Reported.ne_short hy)]
      exact leads_throw hundo.safe
    | ok buf =>
      have hbuf : buf = writeLogFileHeader (cfg.logFileHeader key.length dat.length) := hy
      subst hbuf
      dsimp only
      rw [readLogFileHeader_config hin, verifyLog_config, lift_ok_bind]
      have hpos : (cfg.logFileHeader key.length dat.length).keyFileSize ≠ 0 :=
        fun h => hne (List.eq_nil_of_length_eq_zero h)
      rw [if_pos hpos]
      have hsize : dat.length ≤ datNow.length := hpre.length_le
      have hfail' : torn = [] ∨ ¬ d₃.Failing := by
        unfold Disk.Failing at *
        rwa [hs]
      refine (rollBack_leads hin hkey hundo hle hkeeps hsize hfail' scratch).bind fun _ d₄ h₄ => ?_
      refine (truncFiles_leads h₄.1 h₄.2 hne).bind fun _ d₅ h₅ => ?_
      refine clearLog_leads h₅.2.1 h₅.2.2 h₅.1.log fun fs h1 h2 h3 => ?_
      exact .logged h1 h2 h3 hlogs List.prefix_rfl le_rfl Media.keeps_clean

/-- A recovery that returns leaves the database and no log; one that stops leaves files that stand
for the database. -/
theorem recover_leads (hin : Intact cfg dat key buckets)
    (hres : Restores cfg dat key buckets d.files)
    (hfail : WholeLog cfg dat key buckets d.files ∨ ¬ d.Failing) (scratch : Bytes) :
    Leads (Disk.recover cfg.hasher scratch) d (fun _ d' => Recovered dat key d'.files)
      (fun _ d' => Safe cfg dat key buckets d'.files) := by
  have hsafe : ∀ (h : Halt) (d' : Disk), d'.files = d.files → Safe cfg dat key buckets d'.files := by
    intro _ d' h
    rw [h]
    exact hres.safe
  obtain ⟨datNow, keyNow, hdat, hkey, hpre, hle⟩ : ∃ datNow keyNow,
      d.files .dat = some (Media.clean datNow) ∧ d.files .key = some (Media.clean keyNow) ∧
      dat <+: datNow ∧ key.length ≤ keyNow.length := by
    cases hres with
    | settled hdat hkey hlog => exact ⟨dat, key, hdat, hkey, List.prefix_rfl, le_rfl⟩
    | logged hdat hkey hlog hlogs hpre hle hkeeps => exact ⟨_, _, hdat, hkey, hpre, hle⟩
  have hdatBytes : d.files.bytes .dat = datNow := by
    rw [Files.bytes_of_eq_some hdat]
    rfl
  have hkeyBytes : d.files.bytes .key = keyNow := by
    rw [Files.bytes_of_eq_some hkey]
    rfl
  unfold Disk.recover
  refine Disk.leads_reading (R := fun _ => True)
    ((Disk.open_leads (show (d.files .dat).isSome = true by rw [hdat]; rfl)).mono
      (fun _ _ h => ⟨trivial, h⟩) fun _ _ h => h.2)
    (Disk.frames_open _) hsafe fun _ d₁ _ hf₁ hs₁ => ?_
  rw [← hf₁] at hsafe
  refine Disk.leads_reading ((Disk.size_leads d₁ .dat).mono (fun _ _ h => h) fun _ _ h => h.2)
    (Disk.frames_size _) hsafe fun size d₂ hsz hf₂ hs₂ => ?_
  rw [hf₁, hdatBytes] at hsz
  subst hsz
  rw [← hf₂] at hsafe
  have hheader : writeDatFileHeader cfg.datFileHeader <+: d₂.files.bytes .dat := by
    rw [hf₂, hf₁, hdatBytes]
    exact hin.datHeader.trans hpre
  refine Disk.leads_reading ((cfg.readDatHeader_leads hheader).mono (fun _ _ h => h)
    fun _ _ h => h.2) Disk.frames_readDatHeader hsafe fun dh d₃ hdh hf₃ hs₃ => ?_
  subst hdh
  rw [← hf₃] at hsafe
  rw [cfg.verifyDat_header, lift_ok_bind]
  have hkey₃ : d₃.files .key = some (Media.clean keyNow) := by rw [hf₃, hf₂, hf₁, hkey]
  refine Disk.leads_reading (R := fun _ => True)
    ((Disk.open_leads (show (d₃.files .key).isSome = true by rw [hkey₃]; rfl)).mono
      (fun _ _ h => ⟨trivial, h⟩) fun _ _ h => h.2)
    (Disk.frames_open _) hsafe fun _ d₄ _ hf₄ hs₄ => ?_
  rw [← hf₄] at hsafe
  refine Disk.leads_reading ((Disk.size_leads d₄ .key).mono (fun _ _ h => h) fun _ _ h => h.2)
    (Disk.frames_size _) hsafe fun size d₅ hsz hf₅ hs₅ => ?_
  have hf : d₅.files = d.files := hf₅.trans (hf₄.trans (hf₃.trans (hf₂.trans hf₁)))
  have hs : d₅.faults = d.faults := hs₅.trans (hs₄.trans (hs₃.trans (hs₂.trans hs₁)))
  rw [hf₄, hf₃, hf₂, hf₁, hkeyBytes] at hsz
  subst hsz
  -- The first block alone is longer than a header, and there is another one.
  have hlong : ¬ keyNow.length ≤ keyFileHeaderSize := by
    have hsize := keyFileHeaderSize_le cfg.capacity_pos
    have hlen := hin.length
    have hmul : 2 * cfg.blockSize ≤ (buckets + 1) * cfg.blockSize :=
      Nat.mul_le_mul_right _ (by have := hin.pos; omega)
    have := cfg.blockSize_pos
    omega
  rw [if_neg hlong]
  have hfail' : WholeLog cfg dat key buckets d₅.files ∨ ¬ d₅.Failing := by
    unfold Disk.Failing at *
    rwa [hf, hs]
  rw [← hf] at hres hdat hkey
  cases hres with
  | settled hdat' hkey' hlog => exact recoverLog_settled hdat' hkey' hlog _ scratch
  | @logged datNow' keyNow' log rs torn hdat' hkey' hlog hlogs hpre' hle' hkeeps =>
    have heq : datNow' = datNow := by
      rw [hdat] at hdat'
      simpa [Media.clean] using hdat'.symm
    subst heq
    exact recoverLog_logged hin hdat' hkey' hlog hlogs hpre' hle' hkeeps
      (hfail'.imp (fun h => h log rs torn hlog hlogs) id) scratch

end Whole

end Metcalfe.Nudb
