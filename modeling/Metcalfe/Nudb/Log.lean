import Metcalfe.Nudb.DiskBulk
import Metcalfe.Nudb.Items

/-!
# The log file

While a commit is under way the log file has what is needed to undo it: a header with the sizes
of the data file and of the key file, and after it a record for each block of the key file that
is going to change, with the number of the bucket and its old entries. A log may end in a part of
a record (`Config.Logs`).
-/

namespace Metcalfe.Nudb

open BigEndian Durable Stateful Outcome

structure LogFileHeader where
  type : Bytes
  version : Nat
  uid : UInt64
  appnum : UInt64
  keySize : Nat
  salt : UInt64
  pepper : UInt64
  blockSize : Nat
  keyFileSize : Nat
  datFileSize : Nat
  deriving DecidableEq, Repr

/-- `log_file_header::size`. -/
def logFileHeaderSize : Nat := 62

def writeLogFileHeader (lh : LogFileHeader) : Bytes :=
  ascii "nudb.log" ++ (toBytes 2 lh.version ++ (toBytes 8 lh.uid.toNat ++
    (toBytes 8 lh.appnum.toNat ++ (toBytes 2 lh.keySize ++ (toBytes 8 lh.salt.toNat ++
    (toBytes 8 lh.pepper.toNat ++ (toBytes 2 lh.blockSize ++ (toBytes 8 lh.keyFileSize ++
    toBytes 8 lh.datFileSize))))))))

def readLogFileHeader (is : Bytes) : LogFileHeader :=
  let type := is.take 8
  let (version, is) := readField 2 (is.drop 8)
  let (uid, is) := readField64 is
  let (appnum, is) := readField64 is
  let (keySize, is) := readField 2 is
  let (salt, is) := readField64 is
  let (pepper, is) := readField64 is
  let (blockSize, is) := readField 2 is
  let (keyFileSize, is) := readField 8 is
  let (datFileSize, _) := readField 8 is
  ⟨type, version, uid, appnum, keySize, salt, pepper, blockSize, keyFileSize, datFileSize⟩

theorem length_writeLogFileHeader (lh : LogFileHeader) :
    (writeLogFileHeader lh).length = logFileHeaderSize := by
  have htype : (ascii "nudb.log").length = 8 := by decide
  simp [writeLogFileHeader, htype, logFileHeaderSize]

/-- What is written is read back, with the type of a log file. -/
theorem readLogFileHeader_write (lh : LogFileHeader) (hv : lh.version < 256 ^ 2)
    (hk : lh.keySize < 256 ^ 2) (hb : lh.blockSize < 256 ^ 2) (hkey : lh.keyFileSize < 256 ^ 8)
    (hdat : lh.datFileSize < 256 ^ 8) :
    readLogFileHeader (writeLogFileHeader lh) = { lh with type := ascii "nudb.log" } := by
  have htype : (ascii "nudb.log").length = 8 := by decide
  have htake : (writeLogFileHeader lh).take 8 = ascii "nudb.log" := List.take_left' htype
  have hdrop : (writeLogFileHeader lh).drop 8 = toBytes 2 lh.version ++ (toBytes 8 lh.uid.toNat ++
      (toBytes 8 lh.appnum.toNat ++ (toBytes 2 lh.keySize ++ (toBytes 8 lh.salt.toNat ++
      (toBytes 8 lh.pepper.toNat ++ (toBytes 2 lh.blockSize ++ (toBytes 8 lh.keyFileSize ++
      (toBytes 8 lh.datFileSize ++ [])))))))) := by
    rw [List.append_nil]
    exact List.drop_left' htype
  simp only [readLogFileHeader, htake, hdrop, readField_append hv, readField_append hk,
    readField_append hb, readField_append hkey, readField_append hdat, readField64_append]

/-! ## Checks -/

/-- `verify(log_file_header)`. -/
def verifyLog (hasher : Hasher) (lh : LogFileHeader) : Except Halt Unit := do
  if lh.type ≠ ascii "nudb.log" then throw (.code .not_log_file)
  if lh.version ≠ currentVersion then throw (.stop (.ec .different_version))
  if lh.pepper ≠ pepper hasher lh.salt then throw (.stop (.ec .hash_mismatch))
  if lh.keySize < 1 then throw (.stop (.ec .invalid_key_size))

/-- `verify(key_file_header, log_file_header)`. -/
def verifyKeyLog (hasher : Hasher) (kh : KeyFileHeader) (lh : LogFileHeader) :
    Except Halt Unit := do
  verifyLog hasher lh
  if kh.uid ≠ lh.uid then throw (.stop (.ec .uid_mismatch))
  if kh.appnum ≠ lh.appnum then throw (.stop (.ec .appnum_mismatch))
  if kh.keySize ≠ lh.keySize then throw (.stop (.ec .key_size_mismatch))
  if kh.salt ≠ lh.salt then throw (.code .salt_mismatch)
  if kh.pepper ≠ lh.pepper then throw (.code .pepper_mismatch)
  if kh.blockSize ≠ lh.blockSize then throw (.code .block_size_mismatch)

/-- The header that a commit writes. -/
def Config.logFileHeader (cfg : Config) (keyFileSize datFileSize : Nat) : LogFileHeader where
  type := ascii "nudb.log"
  version := currentVersion
  uid := cfg.uid
  appnum := cfg.appnum
  keySize := cfg.keySize
  salt := cfg.salt
  pepper := pepper cfg.hasher cfg.salt
  blockSize := cfg.blockSize
  keyFileSize := keyFileSize
  datFileSize := datFileSize

theorem verifyLog_config (cfg : Config) (keyFileSize datFileSize : Nat) :
    verifyLog cfg.hasher (cfg.logFileHeader keyFileSize datFileSize) = .ok () := by
  have hkey := cfg.keySize_pos
  simp [verifyLog, Config.logFileHeader, pure, Except.pure]
  omega

theorem verifyKeyLog_config (cfg : Config) (buckets keyFileSize datFileSize : Nat) :
    verifyKeyLog cfg.hasher (cfg.keyFileHeader buckets)
      (cfg.logFileHeader keyFileSize datFileSize) = .ok () := by
  rw [verifyKeyLog, verifyLog_config]
  simp [Config.logFileHeader, Config.keyFileHeader, pure, Except.pure, bind, Except.bind]

/-! ## Records -/

/-- The number of a bucket, its entries and its spill pointer. -/
structure LogRecord where
  index : Nat
  es : List Entry
  spill : Nat
  deriving DecidableEq, Inhabited, Repr

def LogRecord.bytes (r : LogRecord) : Bytes := toBytes 8 r.index ++ encode r.es r.spill

theorem LogRecord.length_bytes (r : LogRecord) :
    r.bytes.length = 8 + bucketSize r.es.length := by
  rw [bytes, List.length_append, length_toBytes, length_encode]

/-- The record has the block of its bucket in a key file of `buckets` buckets. -/
structure LogRecord.Of (r : LogRecord) (cfg : Config) (dat key : Bytes) (buckets : Nat) :
    Prop where
  index_lt : r.index < buckets
  length_le : r.es.length ≤ cfg.capacity
  spill_lt : r.spill < 256 ^ 6
  inside : r.spill ≠ 0 → r.spill + bucketSize cfg.capacity ≤ dat.length
  block : slice key ((r.index + 1) * cfg.blockSize) cfg.blockSize = blob cfg.blockSize r.es r.spill

/-- Position `i` of the key file is in the block of bucket `n`. -/
def InBlock (blockSize n i : Nat) : Prop := (n + 1) * blockSize ≤ i ∧ i < (n + 2) * blockSize

/-- What stands after the records of a log: nothing, or a part of a record. -/
def Config.Torn (cfg : Config) (dat key : Bytes) (buckets : Nat) (torn : Bytes) : Prop :=
  torn = [] ∨ ∃ r : LogRecord, r.Of cfg dat key buckets ∧ torn <+: r.bytes ∧
    torn.length < r.bytes.length

/-- A log for these files: its header, records and the part of one that is not complete. -/
structure Config.Logs (cfg : Config) (dat key : Bytes) (buckets : Nat) (rs : List LogRecord)
    (torn log : Bytes) : Prop where
  eq : log = writeLogFileHeader (cfg.logFileHeader key.length dat.length) ++
    (rs.flatMap LogRecord.bytes ++ torn)
  records : ∀ r ∈ rs, r.Of cfg dat key buckets
  torn : cfg.Torn dat key buckets torn

/-- The beginning of a log is a log. -/
theorem exists_logs_of_isPrefix {cfg : Config} {dat key log : Bytes} {buckets : Nat}
    {rs : List LogRecord} (hrs : ∀ r ∈ rs, r.Of cfg dat key buckets)
    (hhead : writeLogFileHeader (cfg.logFileHeader key.length dat.length) <+: log)
    (hlog : log <+: writeLogFileHeader (cfg.logFileHeader key.length dat.length) ++
      rs.flatMap LogRecord.bytes) :
    ∃ rs' torn, cfg.Logs dat key buckets rs' torn log := by
  obtain ⟨t, rfl⟩ := hhead
  rw [List.prefix_append_right_inj] at hlog
  obtain ⟨rs', torn, rfl, hsub, htorn⟩ := exists_flatMap_of_isPrefix hlog
  refine ⟨rs', torn, rfl, fun r hr => hrs r (hsub.subset hr), ?_⟩
  rcases htorn with rfl | ⟨r, hr, hle, hlt⟩
  · exact .inl rfl
  · exact .inr ⟨r, hrs r hr, hle, hlt⟩

end Metcalfe.Nudb
