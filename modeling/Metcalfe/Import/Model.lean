import Metcalfe.Library.Rounding
import Metcalfe.Nudb.Chain

/-!
# The importer

`import_test::run` copies a RocksDB database into a NuDB data file and builds the key file in
passes: each pass holds a window of buckets in memory, reads the whole data section again and
places the keys whose bucket lies in the window, appending spill records to the data file
through the same writer.

The parameters of a run are what it is given (`bufferSize`, the block size of the volume, the
values drawn for `uid` and `salt`) and what it is linked with: the codec, the hash function,
whether assertions are compiled in, and how the operations on the two files fail.

Not modelled: the command line and the log. The progress display is the subject of
`Import.Progress`.
-/

namespace Metcalfe.Import

open BigEndian Nudb

/-- A key and a value of the source database. -/
abbrev Record := Bytes × Bytes

/-- `filter_inner`, `nodeobject_compress` and `nodeobject_decompress`; the last two may throw. -/
structure Codec where
  filterInner : Bytes → Bytes
  compress : Bytes → Except String Bytes
  decompress : Bytes → Except String Bytes
  compress_pos : ∀ v out, compress v = .ok out → 0 < out.length
  compress_lt : ∀ v out, compress v = .ok out → out.length < 2 ^ 32

/-- A RocksDB iterator: the records for which `Valid()` was true, and whether `status()` is OK
once it is false. -/
structure Iterator where
  records : List Record
  ok : Bool

structure Env where
  bufferSize : Nat
  blockSize : Nat
  blockSize_lt : blockSize < 2 ^ 16
  capacity_pos : 0 < bucketCapacity blockSize
  uid : UInt64
  salt : UInt64
  hasher : Hasher
  codec : Codec
  asserts : Bool
  datFaults : Faults
  keyFaults : Faults

namespace Env

abbrev capacity (env : Env) : Nat := bucketCapacity env.blockSize

/-- `bulk_size`. -/
def bulkSize : Nat := 64 * 1024 * 1024

def datFileHeader (env : Env) : DatFileHeader where
  type := []
  version := currentVersion
  uid := env.uid
  appnum := 1
  keySize := 32

/-- `std::ceil(nitems / (bucket_capacity(kh.block_size) * load_factor))`, in numbers of 24
significant bits; the product is half the capacity, exactly. -/
def bucketCount (env : Env) (nitems : Nat) : Nat :=
  Rounding.ceilDiv 24 (2 * Rounding.ofNat 24 nitems) env.capacity

def keyFileHeader (env : Env) (nitems : Nat) : KeyFileHeader where
  type := []
  version := currentVersion
  uid := env.uid
  appnum := 1
  keySize := 32
  salt := env.salt
  pepper := pepper env.hasher env.salt
  blockSize := env.blockSize
  -- min(65536.0 * load_factor, 65535)
  loadFactor := 32768
  -- Not set by the importer, and not read by it.
  capacity := env.capacity
  buckets := env.bucketCount nitems
  modulus := ceilPow2 (env.bucketCount nitems)

/-- The first block of the key file. -/
def headerBlock (env : Env) (kh : KeyFileHeader) : Bytes :=
  splice (List.replicate env.blockSize 0) 0 (writeKeyFileHeader kh)

end Env

/-! ## The data file -/

/-- A data record: size, key, value. -/
def dataRecord (key out : Bytes) : Bytes := toBytes 6 out.length ++ (key ++ out)

/-- The value that is stored for a record, after the checks of the loop. -/
def encodeValue (env : Env) (record : Record) : Except Stop Bytes := do
  if record.1.length ≠ 32 then throw (.thrown ("Unexpected key size " ++ toString record.1.length))
  let clean := env.codec.filterInner record.2
  let out ← (env.codec.compress clean).mapError .thrown
  let check ← (env.codec.decompress out).mapError .thrown
  if check.length ≠ clean.length then throw .expectation
  if check.take clean.length ≠ clean then throw .expectation
  pure out

/-- One round of the data file loop; the count is `nitems`. -/
def importRecord (env : Env) (s : BulkWriter × Nat) (record : Record) :
    Except Stop (BulkWriter × Nat) := do
  let out ← encodeValue env record
  let w ← s.1.prepare (6 + 32 + out.length)
  let size ← writeField env.asserts 6 out.length
  pure (w.put (size ++ (record.1 ++ out)), s.2 + 1)

/-- The data file as the loop leaves it, and the number of records. -/
def importData (env : Env) (it : Iterator) : Except Stop (BulkWriter × Nat) := do
  let f ← File.create env.datFaults
  let w ← BulkWriter.prepare ⟨f, 0, [], Env.bulkSize⟩ datFileHeaderSize
  let w := w.put (writeDatFileHeader env.datFileHeader)
  let (w, nitems) ← it.records.foldlM (importRecord env) (w, 0)
  let w ← w.flush
  pure (w, nitems)

/-! ## The key file -/

/-- The state of a pass: the writer of the data file, the reader, and the window, one blob of
`block_size` bytes for each of its buckets. -/
structure Scan where
  writer : BulkWriter
  reader : BulkReader
  window : List Bytes

/-- `r.prepare(needed, ec)` on the file that the writer appends to. -/
def Scan.prepare (s : Scan) (needed : Nat) : Except Stop (Bytes × Scan) := do
  let (is, reader, file) ← s.reader.prepare s.writer.file needed
  pure (is, { s with writer := { s.writer with file := file }, reader := reader })

/-- Places a key in the bucket at `slot` of the window. -/
def placeKey (env : Env) (s : Scan) (slot : Nat) (e : Entry) : Except Stop Scan := do
  let b := Bucket.ofBlob env.blockSize (s.window.getD slot [])
  let (b, w) ← maybeSpill env.asserts b s.writer
  let b ← b.insert env.asserts e.offset e.size e.hash
  pure { s with writer := w, window := s.window.set slot b.p }

/-- `bucket_index`, with its assertion. -/
def indexOf (env : Env) (kh : KeyFileHeader) (h : Nat) : Except Stop Nat :=
  if env.asserts = true ∧ 2 ^ 32 < kh.modulus then .error .assertion
  else .ok (bucketIndex h kh.buckets kh.modulus)

/-- One round of the reading loop. -/
def scanRecord (env : Env) (kh : KeyFileHeader) (b0 b1 : Nat) (s : Scan) : Except Stop Scan := do
  let offset := s.reader.position
  let (is, s) ← s.prepare 6
  let size := ofBytes is
  if size > 0 then
    let (is, s) ← s.prepare (32 + size)
    let key := is.take 32
    let h := hash env.hasher key kh.salt
    let n ← indexOf env kh h
    if n < b0 ∨ n ≥ b1 then pure s
    else placeKey env s (n - b0) ⟨offset, size, h⟩
  else
    -- A spill record, which is skipped.
    let (is, s) ← s.prepare 2
    let (_, s) ← s.prepare (ofBytes is)
    pure s

/-- The reading loop. Each round consumes at least six bytes, so the number of bytes is enough
rounds. -/
def scanData (env : Env) (kh : KeyFileHeader) (b0 b1 : Nat) : Nat → Scan → Except Stop Scan
  | 0, s => if s.reader.eof then .ok s else .error .unfinished
  | fuel + 1, s =>
    if s.reader.eof then .ok s
    else scanRecord env kh b0 b1 s >>= scanData env kh b0 b1 fuel

/-- One pass: the buckets in `[b0, b1)`. -/
def pass (env : Env) (kh : KeyFileHeader) (dfSize b0 b1 : Nat) (w : BulkWriter) (kf : File) :
    Except Stop (BulkWriter × File) := do
  let window := List.replicate (b1 - b0) (Bucket.empty env.blockSize).p
  let r : BulkReader := ⟨dfSize, datFileHeaderSize, [], Env.bulkSize⟩
  let s ← scanData env kh b0 b1 dfSize ⟨w, r, window⟩
  let kf ← kf.write ((b0 + 1) * env.blockSize) s.window.flatten
  pure (s.writer, kf)

/-- `std::max<std::size_t>(1, buffer_size / kh.block_size)`: the buckets of a window. -/
def Env.windowSize (env : Env) : Nat := max 1 (env.bufferSize / env.blockSize)

/-- The loop of passes. Each pass fills at least one bucket. -/
def passes (env : Env) (kh : KeyFileHeader) (dfSize : Nat) :
    Nat → Nat → BulkWriter → File → Except Stop (BulkWriter × File)
  | 0, b0, w, kf => if b0 < kh.buckets then .error .unfinished else .ok (w, kf)
  | fuel + 1, b0, w, kf =>
    if b0 < kh.buckets then do
      let b1 := min (b0 + env.windowSize) kh.buckets
      let (w, kf) ← pass env kh dfSize b0 b1 w kf
      passes env kh dfSize fuel (b0 + env.windowSize) w kf
    else .ok (w, kf)

/-- What a run that ends normally leaves: the two files, the size of the data section and the
header the keys were placed with. -/
structure Imported where
  dat : Bytes
  key : Bytes
  dfSize : Nat
  kh : KeyFileHeader
  deriving DecidableEq

def run (env : Env) (it : Iterator) : Except Stop Imported := do
  let (w, nitems) ← importData env it
  let (dfSize, f) ← w.file.size
  let w := { w with file := f }
  let kh := env.keyFileHeader nitems
  let kf ← File.create env.keyFaults
  let kf ← kf.write 0 (env.headerBlock kh)
  let (w, kf) ← passes env kh dfSize kh.buckets 0 w kf
  let w ← w.flush
  pure ⟨w.file.bytes, kf.bytes, dfSize, kh⟩

end Metcalfe.Import
