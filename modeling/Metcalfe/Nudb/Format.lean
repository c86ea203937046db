import Metcalfe.Library.BigEndian

/-!
# The format of NuDB files

The file headers, the sizes derived from the block size, the hash stored in a bucket and the
placement of a hash in a bucket, as `detail/format.hpp` and `detail/bucket.hpp` have them.
Header fields are written one after another and read back in the same order; the bucket count
and the modulus of a key file are not stored but derived from the size of the file.

Integers of 64 bits that are only stored or compared are `UInt64`; sizes, counts and offsets
are natural numbers, cut to the width of their field where they are written.
-/

namespace Metcalfe.Nudb

open BigEndian

/-- The codes of `nudb::error` that the modelled functions set, and an error code of the
operating system. -/
inductive Error
  | key_not_found
  | short_read
  | not_data_file
  | not_key_file
  | different_version
  | invalid_key_size
  | short_key_file
  | hash_mismatch
  | invalid_load_factor
  | invalid_capacity
  | invalid_bucket_count
  | invalid_bucket_size
  | uid_mismatch
  | appnum_mismatch
  | key_size_mismatch
  | system (errno : Nat)
  deriving DecidableEq, Repr

/-- How a computation ends that does not return: an error code was set, an assertion failed,
an exception was thrown, an expectation of the test suite failed, or a loop did not end in
the number of rounds it is given here. -/
inductive Stop
  | ec (e : Error)
  | assertion
  | thrown (what : String)
  | expectation
  | unfinished
  deriving DecidableEq, Repr

/-- A hash function constructed with a salt and applied to a blob. -/
abbrev Hasher := UInt64 → Bytes → UInt64

def currentVersion : Nat := 2

/-- The bytes of a string of ASCII characters. -/
def ascii (s : String) : Bytes := s.toList.map fun c => UInt8.ofNat c.toNat

structure DatFileHeader where
  type : Bytes
  version : Nat
  uid : UInt64
  appnum : UInt64
  keySize : Nat
  deriving DecidableEq, Repr

structure KeyFileHeader where
  type : Bytes
  version : Nat
  uid : UInt64
  appnum : UInt64
  keySize : Nat
  salt : UInt64
  pepper : UInt64
  blockSize : Nat
  loadFactor : Nat
  capacity : Nat
  buckets : Nat
  modulus : Nat
  deriving DecidableEq, Repr

/-- `dat_file_header::size`. -/
def datFileHeaderSize : Nat := 92

/-- `key_file_header::size`. -/
def keyFileHeaderSize : Nat := 104

/-! ## Hashes and buckets -/

/-- `make_hash<uint48_t>`: 48 of the 64 bits of a digest. -/
def makeHash (h : UInt64) : Nat := ((h >>> 16) &&& 0xffffffffffff).toNat

def hash (hasher : Hasher) (key : Bytes) (salt : UInt64) : Nat := makeHash (hasher salt key)

/-- The salt is hashed as its eight bytes, least significant first. -/
def pepper (hasher : Hasher) (salt : UInt64) : UInt64 :=
  hasher salt (toBytes 8 salt.toNat).reverse

/-- Bytes of an entry: offset, size and hash. -/
def entrySize : Nat := 6 + 6 + 6

/-- Bytes of a bucket with `n` entries: count, spill and entries. -/
def bucketSize (n : Nat) : Nat := 2 + 6 + n * entrySize

def bucketCapacity (blockSize : Nat) : Nat :=
  if blockSize < keyFileHeaderSize ∨ blockSize < 2 + 6 then 0
  else (blockSize - (2 + 6)) / entrySize

/-- The masks of the six rounds of `ceil_pow2` and the shift each of them decides. -/
def ceilPow2Rounds : List (Nat × Nat) :=
  [(0xFFFFFFFF00000000, 32), (0x00000000FFFF0000, 16), (0x000000000000FF00, 8),
    (0x00000000000000F0, 4), (0x000000000000000C, 2), (0x0000000000000002, 1)]

def ceilPow2Loop : List (Nat × Nat) → (x y : Nat) → Nat
  | [], _, y => 2 ^ y
  | (t, j) :: rounds, x, y =>
    let k := if x &&& t = 0 then 0 else j
    ceilPow2Loop rounds (x >>> k) (y + k)

/-- `ceil_pow2` for arguments up to `2 ^ 63`, above which the shift overflows. -/
def ceilPow2 (x : Nat) : Nat :=
  ceilPow2Loop ceilPow2Rounds x (if x &&& (x - 1) = 0 then 0 else 1)

def bucketIndex (h buckets modulus : Nat) : Nat :=
  let n := h % modulus
  if n ≥ buckets then n - modulus / 2 else n

theorem makeHash_lt (h : UInt64) : makeHash h < 256 ^ 6 := by
  unfold makeHash
  rw [UInt64.toNat_and]
  have hle : (h >>> 16).toNat &&& (0xffffffffffff : UInt64).toNat
      ≤ (0xffffffffffff : UInt64).toNat := Nat.and_le_right
  have hval : (0xffffffffffff : UInt64).toNat = 256 ^ 6 - 1 := by decide
  omega

theorem bucketSize_capacity_le {blockSize : Nat} (h : 0 < bucketCapacity blockSize) :
    bucketSize (bucketCapacity blockSize) ≤ blockSize := by
  unfold bucketCapacity at *
  unfold bucketSize entrySize keyFileHeaderSize at *
  split at h
  · exact absurd h (lt_irrefl 0)
  · rename_i hsize
    rw [if_neg hsize]
    omega

theorem keyFileHeaderSize_le {blockSize : Nat} (h : 0 < bucketCapacity blockSize) :
    keyFileHeaderSize ≤ blockSize := by
  unfold bucketCapacity at h
  split at h
  · exact absurd h (lt_irrefl 0)
  · omega

/-- A number below the bits of a mask has none of them. -/
theorem land_eq_zero_of_lt {x t j : Nat} (ht : 2 ^ j ∣ t) (hx : x < 2 ^ j) : x &&& t = 0 := by
  obtain ⟨m, rfl⟩ := ht
  rw [mul_comm, ← Nat.shiftLeft_eq]
  apply Nat.eq_of_testBit_eq
  intro i
  rw [Nat.testBit_and, Nat.testBit_shiftLeft, Nat.zero_testBit]
  by_cases hi : i < j
  · simp [hi]
  · have hxi : x.testBit i = false := by
      apply Nat.testBit_lt_two_pow
      exact hx.trans_le (Nat.pow_le_pow_right (by omega) (by omega))
    simp [hxi]

/-- A round never shifts out the leading bit: the mask holds only bits from `j` on. -/
theorem two_pow_ceilPow2Loop_le (rounds : List (Nat × Nat))
    (hmask : ∀ r ∈ rounds, 2 ^ r.2 ∣ r.1) {x y c : Nat} (hx : 0 < x) (h : x * 2 ^ y ≤ c) :
    ceilPow2Loop rounds x y ≤ c := by
  induction rounds generalizing x y with
  | nil =>
    show 2 ^ y ≤ c
    exact (Nat.le_mul_of_pos_left _ hx).trans h
  | cons r rounds ih =>
    obtain ⟨t, j⟩ := r
    have hrest := fun r hr => hmask r (List.mem_cons_of_mem _ hr)
    rw [ceilPow2Loop]
    by_cases ht : x &&& t = 0
    · simp only [ht, if_true, Nat.shiftRight_zero, Nat.add_zero]
      exact ih hrest hx h
    · simp only [ht, if_false]
      -- Some bit of `x` is in the mask, so `x` has a bit from `j` on.
      have hge : 2 ^ j ≤ x := by
        by_contra hlt
        exact ht (land_eq_zero_of_lt (hmask (t, j) List.mem_cons_self) (not_le.mp hlt))
      have hshift : x >>> j * 2 ^ j ≤ x := by
        rw [Nat.shiftRight_eq_div_pow]
        exact Nat.div_mul_le_self x _
      apply ih hrest
      · rw [Nat.shiftRight_eq_div_pow]
        exact Nat.div_pos hge (by positivity)
      · calc x >>> j * 2 ^ (y + j) = x >>> j * 2 ^ j * 2 ^ y := by rw [pow_add]; ring
          _ ≤ x * 2 ^ y := Nat.mul_le_mul_right _ hshift
          _ ≤ c := h

theorem ceilPow2_le {x : Nat} (hx : 0 < x) : ceilPow2 x ≤ 2 * x := by
  apply two_pow_ceilPow2Loop_le _ (by decide) hx
  split <;> omega

theorem exists_ceilPow2Loop_eq (rounds : List (Nat × Nat)) (x y : Nat) :
    ∃ k, ceilPow2Loop rounds x y = 2 ^ k := by
  induction rounds generalizing x y with
  | nil => exact ⟨y, rfl⟩
  | cons r rounds ih => exact ih _ _

theorem ceilPow2_eq_one_or_even (x : Nat) :
    ceilPow2 x = 1 ∨ ∃ m, 0 < m ∧ ceilPow2 x = m + m := by
  obtain ⟨k, hk⟩ : ∃ k, ceilPow2 x = 2 ^ k := exists_ceilPow2Loop_eq _ _ _
  cases k with
  | zero => exact .inl hk
  | succ k => exact .inr ⟨2 ^ k, by positivity, by rw [hk, pow_succ]; ring⟩

/-- Every hash has a bucket. -/
theorem bucketIndex_lt {buckets : Nat} (hb : 0 < buckets) (h : Nat) :
    bucketIndex h buckets (ceilPow2 buckets) < buckets := by
  have hle := ceilPow2_le hb
  unfold bucketIndex
  simp only
  rcases ceilPow2_eq_one_or_even buckets with hone | ⟨m, hm, heven⟩
  · rw [hone]
    split <;> omega
  · have hmod := Nat.mod_lt h (show 0 < m + m by omega)
    rw [heven] at hle ⊢
    split <;> omega

/-! ## Headers -/

/-- `read<T>` on a stream: the field and the rest of the stream. -/
def readField (w : Nat) (is : Bytes) : Nat × Bytes := (ofBytes (is.take w), is.drop w)

def readField64 (is : Bytes) : UInt64 × Bytes :=
  let f := readField 8 is
  (UInt64.ofNat f.1, f.2)

theorem readField_append {w n : Nat} (hn : n < 256 ^ w) (rest : Bytes) :
    readField w (toBytes w n ++ rest) = (n, rest) := by
  have htake : (toBytes w n ++ rest).take w = toBytes w n := by
    rw [List.take_append_of_le_length (by simp), List.take_of_length_le (by simp)]
  have hdrop : (toBytes w n ++ rest).drop w = rest := by
    rw [List.drop_append_of_le_length (by simp), List.drop_of_length_le (by simp), List.nil_append]
  rw [readField, htake, hdrop, ofBytes_toBytes_of_lt hn]

@[simp]
theorem readField64_append (n : UInt64) (rest : Bytes) :
    readField64 (toBytes 8 n.toNat ++ rest) = (n, rest) := by
  have hn : n.toNat < 256 ^ 8 := n.toNat_lt
  simp [readField64, readField_append hn]

def writeDatFileHeader (dh : DatFileHeader) : Bytes :=
  ascii "nudb.dat" ++ (toBytes 2 dh.version ++ (toBytes 8 dh.uid.toNat ++
    (toBytes 8 dh.appnum.toNat ++ (toBytes 2 dh.keySize ++ List.replicate 64 0))))

def readDatFileHeader (is : Bytes) : DatFileHeader :=
  let type := is.take 8
  let (version, is) := readField 2 (is.drop 8)
  let (uid, is) := readField64 is
  let (appnum, is) := readField64 is
  let (keySize, _) := readField 2 is
  ⟨type, version, uid, appnum, keySize⟩

def writeKeyFileHeader (kh : KeyFileHeader) : Bytes :=
  ascii "nudb.key" ++ (toBytes 2 kh.version ++ (toBytes 8 kh.uid.toNat ++
    (toBytes 8 kh.appnum.toNat ++ (toBytes 2 kh.keySize ++ (toBytes 8 kh.salt.toNat ++
    (toBytes 8 kh.pepper.toNat ++ (toBytes 2 kh.blockSize ++ (toBytes 2 kh.loadFactor ++
    List.replicate 56 0))))))))

/-- The number of blocks after the first. -/
def bucketsOfFileSize (fileSize blockSize : Nat) : Nat :=
  if fileSize > blockSize then
    if blockSize > 0 then (fileSize - blockSize) / blockSize else 0
  else 0

def readKeyFileHeader (fileSize : Nat) (is : Bytes) : KeyFileHeader :=
  let type := is.take 8
  let (version, is) := readField 2 (is.drop 8)
  let (uid, is) := readField64 is
  let (appnum, is) := readField64 is
  let (keySize, is) := readField 2 is
  let (salt, is) := readField64 is
  let (pepper, is) := readField64 is
  let (blockSize, is) := readField 2 is
  let (loadFactor, _) := readField 2 is
  let buckets := bucketsOfFileSize fileSize blockSize
  ⟨type, version, uid, appnum, keySize, salt, pepper, blockSize, loadFactor,
    bucketCapacity blockSize, buckets, ceilPow2 buckets⟩

theorem length_writeDatFileHeader (dh : DatFileHeader) :
    (writeDatFileHeader dh).length = datFileHeaderSize := by
  have htype : (ascii "nudb.dat").length = 8 := by decide
  simp [writeDatFileHeader, htype, datFileHeaderSize]

theorem length_writeKeyFileHeader (kh : KeyFileHeader) :
    (writeKeyFileHeader kh).length = keyFileHeaderSize := by
  have htype : (ascii "nudb.key").length = 8 := by decide
  simp [writeKeyFileHeader, htype, keyFileHeaderSize]

/-- What is written is read back, with the type of a data file. -/
theorem readDatFileHeader_write (dh : DatFileHeader) (hv : dh.version < 256 ^ 2)
    (hk : dh.keySize < 256 ^ 2) :
    readDatFileHeader (writeDatFileHeader dh) = { dh with type := ascii "nudb.dat" } := by
  have htype : (ascii "nudb.dat").length = 8 := by decide
  have htake : (writeDatFileHeader dh).take 8 = ascii "nudb.dat" := by
    rw [writeDatFileHeader, List.take_append_of_le_length htype.ge, List.take_of_length_le htype.le]
  have hdrop : (writeDatFileHeader dh).drop 8 = toBytes 2 dh.version ++ (toBytes 8 dh.uid.toNat ++
      (toBytes 8 dh.appnum.toNat ++ (toBytes 2 dh.keySize ++ List.replicate 64 0))) := by
    rw [writeDatFileHeader, List.drop_append_of_le_length htype.ge,
      List.drop_of_length_le htype.le, List.nil_append]
  simp only [readDatFileHeader, htake, hdrop, readField_append hv, readField_append hk,
    readField64_append]

/-- What is written is read back, with the values that are derived from the file's size. -/
theorem readKeyFileHeader_write (kh : KeyFileHeader) (hv : kh.version < 256 ^ 2)
    (hk : kh.keySize < 256 ^ 2) (hb : kh.blockSize < 256 ^ 2) (hl : kh.loadFactor < 256 ^ 2)
    (fileSize : Nat) :
    readKeyFileHeader fileSize (writeKeyFileHeader kh) =
      { kh with
        type := ascii "nudb.key"
        capacity := bucketCapacity kh.blockSize
        buckets := bucketsOfFileSize fileSize kh.blockSize
        modulus := ceilPow2 (bucketsOfFileSize fileSize kh.blockSize) } := by
  have htype : (ascii "nudb.key").length = 8 := by decide
  have htake : (writeKeyFileHeader kh).take 8 = ascii "nudb.key" := by
    rw [writeKeyFileHeader, List.take_append_of_le_length htype.ge, List.take_of_length_le htype.le]
  have hdrop : (writeKeyFileHeader kh).drop 8 = toBytes 2 kh.version ++ (toBytes 8 kh.uid.toNat ++
      (toBytes 8 kh.appnum.toNat ++ (toBytes 2 kh.keySize ++ (toBytes 8 kh.salt.toNat ++
      (toBytes 8 kh.pepper.toNat ++ (toBytes 2 kh.blockSize ++ (toBytes 2 kh.loadFactor ++
      List.replicate 56 0))))))) := by
    rw [writeKeyFileHeader, List.drop_append_of_le_length htype.ge,
      List.drop_of_length_le htype.le, List.nil_append]
  simp only [readKeyFileHeader, htake, hdrop, readField_append hv, readField_append hk,
    readField_append hb, readField_append hl, readField64_append]

/-- The blocks after the first are counted exactly when the file is made of whole blocks. -/
theorem bucketsOfFileSize_blocks {n blockSize : Nat} (h : 0 < blockSize) :
    bucketsOfFileSize ((n + 1) * blockSize) blockSize = n := by
  have hsub : (n + 1) * blockSize - blockSize = n * blockSize := by
    rw [add_mul, one_mul, Nat.add_sub_cancel]
  rw [bucketsOfFileSize, if_pos h]
  split
  · rw [hsub, Nat.mul_div_cancel n h]
  · rename_i hle
    cases n with
    | zero => rfl
    | succ n =>
      exfalso
      apply hle
      nlinarith

/-! ## Checks of the headers -/

def verifyDat (dh : DatFileHeader) : Except Stop Unit := do
  if dh.type ≠ ascii "nudb.dat" then throw (.ec .not_data_file)
  if dh.version ≠ currentVersion then throw (.ec .different_version)
  if dh.keySize < 1 then throw (.ec .invalid_key_size)

def verifyKey (hasher : Hasher) (kh : KeyFileHeader) : Except Stop Unit := do
  if kh.type ≠ ascii "nudb.key" then throw (.ec .not_key_file)
  if kh.version ≠ currentVersion then throw (.ec .different_version)
  if kh.keySize < 1 then throw (.ec .invalid_key_size)
  if kh.pepper ≠ pepper hasher kh.salt then throw (.ec .hash_mismatch)
  if kh.loadFactor < 1 then throw (.ec .invalid_load_factor)
  if kh.capacity < 1 then throw (.ec .invalid_capacity)
  if kh.buckets < 1 then throw (.ec .invalid_bucket_count)

/-- The key file header on its own, then against the data file header. -/
def verify (hasher : Hasher) (dh : DatFileHeader) (kh : KeyFileHeader) : Except Stop Unit := do
  verifyKey hasher kh
  if kh.uid ≠ dh.uid then throw (.ec .uid_mismatch)
  if kh.appnum ≠ dh.appnum then throw (.ec .appnum_mismatch)
  if kh.keySize ≠ dh.keySize then throw (.ec .key_size_mismatch)

end Metcalfe.Nudb
