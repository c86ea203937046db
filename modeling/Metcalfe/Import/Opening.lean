import Metcalfe.Import.Run
import Metcalfe.Nudb.Store

/-!
# The key file as NuDB reads it

The number of buckets is not stored. The importer computes it from the number of records and
writes one block for each bucket; NuDB divides the size of the file by the block size. The two
agree for every division into passes, and the headers pass NuDB's checks, unless there is no
record: then there is no bucket, and NuDB takes the key file for invalid
(`invalid_bucket_count`). A fresh database made by `create` has one empty bucket.
-/

namespace Metcalfe.Import

open BigEndian Nudb Outcome

/-- NuDB's reader accepts the two headers and derives the bucket count and the modulus that the
keys were placed with. -/
def OpensAsPlaced (hasher : Hasher) (out : Imported) : Prop :=
  ∃ dh kh, readDatHeader out.dat = .ok dh ∧ readKeyHeader out.key = .ok kh ∧
    verify hasher dh kh = .ok () ∧ kh.buckets = out.kh.buckets ∧ kh.modulus = out.kh.modulus

variable {env : Env} {it : Iterator} {records : List Record} {out : Imported}

theorem bucketCount_pos_iff (n : Nat) : 0 < env.bucketCount n ↔ 0 < n := by
  unfold Env.bucketCount
  constructor
  · intro h
    by_contra hn
    have hzero : n = 0 := by omega
    subst hzero
    simp [env.capacity_pos] at h
  · intro h
    have hpos := Rounding.ofNat_pos (p := 24) (by decide) h
    exact Rounding.ceilDiv_pos (by decide) (by omega) env.capacity_pos

theorem Laid.readDatHeader (h : Laid env records out) :
    readDatHeader out.dat = .ok { env.datFileHeader with type := ascii "nudb.dat" } := by
  obtain ⟨t, ht⟩ := h.grown
  have hlen := length_writeDatFileHeader env.datFileHeader
  have hcat : out.dat = writeDatFileHeader env.datFileHeader ++
      (((records.map (stored env)).flatMap fun r => dataRecord r.1 r.2) ++ t) := by
    rw [← ht, dataSection, List.append_assoc]
  have hle : 0 + datFileHeaderSize ≤ out.dat.length := by
    rw [hcat, List.length_append, hlen]
    omega
  have hread : slice out.dat 0 datFileHeaderSize = writeDatFileHeader env.datFileHeader := by
    rw [hcat, slice_start hlen]
  have hrt := readDatFileHeader_write env.datFileHeader (by show (2 : Nat) < _; decide)
    (by show (32 : Nat) < _; decide)
  rw [Nudb.readDatHeader, readAt_of_le hle, hread]
  exact congrArg Except.ok hrt

theorem Laid.readKeyHeader (h : Laid env records out) :
    readKeyHeader out.key = .ok { out.kh with type := ascii "nudb.key" } := by
  obtain ⟨t, ht⟩ := h.header
  have hlen := length_writeKeyFileHeader out.kh
  have hblock := keyFileHeaderSize_le env.capacity_pos
  have hcat : out.key = writeKeyFileHeader out.kh ++
      (List.replicate (env.blockSize - keyFileHeaderSize) 0 ++ t) := by
    rw [← ht, headerBlock_eq, List.append_assoc]
  have hle : 0 + keyFileHeaderSize ≤ out.key.length := by
    rw [hcat, List.length_append, hlen]
    omega
  have hread : slice out.key 0 keyFileHeaderSize = writeKeyFileHeader out.kh := by
    rw [hcat, slice_start hlen]
  have hsize : bucketsOfFileSize out.key.length env.blockSize = out.kh.buckets := by
    rw [h.key_length]
    apply bucketsOfFileSize_blocks
    have : 0 < keyFileHeaderSize := by decide
    omega
  rw [Nudb.readKeyHeader, readAt_of_le hle, hread]
  refine congrArg Except.ok ?_
  rw [h.kh] at hsize ⊢
  have hrt := readKeyFileHeader_write (env.keyFileHeader records.length)
    (by show (2 : Nat) < _; decide) (by show (32 : Nat) < _; decide) env.blockSize_lt
    (by show (32768 : Nat) < _; decide) out.key.length
  rw [hrt]
  show KeyFileHeader.mk _ _ _ _ _ _ _ _ _ _ (bucketsOfFileSize _ env.blockSize)
    (ceilPow2 (bucketsOfFileSize _ env.blockSize)) = _
  rw [hsize]
  rfl

/-- The checks of the headers come down to the number of buckets. -/
theorem Laid.verify (h : Laid env records out) :
    verify env.hasher { env.datFileHeader with type := ascii "nudb.dat" }
        { out.kh with type := ascii "nudb.key" } =
      if out.kh.buckets < 1 then .error (.ec .invalid_bucket_count) else .ok () := by
  have hcap : ¬ env.capacity < 1 := not_lt.mpr env.capacity_pos
  rw [h.kh]
  by_cases hb : env.bucketCount records.length < 1
  · simp [Nudb.verify, verifyKey, Env.keyFileHeader, Env.datFileHeader, hcap, hb]
    rfl
  · simp [Nudb.verify, verifyKey, Env.keyFileHeader, Env.datFileHeader, hcap, hb]
    rfl

/-- The store that NuDB opens on the files. -/
def Imported.store (out : Imported) (hasher : Hasher) : Store where
  hasher := hasher
  dat := out.dat
  key := out.key
  kh := { out.kh with type := ascii "nudb.key" }
  buckets := out.kh.buckets
  modulus := ceilPow2 out.kh.buckets

theorem Laid.buckets_pos (h : Laid env records out) (hne : records ≠ []) : 0 < out.kh.buckets := by
  rw [h.kh]
  exact (bucketCount_pos_iff _).mpr (List.length_pos_iff.mpr hne)

theorem Laid.open_ (h : Laid env records out) (hne : records ≠ []) :
    Store.open_ env.hasher out.dat out.key = .ok (out.store env.hasher) := by
  have hpos := h.buckets_pos hne
  have hverify := h.verify
  rw [if_neg (by omega)] at hverify
  have hdat : verifyDat { env.datFileHeader with type := ascii "nudb.dat" } = .ok () := rfl
  have hkey : verifyKey env.hasher { out.kh with type := ascii "nudb.key" } = .ok () := by
    cases hk : verifyKey env.hasher { out.kh with type := ascii "nudb.key" } with
    | ok u => rfl
    | error e => simp [Nudb.verify, hk, bind, Except.bind] at hverify
  unfold Store.open_
  rw [h.readDatHeader, h.readKeyHeader]
  simp only [bind, Except.bind, hdat, hkey, hverify]
  rw [if_neg (show ¬ out.kh.buckets < 1 by omega)]
  rfl

/-- What NuDB derives from the files is what the importer used, exactly when there is a record. -/
theorem opens_iff (h : run env it = .ok out) :
    OpensAsPlaced env.hasher out ↔ it.records ≠ [] := by
  have hlaid := (run_ends it).of_ok h
  constructor
  · intro hopens hnil
    obtain ⟨dh, kh, hdat, hkey, hverify, -⟩ := hopens
    rw [hlaid.readDatHeader] at hdat
    rw [hlaid.readKeyHeader] at hkey
    cases hdat
    cases hkey
    have hzero : out.kh.buckets < 1 := by
      by_contra hge
      rw [hlaid.kh] at hge
      have hpos : 0 < it.records.length := (bucketCount_pos_iff _).mp (not_lt.mp hge)
      rw [hnil] at hpos
      exact lt_irrefl 0 hpos
    rw [hlaid.verify, if_pos hzero] at hverify
    cases hverify
  · intro hne
    have hpos := hlaid.buckets_pos hne
    refine ⟨_, _, hlaid.readDatHeader, hlaid.readKeyHeader, ?_, rfl, rfl⟩
    rw [hlaid.verify, if_neg (by omega)]

/-- A codec that puts a zero in front of a value. -/
def markCodec : Codec where
  filterInner v := v
  compress v := if v.length < 2 ^ 31 then .ok (0 :: v) else .error "value too large"
  decompress out := .ok out.tail
  compress_pos := by
    intro v out h
    split at h <;> cases h
    simp
  compress_lt := by
    intro v out h
    split at h
    · cases h
      simp only [List.length_cons]
      omega
    · cases h

/-- A run in which nothing fails, with buckets of six entries. -/
def quietEnv (bufferSize : Nat) : Env where
  bufferSize := bufferSize
  blockSize := 128
  blockSize_lt := by decide
  capacity_pos := by decide
  uid := 7
  salt := 11
  hasher := fun _ b => UInt64.ofNat (65536 * (b.headD 0).toNat)
  codec := markCodec
  asserts := false
  datFaults := fun _ => none
  keyFaults := fun _ => none

/-- The record whose key is made of 32 bytes `b`. -/
def plainRecord (b : UInt8) : Record := (List.replicate 32 b, [b, b])

theorem opens_iff_one_record :
    ∃ out, run (quietEnv 128) ⟨[plainRecord 5], true⟩ = .ok out ∧
      (OpensAsPlaced (quietEnv 128).hasher out ↔ [plainRecord 5] ≠ []) := by
  obtain ⟨out, hrun, -⟩ := exists_ok_of_any (x := run (quietEnv 128) ⟨[plainRecord 5], true⟩)
    (p := fun _ => true) (by decide +kernel)
  exact ⟨out, hrun, opens_iff hrun⟩

/-- Reads the two headers and checks them against each other. -/
def checkHeaders (hasher : Hasher) (out : Imported) : Except Stop Unit := do
  let dh ← readDatHeader out.dat
  let kh ← readKeyHeader out.key
  Nudb.verify hasher dh kh

/-- Without a record, the key file is the header block alone. -/
theorem empty_import_rejected :
    ∃ out, run (quietEnv 128) ⟨[], true⟩ = .ok out ∧ ¬ OpensAsPlaced (quietEnv 128).hasher out := by
  obtain ⟨out, hrun, hcheck⟩ := exists_ok_of_any (x := run (quietEnv 128) ⟨[], true⟩)
    (p := fun out => (checkHeaders (quietEnv 128).hasher out).toOption.isNone) (by decide +kernel)
  refine ⟨out, hrun, fun hopens => ?_⟩
  obtain ⟨dh, kh, hdat, hkey, hverify, -⟩ := hopens
  have hok : checkHeaders (quietEnv 128).hasher out = .ok () := by
    simp [checkHeaders, bind, Except.bind, hdat, hkey, hverify]
  rw [hok] at hcheck
  cases hcheck

end Metcalfe.Import
