import Metcalfe.Nudb.Chain
import Metcalfe.Nudb.DiskBulk
import Metcalfe.Nudb.Handle

/-!
# Buckets in the files of a store

The two ways in which `bucket_t` is read: as a block of `bucket_size(capacity)` bytes at a
position of a file, and from a `bulk_reader` without the entries that are not there. The second
leaves in the bucket what it has read before it fails.
-/

namespace Metcalfe.Nudb

open BigEndian Durable Stateful Outcome

namespace Disk

/-- `bucket_t::read(File&, ..)`. -/
def readBucket (blockSize : Nat) (nm : Name) (offset : Nat) : Act Bucket := do
  let p ← read nm offset (bucketSize (bucketCapacity blockSize))
  let b := Bucket.ofBlob blockSize p
  if b.size > bucketCapacity blockSize then throw (.stop (.ec .invalid_bucket_size))
  pure b

/-- `bucket_t::read(bulk_reader&, ..)`, with the error code. -/
def readFrom (nm : Name) (b : Bucket) (r : BulkReader) :
    Act (Bucket × BulkReader × Option Halt) := do
  match ← attempt Halt.isCode (r.take nm (2 + 6)) with
  | .error h => pure (b, r, some h)
  | .ok (is, r) =>
    let (size, is) := readField 2 is
    let (spill, _) := readField 6 is
    let b ← lift .stop (Bucket.update true { b with size := size, spill := spill })
    match ← attempt Halt.isCode (r.take nm (b.size * entrySize)) with
    | .error h => pure (b, r, some h)
    | .ok (es, r) => pure ({ b with p := splice b.p 8 es }, r, none)

/-- A bucket that is in a file. -/
theorem readBucket_leads {blockSize offset spill : Nat} {nm : Name} {d : Disk} {es : List Entry}
    {post : Bytes} (hblock : blockSize < 2 ^ 16) (hcap : 0 < bucketCapacity blockSize)
    (hle : offset + bucketSize (bucketCapacity blockSize) ≤ (d.files.bytes nm).length)
    (hslice : slice (d.files.bytes nm) offset (bucketSize (bucketCapacity blockSize)) =
      encode es spill ++ post)
    (hlen : es.length ≤ bucketCapacity blockSize) (hspill : spill < 256 ^ 6) :
    Leads (readBucket blockSize nm offset) d
      (fun b d' => b.Shows blockSize es spill ∧ d'.files = d.files) (Kept d) := by
  have hcount : es.length < 256 ^ 2 := by
    have hsize := bucketSize_le_of_le hcap hlen
    unfold bucketSize entrySize at hsize
    omega
  unfold readBucket
  refine (read_leads hle).bind fun p d' hp => ?_
  have hshow : (Bucket.ofBlob blockSize p).Shows blockSize es spill :=
    Bucket.shows_ofBlob (hp.1.trans hslice) hcount hspill
  dsimp only
  rw [if_neg (by rw [hshow.count]; omega)]
  exact leads_pure ⟨hshow, hp.2⟩

theorem frames_readFrom (nm : Name) (b : Bucket) (r : BulkReader) :
    Frames faults (readFrom nm b r) := by
  refine (r.frames_take nm _).attempt.bind fun x => ?_
  cases x with
  | error h => exact frames_pure _
  | ok x =>
    refine (frames_lift _ _).bind fun b => ?_
    refine (BulkReader.frames_take nm _ _).attempt.bind fun y => ?_
    cases y with
    | error h => exact frames_pure _
    | ok y => exact frames_pure _

section ReadFrom

variable {nm : Name} {b : Bucket} {r : BulkReader} {d : Disk} {es : List Entry} {spill : Nat}
  {s : Bytes}

/-- `prepare`, when there are that many bytes; an error is one that was scheduled. -/
theorem attempt_take_leads {a : Bytes} (h : r.Ahead (d.files.bytes nm) (a ++ s)) :
    Leads (attempt Halt.isCode (r.take nm a.length)) d
      (fun x d' => d'.files = d.files ∧ d'.faults = d.faults ∧
        Ends x (fun y => y.1 = a ∧ y.2.Ahead (d.files.bytes nm) s) (Reported d))
      (fun _ d' => d'.files = d.files) := by
  have htake := leads_attempt_kept (R := fun y => y.1 = a ∧ y.2.Ahead (d.files.bytes nm) s)
    ((BulkReader.take_leads h).mono (fun _ _ h => ⟨⟨h.1, h.2.1⟩, h.2.2⟩) fun _ _ h => h)
  exact (htake.and_frames (BulkReader.frames_take nm r _).attempt).mono
    (fun _ _ h => ⟨h.1.1, h.2, h.1.2⟩) fun _ _ h => h.1

/-- `prepare`, when the file ends before. -/
theorem attempt_take_short {needed : Nat} (h : r.Ahead (d.files.bytes nm) s)
    (hs : s.length < needed) :
    attempt Halt.isCode (r.take nm needed) d = .ok (.error (.stop (.ec .short_read))) d := by
  unfold attempt
  rw [BulkReader.take_short h hs]
  rfl

/-- The count and the spill pointer, once they are read. -/
theorem readFrom_head (hlen : es.length < 256 ^ 2) (hspill : spill < 256 ^ 6) :
    (let (size, is) := readField 2 (toBytes 2 es.length ++ toBytes 6 spill)
      let (spill, _) := readField 6 is
      Bucket.update true { b with size := size, spill := spill }) =
    .ok ⟨b.blockSize, es.length, spill,
      (toBytes 2 es.length ++ toBytes 6 spill) ++ b.p.drop 8⟩ := by
  have hfield := readField_append hspill []
  rw [List.append_nil] at hfield
  simp only [readField_append hlen, hfield]
  unfold Bucket.update
  rw [writeField_of_lt hlen, writeField_of_lt hspill]
  simp [bind, Except.bind, pure, Except.pure, splice]

/-- A bucket that is ahead is read, or else an error was scheduled. -/
theorem readFrom_leads (h : r.Ahead (d.files.bytes nm) (encode es spill ++ s))
    (hlen : es.length < 256 ^ 2) (hspill : spill < 256 ^ 6) :
    Leads (readFrom nm b r) d
      (fun x d' => d'.files = d.files ∧ x.1.blockSize = b.blockSize ∧ match x.2.2 with
        | none => x.1.Shows b.blockSize es spill ∧ x.2.1.Ahead (d.files.bytes nm) s
        | some e => Reported d e)
      (fun _ d' => d'.files = d.files) := by
  have hhead : (toBytes 2 es.length ++ toBytes 6 spill).length = 2 + 6 := by simp
  rw [encode, List.append_assoc] at h
  have htake := attempt_take_leads h
  rw [hhead] at htake
  unfold readFrom
  refine htake.bind fun x d₁ hx => ?_
  obtain ⟨hfiles, hfaults, hx⟩ := hx
  cases x with
  | error e => exact leads_pure ⟨hfiles, rfl, hx⟩
  | ok x =>
    obtain ⟨is, r'⟩ := x
    obtain ⟨rfl, hr⟩ := hx
    have hupdate := readFrom_head (b := b) hlen hspill
    dsimp only at hupdate ⊢
    rw [hupdate, lift_ok_bind]
    have hbytes := Entry.length_flatMap_encode es
    rw [← hfiles] at hr
    have htake' := attempt_take_leads hr
    rw [hbytes] at htake'
    refine (htake'.mono (fun _ _ h => h) fun _ _ h => h.trans hfiles).bind fun y d₂ hy => ?_
    obtain ⟨hfiles', hfaults', hy⟩ := hy
    cases y with
    | error e => exact leads_pure ⟨hfiles'.trans hfiles, rfl, Reported.of_eq hy hfaults⟩
    | ok y =>
      obtain ⟨bytes, r''⟩ := y
      obtain ⟨rfl, hr'⟩ := hy
      refine leads_pure ⟨hfiles'.trans hfiles, rfl, ⟨rfl, rfl, rfl, ?_⟩, by rwa [← hfiles]⟩
      refine ⟨(b.p.drop 8).drop (es.flatMap Entry.encode).length, ?_⟩
      show splice ((toBytes 2 es.length ++ toBytes 6 spill) ++ b.p.drop 8) 8 _ = _
      have hlen8 : (toBytes 2 es.length ++ toBytes 6 spill).length = 8 := by simp
      have hzero : 8 - ((toBytes 2 es.length ++ toBytes 6 spill) ++ b.p.drop 8).length = 0 := by
        rw [List.length_append, hlen8]
        omega
      rw [splice, hzero, List.take_left' hlen8, ← List.drop_drop, List.drop_left' hlen8, encode]
      simp only [List.replicate_zero, List.append_nil, List.append_assoc]

/-- A part of a bucket is not taken for a bucket. -/
theorem readFrom_torn (h : r.Ahead (d.files.bytes nm) s) (hs : s <+: encode es spill)
    (hshort : s.length < (encode es spill).length) (hlen : es.length < 256 ^ 2)
    (hspill : spill < 256 ^ 6) :
    Leads (readFrom nm b r) d
      (fun x d' => d'.files = d.files ∧
        (x.2.2 = some (.stop (.ec .short_read)) ∨ Failing d))
      (fun _ d' => d'.files = d.files) := by
  have hhead : (toBytes 2 es.length ++ toBytes 6 spill).length = 2 + 6 := by simp
  unfold readFrom
  by_cases hlt : s.length < 2 + 6
  · exact leads_bind_of_eq_ok (attempt_take_short h hlt) (leads_pure ⟨rfl, .inl rfl⟩)
  · have hpre : toBytes 2 es.length ++ toBytes 6 spill <+: s := by
      apply List.prefix_of_prefix_length_le (List.prefix_append _ (es.flatMap Entry.encode)) hs
      omega
    obtain ⟨t, rfl⟩ := hpre
    have htake := attempt_take_leads h
    rw [hhead] at htake
    refine htake.bind fun x d₁ hx => ?_
    obtain ⟨hfiles, hfaults, hx⟩ := hx
    cases x with
    | error e => exact leads_pure ⟨hfiles, .inr (Reported.failing hx)⟩
    | ok x =>
      obtain ⟨is, r'⟩ := x
      obtain ⟨rfl, hr⟩ := hx
      have hupdate := readFrom_head (b := b) hlen hspill
      dsimp only at hupdate ⊢
      rw [hupdate, lift_ok_bind]
      have hbytes := Entry.length_flatMap_encode es
      have ht : t.length < es.length * entrySize := by
        simp only [encode, List.length_append, length_toBytes, hbytes] at hshort
        omega
      rw [← hfiles] at hr
      exact leads_bind_of_eq_ok (attempt_take_short hr ht) (leads_pure ⟨hfiles, .inl rfl⟩)

end ReadFrom

end Disk

end Metcalfe.Nudb
