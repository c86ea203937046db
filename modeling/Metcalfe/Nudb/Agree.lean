import Metcalfe.Nudb.Lookup
import Metcalfe.Nudb.Open

/-!
# The files of a store and the files as byte strings

Some functions of the source are modelled twice. `Nudb.BulkIo`, `Nudb.Chain` and `Nudb.Store` have
them for one file that the computation owns, or for files that are only read; `Nudb.DiskBulk`,
`Nudb.Split`, `Nudb.Headers` and `Nudb.Open` for the three files of a store, which outlive the
computation. Here the second follow the first: from the same bytes, and with the same failures of
the calls, they return the same, or stop for the same reason. A writer and a spill agree for every
schedule of failures (`maybeSpill_follows`), what only reads agrees where no call fails
(`open_follows`).

A lookup is modelled twice as well: as the loops of `fetch` over files that stay as they are, and
round by round while the data file grows. The rounds end with what the loops return
(`Walk.fetchFrom_ends`).
-/

namespace Metcalfe.Nudb

open BigEndian Durable Stateful Outcome

/-! ## A file that is written -/

/-- The file `nm` has the bytes of `f`, and of its calls those fail that fail for `f`, with the
same error numbers. -/
structure Same (nm : Name) (f : File) (d : Disk) : Prop where
  bytes : d.files.bytes nm = f.bytes
  faults : ∀ i, (d.faults (d.ops + i)).map Fault.errno = (f.faults (f.ops + i)).map some

section Calls

variable {nm : Name} {f : File} {d : Disk} {α β : Type}

/-- After a call. -/
theorem Same.next (h : Same nm f d) {fs : Files} {bytes : Bytes} (hbytes : fs.bytes nm = bytes) :
    Same nm { f with bytes := bytes, ops := f.ops + 1 }
      { d with ops := d.ops + 1, files := fs } := by
  refine ⟨hbytes, fun i => ?_⟩
  show (d.faults (d.ops + 1 + i)).map _ = (f.faults (f.ops + 1 + i)).map _
  rw [add_assoc, add_assoc]
  exact h.faults (1 + i)

/-- A call fails where the other does, and otherwise each does what it is for. -/
theorem syscall_follows (h : Same nm f d) {torn : Nat → Files → Files}
    {call : Files → Except Halt (α × Files)} {g : File → Except Stop β} {R : α → Disk → β → Prop}
    (hcall : match call d.files, g { f with ops := f.ops + 1 } with
      | .ok (a, fs), .ok b => R a { d with ops := d.ops + 1, files := fs } b
      | .error e, .error t => e = .stop t
      | _, _ => False) :
    Follows .stop (Disk.syscall torn call) d (f.call >>= g) R := by
  have hfault := h.faults 0
  rw [add_zero, add_zero] at hfault
  unfold File.call
  cases hf : f.faults f.ops with
  | some errno =>
    rw [hf] at hfault
    obtain ⟨fault, hd, herrno⟩ := Option.map_eq_some_iff.mp hfault
    show Leads (Disk.syscall torn call) d _ fun e _ => e = .stop (.ec (.system errno))
    unfold Leads Disk.syscall Fault.halt
    simp only [hd, herrno]
  | none =>
    rw [hf] at hfault
    have hd : d.faults d.ops = none := Option.map_eq_none_iff.mp hfault
    show Follows Halt.stop _ d (g { f with ops := f.ops + 1 }) R
    unfold Follows Leads Disk.syscall
    simp only [hd]
    cases hg : g { f with ops := f.ops + 1 } with
    | ok b =>
      rw [hg] at hcall
      cases hc : call d.files <;> rwa [hc] at hcall
    | error t =>
      rw [hg] at hcall
      cases hc : call d.files <;> rwa [hc] at hcall

theorem read_follows (h : Same nm f d) (offset n : Nat) :
    Follows .stop (Disk.read nm offset n) d (f.read offset n)
      fun a d' x => a = x.1 ∧ Same nm x.2 d' := by
  unfold Disk.read File.read
  by_cases hn : n = 0
  · simp only [hn, if_true]
    exact follows_pure ⟨rfl, h⟩
  · simp only [hn, if_false]
    apply syscall_follows h
    rw [h.bytes]
    by_cases hlen : f.bytes.length < offset + n
    · simp only [hlen, if_true]
      rfl
    · simp only [hlen, if_false]
      exact ⟨rfl, h.next h.bytes⟩

theorem write_follows (h : Same nm f d) (offset : Nat) (data : Bytes) :
    Follows .stop (Disk.write nm offset data) d (f.write offset data)
      fun _ d' f' => Same nm f' d' := by
  unfold Disk.write File.write
  by_cases hdata : data = []
  · simp only [hdata, if_true]
    exact follows_pure h
  · simp only [hdata, if_false]
    refine syscall_follows h (h.next ?_)
    rw [Files.bytes_put, Media.bytes_change, ← h.bytes]
    rfl

end Calls

/-! ## Buffers -/

/-- The buffers are in the same state, and so are their files. -/
structure Pairs (nm : Name) (w : Writer) (v : BulkWriter) (d : Disk) : Prop where
  offset : w.offset = v.offset
  pending : w.pending = v.pending
  bufSize : w.bufSize = v.bufSize
  same : Same nm v.file d

section Buffers

variable {nm : Name} {w : Writer} {v : BulkWriter} {f : File} {d : Disk}

theorem Pairs.position (h : Pairs nm w v d) : w.position = v.position := by
  unfold Writer.position BulkWriter.position
  rw [h.offset, h.pending]

theorem Pairs.put (h : Pairs nm w v d) (data : Bytes) : Pairs nm (w.put data) (v.put data) d :=
  ⟨h.offset, congrArg (· ++ data) h.pending, h.bufSize, h.same⟩

theorem flush_follows (h : Pairs nm w v d) :
    Follows .stop (w.flush nm) d v.flush fun w' d' v' => Pairs nm w' v' d' := by
  unfold Writer.flush BulkWriter.flush
  rw [h.pending, h.offset]
  by_cases hp : v.pending = []
  · simp only [hp, if_true]
    exact follows_pure h
  · simp only [hp, if_false]
    refine (write_follows h.same _ _).bind fun _ d' f' hf => follows_pure ?_
    exact ⟨rfl, rfl, h.bufSize, hf⟩

theorem prepare_follows (h : Pairs nm w v d) (needed : Nat) :
    Follows .stop (w.prepare nm needed) d (v.prepare needed) fun w' d' v' => Pairs nm w' v' d' := by
  unfold Writer.prepare BulkWriter.prepare
  rw [h.pending, h.bufSize]
  dsimp only
  split
  · refine (flush_follows h).bind fun w' d' v' hw => follows_pure ?_
    exact ⟨hw.offset, hw.pending, by rw [hw.bufSize], hw.same⟩
  · exact follows_pure ⟨h.offset, h.pending, by rw [h.bufSize], h.same⟩

theorem take_follows (h : Same nm f d) (r : BulkReader) (needed : Nat) :
    Follows .stop (r.take nm needed) d (r.prepare f needed)
      fun x d' y => x = (y.1, y.2.1) ∧ Same nm y.2.2 d' := by
  unfold BulkReader.take BulkReader.prepare
  by_cases hwindow : needed > r.window.length
  · rw [if_pos hwindow, if_pos hwindow]
    by_cases hlast : r.offset + needed - r.window.length > r.last
    · rw [if_pos hlast]
      simp only [hlast, if_true]
      exact follows_throw _
    · rw [if_neg hlast]
      simp only [hlast, if_false]
      refine (read_follows h _ _).bind fun data d' x hx => follows_pure ?_
      rw [hx.1]
      exact ⟨rfl, hx.2⟩
  · rw [if_neg hwindow, if_neg hwindow]
    exact follows_pure ⟨rfl, h⟩

theorem maybeSpill_follows (h : Pairs .dat w v d) (b : Bucket) :
    Follows .stop (Disk.maybeSpill b w) d (maybeSpill true b v)
      fun x d' y => x.1 = y.1 ∧ Pairs .dat x.2 y.2 d' := by
  unfold Disk.maybeSpill maybeSpill
  by_cases hfull : b.full = true
  · rw [if_pos hfull, if_pos hfull]
    refine (prepare_follows h _).bind fun w' d' v' hw => ?_
    refine (follows_lift _ _ d').bind fun zero d₁ zero' hzero => ?_
    obtain ⟨rfl, rfl⟩ := hzero
    refine (follows_lift _ _ d₁).bind fun size d₂ size' hsize => ?_
    obtain ⟨rfl, rfl⟩ := hsize
    rw [h.position]
    refine (follows_lift _ _ d₂).bind fun b₁ d₃ b₂ hb => follows_pure ?_
    obtain ⟨rfl, rfl⟩ := hb
    exact ⟨rfl, hw.put _⟩
  · rw [if_neg hfull, if_neg hfull]
    exact follows_pure ⟨rfl, h⟩

end Buffers

/-! ## Files that are read -/

/-- The files are `fs`, and no call on them fails. -/
structure Calm (fs : Files) (d : Disk) : Prop where
  files : d.files = fs
  faults : ∀ k, d.faults k = none

section Reading

variable {nm : Name} {fs : Files} {d : Disk} {α : Type}

theorem Calm.not_faulty (h : Calm fs d) (e : Halt) : ¬ d.Faulty e := by
  rintro ⟨k, f, hk, -⟩
  rw [h.faults k] at hk
  cases hk

theorem Calm.of_eq {d' : Disk} (h : Calm fs d) {fs' : Files} (hfiles : d'.files = fs')
    (hfaults : d'.faults = d.faults) : Calm fs' d' := by
  refine ⟨hfiles, fun k => ?_⟩
  rw [hfaults]
  exact h.faults k

/-- A call that only reads. -/
theorem Calm.reads (h : Calm fs d) {x : Act α} {Q : α → Prop}
    (hx : Leads x d (fun a d' => Q a ∧ d'.files = d.files) (Disk.Kept d))
    (hf : Frames Disk.faults x) : Leads x d (fun a d' => Q a ∧ Calm fs d') fun _ _ => False :=
  (hx.and_frames hf).mono (fun _ _ h' => ⟨h'.1.1, h.of_eq (h'.1.2.trans h.files) h'.2⟩)
    fun e _ h' => h.not_faulty e h'.1.1

theorem size_leads_calm (h : Calm fs d) (nm : Name) :
    Leads (Disk.size nm) d (fun n d' => n = (fs.bytes nm).length ∧ Calm fs d')
      fun _ _ => False := by
  rw [← h.files]
  exact Calm.reads (h.of_eq rfl rfl) (Disk.size_leads d nm) (Disk.frames_size nm)

theorem open_leads_calm (h : Calm fs d) (hfile : (fs nm).isSome = true) :
    Leads (Disk.open_ nm) d (fun _ d' => Calm fs d') fun _ _ => False := by
  rw [← h.files] at hfile
  exact (h.reads (Q := fun _ => True)
    ((Disk.open_leads hfile).mono (fun _ _ h => ⟨trivial, h⟩) fun _ _ h => h)
    (Disk.frames_open nm)).mono (fun _ _ h => h.2) fun _ _ h => h

theorem create_leads_calm (h : Calm fs d) (hfile : fs nm = none) :
    Leads (Disk.create nm) d (fun _ d' => Calm (fs.put nm (Media.clean [])) d')
      fun _ _ => False := by
  have hcreate := (Disk.create_leads (h.files ▸ hfile)).and_frames
    (Disk.frames_whole (fun fs => if (fs nm).isSome then .error (.code .file_exists)
      else .ok ((), fs.put nm (Media.clean []))))
  refine hcreate.mono (fun _ _ h' => h.of_eq ?_ h'.2) fun e _ h' => h.not_faulty e h'.1.1
  rw [h'.1, h.files]

theorem readAt_follows (h : Calm fs d) (nm : Name) (offset n : Nat) :
    Follows .stop (Disk.read nm offset n) d (readAt (fs.bytes nm) offset n)
      fun a d' b => a = b ∧ Calm fs d' := by
  unfold readAt
  by_cases hshort : 0 < n ∧ (fs.bytes nm).length < offset + n
  · rw [if_pos hshort]
    rw [← h.files] at hshort
    exact (Disk.read_short_leads (by omega) hshort.2).mono (fun _ _ h' => h')
      fun e _ h' => h'.1.resolve_left (h.not_faulty e)
  · rw [if_neg hshort]
    by_cases hn : n = 0
    · subst hn
      unfold Disk.read
      rw [if_pos rfl]
      exact follows_pure ⟨by simp [slice], h⟩
    · rw [← h.files] at hshort ⊢
      exact Calm.reads (h.of_eq rfl rfl) (Disk.read_leads (by omega)) (Disk.frames_read _ _ _)

theorem readBucket_follows (h : Calm fs d) (nm : Name) (blockSize offset : Nat) :
    Follows .stop (Disk.readBucket blockSize nm offset) d
      (Bucket.read blockSize (fs.bytes nm) offset) fun a d' b => a = b ∧ Calm fs d' := by
  unfold Disk.readBucket Bucket.read
  refine (readAt_follows h _ _ _).bind fun p d' p' hp => ?_
  obtain ⟨rfl, hcalm⟩ := hp
  by_cases hsize : (Bucket.ofBlob blockSize p).size > bucketCapacity blockSize
  · simp only [hsize, if_true]
    exact follows_throw _
  · simp only [hsize, if_false]
    exact follows_pure ⟨rfl, hcalm⟩

theorem readDatHeader_follows (h : Calm fs d) :
    Follows .stop Disk.readDatHeader d (readDatHeader (fs.bytes .dat))
      fun a d' b => a = b ∧ Calm fs d' := by
  refine (readAt_follows h _ _ _).bind fun buf d' buf' hbuf => follows_pure ?_
  obtain ⟨rfl, hcalm⟩ := hbuf
  exact ⟨rfl, hcalm⟩

theorem readKeyHeader_follows (h : Calm fs d) :
    Follows .stop Disk.readKeyHeader d (readKeyHeader (fs.bytes .key))
      fun a d' b => a = b ∧ Calm fs d' := by
  refine (readAt_follows h _ _ _).bind fun buf d₁ buf' hbuf => ?_
  obtain ⟨rfl, h₁⟩ := hbuf
  refine Follows.first (size_leads_calm h₁ .key) fun size d₂ h₂ => follows_pure ?_
  obtain ⟨rfl, hcalm⟩ := h₂
  exact ⟨rfl, hcalm⟩

/-- There is no log. -/
theorem recoverLog_leads_calm (h : Calm fs d) (hlog : fs .log = none) (hasher : Hasher)
    (dh : DatFileHeader) (dataFileSize : Nat) (scratch : Bytes) :
    Leads (Disk.recoverLog hasher dh dataFileSize scratch) d (fun _ d' => Calm fs d')
      fun _ _ => False := by
  have hmissing := (Disk.open_missing_leads (h.files ▸ hlog)).and_frames (Disk.frames_open .log)
  have htry : Leads (attempt Halt.isCode (Disk.open_ .log)) d
      (fun x d' => x = .error (.code .no_such_file_or_directory) ∧ Calm fs d')
      fun _ _ => False := by
    refine (leads_attempt hmissing (fun _ _ h' => h'.1.elim) fun e d' h' _ => ?_).mono
      (fun _ _ h' => h') fun e _ h' => ?_
    · rw [h'.1.1.resolve_left (h.not_faulty e)]
      exact ⟨rfl, h.of_eq (h'.1.2.trans h.files) h'.2⟩
    · obtain ⟨⟨hcode, -⟩, hnot⟩ := h'
      rw [hcode.1.resolve_left (h.not_faulty e)] at hnot
      cases hnot
  unfold Disk.recoverLog
  refine htry.bind fun x d' hx => ?_
  obtain ⟨rfl, hcalm⟩ := hx
  exact leads_pure hcalm

end Reading

/-! ## Opening -/

section Opening

variable {hasher : Hasher} {fs : Files} {d : Disk}

/-- Without a log, `recover` checks the data file and that the key file has more than a header. -/
theorem recover_follows (h : Calm fs d) (hdat : (fs .dat).isSome = true)
    (hkey : (fs .key).isSome = true) (hlog : fs .log = none)
    (hlen : keyFileHeaderSize < (fs.bytes .key).length) (scratch : Bytes) :
    Follows .stop (Disk.recover hasher scratch) d (readDatHeader (fs.bytes .dat) >>= verifyDat)
      fun _ d' _ => Calm fs d' := by
  unfold Disk.recover
  refine Follows.first (open_leads_calm h hdat) fun _ d₁ h₁ => ?_
  refine Follows.first (size_leads_calm h₁ .dat) fun dataFileSize d₂ h₂ => ?_
  refine (readDatHeader_follows h₂.2).bind fun dh d₃ dh' h₃ => ?_
  obtain ⟨rfl, h₃⟩ := h₃
  nth_rewrite 2 [← bind_pure (verifyDat dh)]
  refine (follows_lift Halt.stop (verifyDat dh) d₃).bind fun _ d₄ _ h₄ => ?_
  obtain ⟨-, rfl⟩ := h₄
  refine Follows.first (open_leads_calm h₃ hkey) fun _ d₅ h₅ => ?_
  refine Follows.first (size_leads_calm h₅ .key) fun keyFileSize d₆ h₆ => ?_
  obtain ⟨rfl, h₆⟩ := h₆
  rw [if_neg (not_le.mpr hlen)]
  exact recoverLog_leads_calm h₆ hlog hasher dh dataFileSize scratch

/-- The store that was opened shows the files that are read. -/
structure Shown (st : Live) (d : Disk) (st' : Store) : Prop where
  hasher : st.hasher = st'.hasher
  dat : d.files.bytes .dat = st'.dat
  key : d.files.bytes .key = st'.key
  kh : st.kh = st'.kh
  buckets : st.buckets = st'.buckets
  modulus : st.modulus = st'.modulus

/-- `open` checks the data file a second time. -/
theorem open_checked (hasher : Hasher) (dat key : Bytes) :
    (readDatHeader dat >>= verifyDat >>= fun _ => Store.open_ hasher dat key) =
      Store.open_ hasher dat key := by
  unfold Store.open_
  cases readDatHeader dat with
  | error t => rfl
  | ok dh =>
    show (verifyDat dh >>= fun _ => verifyDat dh >>= _) = verifyDat dh >>= _
    cases verifyDat dh with
    | error t => rfl
    | ok u => rfl

/-- A store is opened on two files without a log where their headers pass the checks, and with
what the headers say. -/
theorem open_follows (h : Calm fs d) (hdat : (fs .dat).isSome = true)
    (hkey : (fs .key).isSome = true) (hlog : fs .log = none)
    (hlen : keyFileHeaderSize < (fs.bytes .key).length) (scratch : Bytes) :
    Follows .stop (Live.open_ hasher scratch) d (Store.open_ hasher (fs.bytes .dat) (fs.bytes .key))
      fun st d' st' => Shown st d' st' := by
  have hdat' : (fs.put .log (Media.clean [])).bytes .dat = fs.bytes .dat := by
    rw [Files.bytes, Files.media_put_of_ne (by decide)]
    rfl
  have hkey' : (fs.put .log (Media.clean [])).bytes .key = fs.bytes .key := by
    rw [Files.bytes, Files.media_put_of_ne (by decide)]
    rfl
  rw [← open_checked]
  unfold Live.open_
  refine (recover_follows h hdat hkey hlog hlen scratch).bind fun _ d₁ _ h₁ => ?_
  refine Follows.first (open_leads_calm h₁ hdat) fun _ d₂ h₂ => ?_
  refine Follows.first (open_leads_calm h₂ hkey) fun _ d₃ h₃ => ?_
  refine Follows.first (create_leads_calm h₃ hlog) fun _ d₄ h₄ => ?_
  rw [← hdat', ← hkey']
  unfold Store.open_
  refine (readDatHeader_follows h₄).bind fun dh d₅ _ h₅ => ?_
  obtain ⟨rfl, h₅⟩ := h₅
  refine (follows_lift Halt.stop _ d₅).bind fun _ d₆ _ h₆ => ?_
  obtain ⟨-, rfl⟩ := h₆
  refine (readKeyHeader_follows h₅).bind fun kh d₇ _ h₇ => ?_
  obtain ⟨rfl, h₇⟩ := h₇
  refine (follows_lift Halt.stop _ d₇).bind fun _ d₈ _ h₈ => ?_
  obtain ⟨-, rfl⟩ := h₈
  refine (follows_lift Halt.stop _ d₈).bind fun _ d₉ _ h₉ => ?_
  obtain ⟨-, rfl⟩ := h₉
  by_cases hbuckets : kh.buckets < 1
  · simp only [hbuckets, if_true]
    exact follows_throw _
  · simp only [hbuckets, if_false]
    refine follows_pure ⟨rfl, ?_, ?_, rfl, rfl, rfl⟩
    · rw [h₇.files]
    · rw [h₇.files]

/-- What can be opened for reading, `open` opens as a store. -/
theorem open_returns {st' : Store} (h : Calm fs d) (hlog : fs .log = none)
    (hdat : (fs .dat).isSome = true) (hkey : (fs .key).isSome = true)
    (hlen : keyFileHeaderSize < (fs.bytes .key).length) (scratch : Bytes)
    (hopen : Store.open_ hasher (fs.bytes .dat) (fs.bytes .key) = .ok st') :
    ∃ st d', Live.open_ hasher scratch d = .ok st d' ∧ Shown st d' st' :=
  (open_follows h hdat hkey hlog hlen scratch).returns hopen

end Opening

/-! ## Looking a key up -/

theorem readAt_ends (f : Bytes) (offset n : Nat) :
    Ends (readAt f offset n) (fun buf => readAt f offset n = .ok buf)
      (· ≠ .ec .key_not_found) := by
  unfold readAt
  split
  · simp
  · rfl

theorem bucketRead_ends (blockSize : Nat) (f : Bytes) (offset : Nat) :
    Ends (Bucket.read blockSize f offset) (fun b => Bucket.read blockSize f offset = .ok b)
      (· ≠ .ec .key_not_found) := by
  cases hread : Bucket.read blockSize f offset with
  | ok b => rfl
  | error e =>
    have hends : Ends (Bucket.read blockSize f offset) (fun _ => True)
        (· ≠ .ec .key_not_found) := by
      refine ((readAt_ends f offset _).mono (fun _ _ => trivial) fun _ h => h).bind fun p _ => ?_
      dsimp only
      split
      · simp [throw, throwThe, MonadExceptOf.throw]
      · trivial
    exact hends.of_error hread

namespace Walk

section Found

variable {st : Store} {h : Nat} {key : Bytes} {b : Bucket}

/-- A round of the lookup of `key` in the files of `st`. -/
def round (st : Store) (h : Nat) (key : Bytes) (w : Walk) : Except Stop (Walk ⊕ Option Bytes) :=
  w.next st.kh.blockSize st.kh.keySize true h key st.dat

/-- Some rounds of the lookup, which goes on. -/
abbrev Rounds (st : Store) (h : Nat) (key : Bytes) : Walk → Walk → Prop :=
  Relation.ReflTransGen fun w w' => round st h key w = .ok (.inl w')

/-- The rounds from `w` on end with `found`. -/
def Finds (st : Store) (h : Nat) (key : Bytes) (w : Walk) (found : Option Bytes) : Prop :=
  ∃ w', Rounds st h key w w' ∧ round st h key w' = .ok (.inr found)

theorem Finds.head {w w' : Walk} {found : Option Bytes} (hw : round st h key w = .ok (.inl w'))
    (hfinds : Finds st h key w' found) : Finds st h key w found := by
  obtain ⟨w₁, hsteps, hlast⟩ := hfinds
  exact ⟨w₁, .head hw hsteps, hlast⟩

/-- Where a scan of a bucket from position `i` on ends: at a record, or after the entries with the
hash. -/
def Scans (st : Store) (h : Nat) (key : Bytes) (b : Bucket) (i : Nat) : Option Bytes → Prop
  | some value => Finds st h key ⟨b, i⟩ (some value)
  | none => ∃ j, Rounds st h key ⟨b, i⟩ ⟨b, j⟩ ∧ ¬ (j < b.size ∧ (b.at_ j).hash = h)

theorem Scans.head {i : Nat} {found : Option Bytes}
    (hround : round st h key ⟨b, i⟩ = .ok (.inl ⟨b, i + 1⟩))
    (hscans : Scans st h key b (i + 1) found) : Scans st h key b i found := by
  cases found with
  | some value => exact Finds.head hround hscans
  | none =>
    obtain ⟨j, hsteps, hend⟩ := hscans
    exact ⟨j, .head hround hsteps, hend⟩

theorem search_ends {fuel i : Nat} (hfuel : b.size ≤ fuel + i) :
    Ends (st.search b h key fuel i) (Scans st h key b i) (· ≠ .ec .key_not_found) := by
  induction fuel generalizing i with
  | zero => exact ⟨i, .refl, by omega⟩
  | succ fuel ih =>
    rw [Store.search]
    by_cases hlt : i < b.size
    · rw [if_pos hlt]
      by_cases hhash : (b.at_ i).hash = h
      · simp only [hhash, ne_eq, not_true, if_false]
        refine (readAt_ends _ _ _).bind fun buf hbuf => ?_
        have hround : round st h key ⟨b, i⟩ =
            if buf.take st.kh.keySize = key then .ok (.inr (some (buf.drop st.kh.keySize)))
            else .ok (.inl ⟨b, i + 1⟩) := by
          unfold round next
          rw [if_pos ⟨hlt, hhash⟩]
          dsimp only
          rw [if_pos rfl, hbuf]
          rfl
        by_cases hkey : buf.take st.kh.keySize = key
        · simp only [hkey, if_true]
          rw [if_pos hkey] at hround
          exact ⟨⟨b, i⟩, .refl, hround⟩
        · simp only [hkey, if_false]
          rw [if_neg hkey] at hround
          exact (ih (by omega)).mono (fun _ => Scans.head hround) fun _ h => h
      · simp only [hhash, ne_eq, not_false_eq_true, if_true]
        exact ⟨i, .refl, fun hcond => hhash hcond.2⟩
    · rw [if_neg hlt]
      exact ⟨i, .refl, fun hcond => hlt hcond.1⟩

/-- The rounds after the entries of a bucket: the lookup ends, or it goes to the spill record. -/
theorem round_spill {j : Nat} (hend : ¬ (j < b.size ∧ (b.at_ j).hash = h)) :
    round st h key ⟨b, j⟩ =
      if b.spill = 0 then .ok (.inr none)
      else Bucket.read st.kh.blockSize st.dat b.spill >>= fun b => pure (.inl (start h b)) := by
  unfold round next
  rw [if_neg hend]
  rfl

/-- The loops of `fetch`, taken together, are the rounds of a walk that ends with what they
return. -/
theorem fetchFrom_ends (fuel : Nat) (b : Bucket) :
    Ends (st.fetchFrom h key fuel b) (fun value => Finds st h key (start h b) (some value))
      (fun e => e = .ec .key_not_found → Finds st h key (start h b) none) := by
  induction fuel using Nat.strong_induction_on generalizing b with
  | _ fuel ih =>
    unfold Store.fetchFrom
    refine ((search_ends (Nat.le_add_right b.size _)).mono (fun _ h => h)
      fun e hne heq => (hne heq).elim).bind fun found hfound => ?_
    cases found with
    | some value => exact hfound
    | none =>
      obtain ⟨j, hsteps, hend⟩ := hfound
      have hround : round st h key ⟨b, j⟩ = _ := round_spill hend
      by_cases hspill : b.spill = 0
      · simp only [hspill, if_true]
        rw [if_pos hspill] at hround
        exact fun _ => ⟨⟨b, j⟩, hsteps, hround⟩
      · simp only [hspill, if_false]
        rw [if_neg hspill] at hround
        cases fuel with
        | zero => exact fun heq => by cases heq
        | succ fuel =>
          refine ((bucketRead_ends _ _ _).mono (fun _ h => h)
            fun e hne heq => (hne heq).elim).bind fun b' hread => ?_
          have hnext : round st h key ⟨b, j⟩ = .ok (.inl (start h b')) := by
            rw [hround, hread]
            rfl
          have hafter : ∀ found, Finds st h key (start h b') found →
              Finds st h key (start h b) found := by
            rintro found ⟨w, hsteps', hlast⟩
            exact ⟨w, hsteps.trans (.head hnext hsteps'), hlast⟩
          exact (ih fuel (Nat.lt_succ_self fuel) b').mono (fun _ h => hafter _ h)
            fun _ h heq => hafter _ (h heq)

end Found

end Walk

end Metcalfe.Nudb
