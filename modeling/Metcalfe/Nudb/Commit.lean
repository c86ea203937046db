import Metcalfe.Nudb.Build
import Metcalfe.Nudb.Crash

/-!
# Commits

`basic_store::commit`, in the steps between which other threads may look at the store: the values
that were inserted become the pool `p0`, the new buckets are built, a reader is given a view of
them, the old blocks are written to the log, and the new ones to the key file.

The files can be put back at each moment before the log is cut off. This module has the steps and
what the first ones leave; `Nudb.CommitKeys` has the key file.
-/

namespace Metcalfe.Nudb

open BigEndian Durable Stateful Outcome

/-- `block_size(path)`: the volume's block size, a guess. -/
def volumeBlockSize : Nat := 4096

/-- An open store: what other threads see of it. -/
structure Live where
  hasher : Hasher
  kh : KeyFileHeader
  p0 : Pool
  p1 : Pool
  c1 : Cache
  frac : Nat
  thresh : Nat
  buckets : Nat
  modulus : Nat

namespace Disk

/-- Prepares the rollback information: the sizes of the files. -/
def writeLogHeader (st : Live) : Act Unit := do
  let keyFileSize ← size .key
  let datFileSize ← size .dat
  write .log 0 (writeLogFileHeader
    { type := ascii "nudb.log", version := currentVersion, uid := st.kh.uid, appnum := st.kh.appnum
      keySize := st.kh.keySize, salt := st.kh.salt, pepper := pepper st.hasher st.kh.salt
      blockSize := st.kh.blockSize, keyFileSize := keyFileSize, datFileSize := datFileSize })
  -- Checkpoint
  sync .log

/-- A log record of a bucket. -/
def writeLogRecord (blockSize : Nat) (w : Writer) (e : Nat × Bytes) : Act Writer := do
  let b := Bucket.ofBlob blockSize e.2
  let w ← w.prepare .log (8 + b.actualSize)
  pure (w.put (toBytes 8 e.1 ++ b.write))

/-- Write clean buckets to log file. -/
def writeLog (blockSize : Nat) (clean : List (Nat × Bytes)) : Act Unit := do
  let size ← size .log
  let w ← clean.foldlM (writeLogRecord blockSize) ⟨size, [], 32 * volumeBlockSize⟩
  let _ ← w.flush .log
  sync .log

/-- Write new buckets to key file. -/
def writeKeys (blockSize : Nat) (new : List (Nat × Bytes)) : Act Unit :=
  new.foldlM (fun _ e => write .key ((e.1 + 1) * blockSize)
    (Bucket.ofBlob blockSize e.2).blockBytes) ()

/-- Finalize the commit. -/
def finalize : Act Unit := do
  sync .dat
  sync .key
  trunc .log 0
  sync .log

end Disk

namespace Live

/-- The values that were inserted are the ones to be written. -/
def begin_ (st : Live) : Live := { st with p0 := st.p1, p1 := st.p0 }

/-- Give readers a view of the new buckets. -/
def publish (st : Live) (x : Draft) : Live :=
  { st with p0 := Pool.empty, c1 := x.c1, frac := x.frac, buckets := x.buckets
            modulus := x.modulus }

/-- Cache is no longer needed. -/
def end_ (st : Live) : Live := { st with c1 := ∅ }

/-- Prepare rollback information, and append data and spills to the data file. -/
def prepare (st : Live) : Act Draft := do
  Disk.writeLogHeader st
  Disk.build st.kh.blockSize st.kh.keySize st.thresh (32 * volumeBlockSize) st.buckets st.modulus
    st.frac st.p0.values

/-- Write new buckets to the key file, and finalize the commit. -/
def overwrite (order : Cache.Order) (st : Live) : Act Unit := do
  Disk.writeKeys st.kh.blockSize (order.visit st.c1)
  Disk.finalize

def commit (order : Cache.Order) (st : Live) : Act Live := do
  let st := st.begin_
  let x ← st.prepare
  let st := st.publish x
  Disk.writeLog st.kh.blockSize (order.visit x.c0)
  st.overwrite order
  pure st.end_

end Live

/-! ## The header of the log -/

section Header

variable {cfg : Config} {dat key : Bytes} {buckets : Nat} {d : Disk} {st : Live}

/-- The files of a database that is open and at rest. -/
structure Resting (dat key : Bytes) (fs : Files) : Prop where
  dat : fs .dat = some (Media.clean dat)
  key : fs .key = some (Media.clean key)
  log : fs .log = some (Media.clean [])

theorem Resting.restores {fs : Files} (h : Resting dat key fs) :
    Restores cfg dat key buckets fs := by
  refine .settled h.dat h.key (.inr ⟨[], h.log, ?_⟩)
  unfold logFileHeaderSize
  simp

theorem writeLogHeader_leads {n : Nat} (hkh : st.kh = cfg.keyFileHeader n)
    (hhasher : st.hasher = cfg.hasher) (hrest : Resting dat key d.files) :
    Leads (Disk.writeLogHeader st) d
      (fun _ d' => d'.files = d.files.put .log
        (Media.clean (writeLogFileHeader (cfg.logFileHeader key.length dat.length))))
      (fun _ d' => Safe cfg dat key buckets d'.files) := by
  have hsafe : ∀ d' : Disk, d'.files = d.files → Safe cfg dat key buckets d'.files := by
    intro d' h
    rw [h]
    exact hrest.restores.safe
  have hheader : ∀ k l, writeLogFileHeader
      { type := ascii "nudb.log", version := currentVersion, uid := st.kh.uid
        appnum := st.kh.appnum, keySize := st.kh.keySize, salt := st.kh.salt
        pepper := pepper st.hasher st.kh.salt, blockSize := st.kh.blockSize
        keyFileSize := k, datFileSize := l } = writeLogFileHeader (cfg.logFileHeader k l) := by
    intro k l
    rw [hkh, hhasher]
    rfl
  unfold Disk.writeLogHeader
  refine ((Disk.size_leads d .key).mono (fun _ _ h => h) fun _ d' h => hsafe d' h.2).bind
    fun k d₁ h₁ => ?_
  refine ((Disk.size_leads d₁ .dat).mono (fun _ _ h => h)
    fun _ d' h => hsafe d' (h.2.trans h₁.2)).bind fun l d₂ h₂ => ?_
  obtain ⟨rfl, hf₁⟩ := h₁
  obtain ⟨rfl, hf₂⟩ := h₂
  rw [hf₁] at hf₂
  have hkey : (d.files.bytes .key).length = key.length := by
    rw [Files.bytes_of_eq_some hrest.key]
    rfl
  have hdat : (d₁.files.bytes .dat).length = dat.length := by
    rw [hf₁, Files.bytes_of_eq_some hrest.dat]
    rfl
  rw [hheader, hkey, hdat]
  generalize hlh : writeLogFileHeader (cfg.logFileHeader key.length dat.length) = lh
  have hne : lh ≠ [] := by
    rw [← hlh]
    intro h
    have := length_writeLogFileHeader (cfg.logFileHeader key.length dat.length)
    rw [h] at this
    cases this
  have hempty : d.files.bytes .log = [] := by
    rw [Files.bytes_of_eq_some hrest.log]
    rfl
  have hgrowing : Growing .log d.files [] lh d.files :=
    (Growing.refl hrest.log).mono List.nil_prefix
  -- The header, or the first part of it.
  have hwritten : ∀ n, Growing .log d.files [] lh (d.files.put .log
      ((d.files.media .log).change (.write 0 (lh.take n)))) := by
    intro n
    have := hgrowing.write (show d.files.bytes .log ++ lh.take n <+: lh by
      rw [hempty]
      exact List.take_prefix n lh)
    rwa [hempty] at this
  have hlost : ∀ fs, Growing .log d.files [] lh fs → Safe cfg dat key buckets fs := by
    intro fs hfs fs' hs
    have hput : fs .dat = d.files .dat ∧ fs .key = d.files .key := by
      obtain ⟨m, rfl, -⟩ := hfs
      exact ⟨Function.update_of_ne (by simp) _ _, Function.update_of_ne (by simp) _ _⟩
    rw [← hlh] at hfs
    exact restores_of_header (hput.1.trans hrest.dat) (hput.2.trans hrest.key) hfs hs
  refine ((Disk.write_leads d₂ .log 0 hne).mono (fun _ _ h => h) fun _ d' h => ?_).bind
    fun _ d₃ h₃ => ?_
  · obtain ⟨-, n, h⟩ := h
    rw [h, hf₂]
    exact hlost _ (hwritten n)
  · have hwhole := hwritten lh.length
    rw [List.take_length, ← hf₂, ← h₃] at hwhole
    have hbytes : d₃.files.bytes .log = lh := by
      rw [h₃, hf₂, Files.bytes, Files.media_put, Media.bytes_change]
      show splice (d.files.bytes .log) 0 lh = lh
      rw [hempty]
      simp [splice]
    refine (Disk.sync_leads d₃ .log).mono (fun _ d₄ h₄ => ?_) fun _ d' h => ?_
    · rw [h₄, hwhole.sync, hbytes, hf₂]
    · rw [h.2]
      rw [hf₂] at hwhole
      exact hlost _ hwhole

end Header

/-! ## The records of the log -/

section Records

variable {cfg : Config} {items items' : List Item} {values : List Value} {key : Bytes}
  {buckets modulus : Nat} {x : Draft} {d : Disk}

/-- The data file grows while the log has its header. -/
theorem safe_of_grown {fs fs' : Files} {dat : Bytes} (hkey : fs .key = some (Media.clean key))
    (hlog : fs .log = some (Media.clean
      (writeLogFileHeader (cfg.logFileHeader key.length dat.length))))
    (hgrown : Grown fs dat fs') : Safe cfg dat key buckets fs' := by
  intro fs'' hs
  obtain ⟨_, m, rfl, rfl, happends, -⟩ := hgrown
  have hlog' : (fs.put .dat m) .log = some (Media.clean
      (writeLogFileHeader (cfg.logFileHeader key.length m.synced.length))) := by
    rw [Files.put, Function.update_of_ne (by simp)]
    exact hlog
  have hkey' : (fs.put .dat m) .key = some (Media.clean key) := by
    rw [Files.put, Function.update_of_ne (by simp)]
    exact hkey
  exact restores_of_records (Function.update_self _ _ _) happends.keeps hkey'
    (List.forall_mem_nil _) ((Growing.refl hlog').mono (List.prefix_append _ _)) hs

/-- A blob of the cache of old blocks is what a log record is made from. -/
theorem exists_record {dat : Bytes} {n : Nat} {p : Bytes} (hcopied : cfg.Copied dat key n p)
    (hn : n < buckets) : ∃ r : LogRecord, r.Of cfg dat key buckets ∧ r.index = n ∧
      r.bytes = toBytes 8 n ++ (Bucket.ofBlob cfg.blockSize p).write := by
  obtain ⟨c, s, hblob, hs, hshows⟩ := hcopied
  refine ⟨⟨n, c.top, s⟩, ⟨hn, c.top_le, Store.SpillAt.lt (.inl rfl) hs, ?_, hblob⟩, rfl, ?_⟩
  · intro hne
    cases hc : c.spilled with
    | nil =>
      rw [hc] at hs
      exact absurd hs hne
    | cons es l =>
      rw [hc] at hs
      obtain ⟨-, -, hle, -⟩ := hs
      rwa [c.full es (by rw [hc]; exact List.mem_cons_self)] at hle
  · rw [hshows.write]
    rfl

theorem writeLog_leads {header : Bytes} {clean : List (Nat × Bytes)}
    {recordOf : Nat × Bytes → LogRecord}
    (hrecord : ∀ e ∈ clean, (recordOf e).bytes =
      toBytes 8 e.1 ++ (Bucket.ofBlob cfg.blockSize e.2).write)
    (hlog : d.files .log = some (Media.clean header)) :
    Leads (Disk.writeLog cfg.blockSize clean) d
      (fun _ d' => d'.files = d.files.put .log
        (Media.clean (header ++ (clean.map recordOf).flatMap LogRecord.bytes)))
      (fun _ d' => Growing .log d.files header
        (header ++ (clean.map recordOf).flatMap LogRecord.bytes) d'.files) := by
  have hgrowing := Growing.refl hlog
  have hpre : ∀ done rest, clean = done ++ rest →
      header ++ (done.map recordOf).flatMap LogRecord.bytes <+:
        header ++ (clean.map recordOf).flatMap LogRecord.bytes := by
    rintro done rest rfl
    rw [List.prefix_append_right_inj, List.map_append, List.flatMap_append]
    exact List.prefix_append _ _
  have hbytes : d.files.bytes .log = header := by
    rw [Files.bytes_of_eq_some hlog]
    rfl
  unfold Disk.writeLog
  refine ((Disk.size_leads d .log).mono (fun _ _ h => h) fun _ d' h => ?_).bind fun n d₁ h₁ => ?_
  · rw [h.2]
    exact hgrowing.mono (List.prefix_append _ _)
  obtain ⟨rfl, hfiles⟩ := h₁
  have hloop : Leads (clean.foldlM (Disk.writeLogRecord cfg.blockSize)
      ⟨(d.files.bytes .log).length, [], 32 * volumeBlockSize⟩) d₁
      (fun w d' => w.On .log d.files header
        (header ++ (clean.map recordOf).flatMap LogRecord.bytes) d'.files)
      (fun _ d' => Growing .log d.files header
        (header ++ (clean.map recordOf).flatMap LogRecord.bytes) d'.files) := by
    refine leads_foldlM (I := fun (done : List (Nat × Bytes)) (w : Writer) (d' : Disk) =>
      w.On .log d.files header (header ++ (done.map recordOf).flatMap LogRecord.bytes) d'.files) ?_ ?_
    · intro done e rest hl w d' hw
      unfold Disk.writeLogRecord
      dsimp only
      refine ((Writer.prepare_leads hw _).mono (fun _ _ h => h)
        fun _ _ h => h.mono (hpre done (e :: rest) hl)).bind fun w' d'' hw' => leads_pure ?_
      have hcat : header ++ ((done ++ [e]).map recordOf).flatMap LogRecord.bytes =
          header ++ (done.map recordOf).flatMap LogRecord.bytes ++
            (toBytes 8 e.1 ++ (Bucket.ofBlob cfg.blockSize e.2).write) := by
        rw [← hrecord e (by rw [hl]; simp)]
        simp
      rw [hcat]
      exact hw'.put _
    · rw [hfiles]
      exact ⟨by simpa using hgrowing, rfl, by rw [hbytes]; simp⟩
  refine hloop.bind fun w d₂ hw => ?_
  refine (Writer.flush_leads hw).bind fun w' d₃ hw' => ?_
  refine (Disk.sync_leads d₃ .log).mono (fun _ d₄ h₄ => ?_) fun _ d' h => ?_
  · rw [h₄, hw'.1.growing.sync, hw'.2]
  · rw [h.2]
    exact hw'.1.growing

end Records

end Metcalfe.Nudb
