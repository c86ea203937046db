import Metcalfe.Nudb.Crash
import Metcalfe.Nudb.Headers

/-!
# Creating a database

`create.ipp`: the three files are created, with their headers and one empty bucket, and synced. When
a call reports an error, the files that were created are erased again, and errors of that are
ignored.

A `create` that returns leaves an empty database, if the size of a key and the load factor fit into
the header; `create` does not check that. When it stops, a file that was there before is as it was,
and unless the operating system reports an error a `create` that fails leaves no file behind
(`create_atomic`).
-/

namespace Metcalfe.Nudb

open BigEndian Durable Stateful Outcome LinearHash

namespace Disk

/-- `write(File&, dat_file_header const&)`. -/
def writeDatHeader (dh : DatFileHeader) : Act Unit := write .dat 0 (writeDatFileHeader dh)

/-- `write(File&, key_file_header const&)`: a whole block. -/
def writeKeyHeader (kh : KeyFileHeader) : Act Unit := do
  if kh.blockSize < keyFileHeaderSize then throw (.code .invalid_block_size)
  write .key 0 (writeKeyFileHeader kh ++ List.replicate (kh.blockSize - keyFileHeaderSize) 0)

/-- `erase_file` without an error code. -/
def dropFile (nm : Name) : Act Unit := do
  let _ ← attempt Halt.isCode (erase nm)
  pure ()

/-- The way to `fail`: the files that were created are erased. -/
def orErase (created : List Name) (x : Act Unit) : Act Unit := do
  match ← attempt Halt.isCode x with
  | .ok () => pure ()
  | .error h =>
    created.foldlM (fun _ nm => dropFile nm) ()
    throw h

/-- What is written to new files. -/
def writeNew (dh : DatFileHeader) (kh : KeyFileHeader) : Act Unit := do
  writeDatHeader dh
  writeKeyHeader kh
  write .key kh.blockSize (Bucket.empty kh.blockSize).blockBytes
  sync .dat
  sync .key
  sync .log

/-- The load factor in the header, in units of 1/65536. -/
def loadFactorField (loadFactor : ℚ) : Nat := min ⌊65536 * loadFactor⌋₊ 65535

/-- `create`; `uid` is drawn at random. -/
def createStore (hasher : Hasher) (uid appnum salt : UInt64) (keySize blockSize : Nat)
    (loadFactor : ℚ) : Act Unit := do
  if keySize < 1 then throw (.stop (.ec .invalid_key_size))
  if blockSize > 2 ^ 16 - 1 then throw (.code .invalid_block_size)
  if loadFactor ≤ 0 ∨ 1 ≤ loadFactor then throw (.stop (.ec .invalid_load_factor))
  let capacity := bucketCapacity blockSize
  if capacity < 1 then throw (.code .invalid_block_size)
  create .dat
  orErase [.dat] (create .key)
  orErase [.dat, .key] (create .log)
  orErase [.dat, .key, .log] (writeNew
    { type := ascii "nudb.dat", version := currentVersion, uid := uid, appnum := appnum
      keySize := keySize }
    { type := ascii "nudb.key", version := currentVersion, uid := uid, appnum := appnum
      keySize := keySize, salt := salt, pepper := pepper hasher salt, blockSize := blockSize
      loadFactor := loadFactorField loadFactor, capacity := 0, buckets := 0, modulus := 0 })

end Disk

/-- The arguments that `create` accepts. -/
structure Accepts (keySize blockSize : Nat) (loadFactor : ℚ) : Prop where
  keySize_pos : 0 < keySize
  blockSize_lt : blockSize < 2 ^ 16
  loadFactor_pos : 0 < loadFactor
  loadFactor_lt : loadFactor < 1
  capacity_pos : 0 < bucketCapacity blockSize

/-- Those that make a header which `open` accepts. -/
structure Creates (keySize blockSize : Nat) (loadFactor : ℚ) : Prop
    extends Accepts keySize blockSize loadFactor where
  keySize_lt : keySize < 2 ^ 16
  le_loadFactor : 1 / 65536 ≤ loadFactor

/-- The parameters of the database that is created. -/
def Creates.config {keySize blockSize : Nat} {loadFactor : ℚ}
    (h : Creates keySize blockSize loadFactor) (hasher : Hasher) (uid appnum salt : UInt64) :
    Config where
  hasher := hasher
  uid := uid
  appnum := appnum
  salt := salt
  keySize := keySize
  blockSize := blockSize
  loadFactor := Disk.loadFactorField loadFactor
  keySize_pos := h.keySize_pos
  keySize_lt := h.keySize_lt
  blockSize_lt := h.blockSize_lt
  capacity_pos := h.capacity_pos
  loadFactor_pos := by
    have hfloor : 1 ≤ ⌊65536 * loadFactor⌋₊ := by
      rw [Nat.one_le_floor_iff]
      linarith [h.le_loadFactor]
    exact lt_min hfloor (by norm_num)
  loadFactor_lt := (min_le_right _ _).trans_lt (by norm_num)

/-! ## A failed `create` -/

/-- The files that were created are there, and the others are as they were. -/
structure Made (fs₀ : Files) (created : List Name) (fs : Files) : Prop where
  new : ∀ nm ∈ created, fs₀ nm = none
  there : ∀ nm ∈ created, (fs nm).isSome = true
  rest : ∀ nm, nm ∉ created → fs nm = fs₀ nm

/-- The files that were there are as they were. -/
def Spared (fs₀ fs : Files) : Prop := ∀ nm, (fs₀ nm).isSome = true → fs nm = fs₀ nm

/-- How a `create` fails that began with the files of `d`. -/
def Unmade (d : Disk) (h : Halt) (d' : Disk) : Prop :=
  Spared d.files d'.files ∧ (¬ d.Failing → h.isCode = true → d'.files = d.files)

section Failing

variable {fs₀ fs : Files} {created : List Name} {nm : Name} {m : Media} {d d₀ : Disk}

theorem Made.spared (h : Made fs₀ created fs) : Spared fs₀ fs := by
  intro nm hnm
  refine h.rest nm fun hmem => ?_
  rw [h.new nm hmem] at hnm
  cases hnm

theorem Made.put (h : Made fs₀ created fs) (hmem : nm ∈ created) (m : Media) :
    Made fs₀ created (fs.put nm m) := by
  refine ⟨h.new, fun nm' hnm' => ?_, fun nm' hnm' => ?_⟩
  · by_cases heq : nm' = nm
    · subst heq
      simp [Files.put]
    · simpa [Files.put, heq] using h.there nm' hnm'
  · have hne : nm' ≠ nm := by
      rintro rfl
      exact hnm' hmem
    simpa [Files.put, hne] using h.rest nm' hnm'

/-- One more file. -/
theorem Made.create (h : Made fs₀ created fs) (hnm : fs nm = none) (m : Media) :
    Made fs₀ (created ++ [nm]) (fs.put nm m) := by
  have hnew : nm ∉ created := by
    intro hmem
    have := h.there nm hmem
    rw [hnm] at this
    cases this
  refine ⟨fun nm' hnm' => ?_, fun nm' hnm' => ?_, fun nm' hnm' => ?_⟩
  · rcases List.mem_append.mp hnm' with hnm' | hnm'
    · exact h.new nm' hnm'
    · rw [List.mem_singleton.mp hnm', ← h.rest nm hnew, hnm]
  · by_cases heq : nm' = nm
    · subst heq
      simp [Files.put]
    · have hmem : nm' ∈ created := by simpa [heq] using hnm'
      simpa [Files.put, heq] using h.there nm' hmem
  · rw [List.mem_append, not_or, List.mem_singleton] at hnm'
    simpa [Files.put, hnm'.2] using h.rest nm' hnm'.1

theorem Made.erase (h : Made fs₀ (nm :: created) fs) (hnodup : nm ∉ created) :
    Made fs₀ created (fs.erase nm) := by
  refine ⟨fun nm' hnm' => h.new nm' (List.mem_cons_of_mem _ hnm'), fun nm' hnm' => ?_,
    fun nm' hnm' => ?_⟩
  · have hne : nm' ≠ nm := by
      rintro rfl
      exact hnodup hnm'
    simpa [Files.erase, hne] using h.there nm' (List.mem_cons_of_mem _ hnm')
  · by_cases heq : nm' = nm
    · subst heq
      rw [h.new nm' List.mem_cons_self]
      exact Function.update_self _ _ _
    · simpa [Files.erase, heq] using h.rest nm' (by simp [heq, hnm'])

theorem Spared.erase (h : Spared fs₀ fs) (hnm : fs₀ nm = none) : Spared fs₀ (fs.erase nm) := by
  intro nm' hnm'
  have hne : nm' ≠ nm := by
    rintro rfl
    rw [hnm] at hnm'
    cases hnm'
  simpa [Files.erase, hne] using h nm' hnm'

/-- The file is erased, or the error is ignored. -/
theorem dropFile_leads (d : Disk) (nm : Name) : Leads (Disk.dropFile nm) d
    (fun _ d' => d'.faults = d.faults ∧ (d'.files = d.files.erase nm ∨ d'.files = d.files) ∧
      (¬ d.Failing → (d.files nm).isSome = true → d'.files = d.files.erase nm))
    (fun h d' => h.isCode = false ∧ d'.files = d.files) := by
  have hframes : Frames Disk.faults (attempt Halt.isCode (Disk.erase nm)) :=
    (Disk.frames_whole _).attempt
  have herase : Leads (Disk.erase nm) d
      (fun _ d' => d'.files = d.files.erase nm ∧ (d.files nm).isSome = true)
      (fun h d' => d'.files = d.files ∧ ((d.files nm).isSome = true → Disk.Faulty d h)) := by
    by_cases hnm : (d.files nm).isSome = true
    · exact (Disk.erase_leads hnm).mono (fun _ _ h => ⟨h, hnm⟩) fun _ _ h => ⟨h.2, fun _ => h.1⟩
    · refine (Disk.refused_leads (h := .code .no_such_file_or_directory) ?_).mono
        (fun _ _ h => h.elim) fun _ _ h => ⟨h.2, fun hsome => absurd hsome hnm⟩
      rw [if_neg hnm]
  unfold Disk.dropFile
  refine Leads.bind (R := fun _ d' => d'.faults = d.faults ∧
    (d'.files = d.files.erase nm ∨ d'.files = d.files) ∧
    (¬ d.Failing → (d.files nm).isSome = true → d'.files = d.files.erase nm)) ?_
    fun _ d' h => leads_pure h
  refine ((leads_attempt (R := fun y d' => (d'.files = d.files.erase nm ∨ d'.files = d.files) ∧
    (¬ d.Failing → (d.files nm).isSome = true → d'.files = d.files.erase nm)) herase
    (fun _ d' h => ⟨.inl h.1, fun _ _ => h.1⟩) fun h d' he hc => ⟨.inr he.1, fun hf hsome => ?_⟩)
      |>.and_frames hframes).mono (fun _ _ h => ⟨h.2, h.1⟩) fun _ _ h => ⟨h.1.2, h.1.1.1⟩
  exact absurd (Disk.Reported.failing ⟨he.2 hsome, hc⟩) hf

/-- All that was created is erased, unless the operating system reports an error. -/
theorem drop_leads (hnodup : created.Nodup) (hnew : ∀ nm ∈ created, fs₀ nm = none)
    (hspared : Spared fs₀ d.files) (hmade : ¬ d.Failing → Made fs₀ created d.files) :
    Leads (created.foldlM (fun _ nm => Disk.dropFile nm) ()) d
      (fun _ d' => Spared fs₀ d'.files ∧ (¬ d.Failing → d'.files = fs₀))
      (fun h d' => h.isCode = false ∧ Spared fs₀ d'.files) := by
  induction created generalizing d with
  | nil =>
    refine leads_pure ⟨hspared, fun hf => ?_⟩
    funext nm
    exact (hmade hf).rest nm (by simp)
  | cons nm created ih =>
    rw [List.foldlM_cons]
    refine ((dropFile_leads d nm).mono (fun _ _ h => h)
      fun h d' hd' => ⟨hd'.1, by rw [hd'.2]; exact hspared⟩).bind fun _ d₁ h₁ => ?_
    obtain ⟨hfaults, hfiles, herased⟩ := h₁
    have hfailing : d₁.Failing ↔ d.Failing := by
      unfold Disk.Failing
      rw [hfaults]
    have hspared₁ : Spared fs₀ d₁.files := by
      rcases hfiles with h | h
      · rw [h]
        exact hspared.erase (hnew nm List.mem_cons_self)
      · rw [h]
        exact hspared
    have hrest := ih (List.nodup_cons.mp hnodup).2
      (fun nm' hnm' => hnew nm' (List.mem_cons_of_mem _ hnm')) hspared₁ fun hf => ?_
    · rwa [hfailing] at hrest
    · rw [hfailing] at hf
      have hd := hmade hf
      rw [herased hf (hd.there nm List.mem_cons_self)]
      exact hd.erase (List.nodup_cons.mp hnodup).1

/-- A step of `create` after the files `created` were. -/
theorem orErase_leads {x : Act Unit} {Q : Unit → Disk → Prop} (hnodup : created.Nodup)
    (hfaults : d.faults = d₀.faults)
    (hframes : Frames Disk.faults x)
    (hx : Leads x d Q (fun _ d' => Made d₀.files created d'.files)) :
    Leads (Disk.orErase created x) d Q (Unmade d₀) := by
  have hattempt : Leads (attempt Halt.isCode x) d
      (fun y d' => (∀ a, y = .ok a → Q a d') ∧
        ∀ h, y = .error h → Made d₀.files created d'.files ∧ d'.faults = d₀.faults)
      (Unmade d₀) := by
    refine (leads_attempt (hx.and_frames hframes) (fun a d' hd' => ⟨?_, by simp⟩)
      fun h d' hd' _ => ⟨by simp, ?_⟩).mono (fun _ _ h => h) fun h d' hd' =>
        ⟨hd'.1.1.spared, fun _ hcode => absurd hcode (by simp [hd'.2])⟩
    · rintro a' ⟨⟩
      exact hd'.1
    · rintro h' ⟨⟩
      exact ⟨hd'.1, hd'.2.trans hfaults⟩
  unfold Disk.orErase
  refine hattempt.bind fun y d₁ h₁ => ?_
  cases y with
  | ok a => exact leads_pure (h₁.1 a rfl)
  | error h =>
    obtain ⟨hmade, hf⟩ := h₁.2 h rfl
    have hfailing : d₁.Failing ↔ d₀.Failing := by
      unfold Disk.Failing
      rw [hf]
    have hdrop : Leads (created.foldlM (fun _ nm => Disk.dropFile nm) ()) d₁
        (fun _ d' => Spared d₀.files d'.files ∧ (¬ d₁.Failing → d'.files = d₀.files))
        (Unmade d₀) := by
      refine (drop_leads hnodup hmade.new hmade.spared fun _ => hmade).mono (fun _ _ h => h)
        fun h' d' hd' => ⟨hd'.2, fun _ hcode' => ?_⟩
      rw [hd'.1] at hcode'
      cases hcode'
    refine hdrop.bind fun _ d₂ h₂ => leads_throw ⟨h₂.1, fun hnot _ => h₂.2 ?_⟩
    rwa [hfailing]

/-! ## The steps -/

/-- The three files. -/
def Files.of (dat key log : Media) : Files
  | .dat => some dat
  | .key => some key
  | .log => some log

theorem Made.of {dat key log : Media} (hd : d.files = Files.of dat key log)
    (hnone : ∀ nm, d₀.files nm = none) : Made d₀.files [.dat, .key, .log] d.files := by
  refine ⟨fun nm _ => hnone nm, fun nm _ => ?_, fun nm hnm => ?_⟩
  · rw [hd]
    cases nm <;> rfl
  · cases nm <;> simp at hnm

theorem frames_writeNew (dh : DatFileHeader) (kh : KeyFileHeader) :
    Frames Disk.faults (Disk.writeNew dh kh) := by
  refine (Disk.frames_write _ _ _).bind fun _ => Frames.bind ?_ fun _ =>
    (Disk.frames_write _ _ _).bind fun _ => (Disk.frames_whole _).bind fun _ =>
      (Disk.frames_whole _).bind fun _ => Disk.frames_whole _
  unfold Disk.writeKeyHeader
  split
  · exact (frames_throw _).bind fun _ => Disk.frames_write _ _ _
  · exact Disk.frames_write _ _ _

section Writing

variable {dat key log m : Media}

@[simp]
theorem Files.put_dat_of : (Files.of dat key log).put .dat m = Files.of m key log := by
  funext nm
  cases nm <;> rfl

@[simp]
theorem Files.put_key_of : (Files.of dat key log).put .key m = Files.of dat m log := by
  funext nm
  cases nm <;> rfl

@[simp]
theorem Files.put_log_of : (Files.of dat key log).put .log m = Files.of dat key m := by
  funext nm
  cases nm <;> rfl

end Writing

/-- The key file with its header and one empty bucket. -/
def newKey (kh : KeyFileHeader) : Bytes :=
  writeKeyFileHeader kh ++ List.replicate (kh.blockSize - keyFileHeaderSize) 0 ++
    (Bucket.empty kh.blockSize).blockBytes

theorem writeNew_leads {dh : DatFileHeader} {kh : KeyFileHeader}
    (hnone : ∀ nm, d₀.files nm = none)
    (hd : d.files = Files.of (Media.clean []) (Media.clean []) (Media.clean [])) :
    Leads (Disk.writeNew dh kh) d
      (fun _ d' => d'.files = Files.of (Media.clean (writeDatFileHeader dh))
        (Media.clean (newKey kh)) (Media.clean []))
      (fun _ d' => Made d₀.files [.dat, .key, .log] d'.files) := by
  have hmade : ∀ {dat key log : Media} (d' : Disk), d'.files = Files.of dat key log →
      Made d₀.files [.dat, .key, .log] d'.files := fun _ h => Made.of h hnone
  have hput : ∀ {dat key log m : Media} {nm : Name} (d' : Disk),
      d'.files = (Files.of dat key log).put nm m → Made d₀.files [.dat, .key, .log] d'.files := by
    intro dat key log m nm d' h
    rw [h]
    exact (Made.of (d := { d with files := Files.of dat key log }) rfl hnone).put
      (by cases nm <;> simp) m
  unfold Disk.writeNew
  -- The header of the data file.
  have hdat := Disk.write_leads d .dat 0 (show writeDatFileHeader dh ≠ [] by
    intro h
    have := length_writeDatFileHeader dh
    rw [h] at this
    cases this)
  rw [hd] at hdat
  refine (hdat.mono (fun _ _ h => h) fun _ d' h => hput d' h.2.choose_spec).bind fun _ d₁ h₁ => ?_
  rw [Files.put_dat_of] at h₁
  unfold Disk.writeKeyHeader
  by_cases hsmall : kh.blockSize < keyFileHeaderSize
  · rw [if_pos hsmall]
    exact hmade d₁ h₁
  rw [if_neg hsmall]
  -- The header of the key file.
  have hkey := Disk.write_leads d₁ .key 0
    (show writeKeyFileHeader kh ++ List.replicate (kh.blockSize - keyFileHeaderSize) 0 ≠ [] by
      intro h
      have hlen := congrArg List.length h
      rw [List.length_append, length_writeKeyFileHeader, keyFileHeaderSize] at hlen
      simp at hlen)
  rw [h₁] at hkey
  refine (hkey.mono (fun _ _ h => h) fun _ d' h => hput d' h.2.choose_spec).bind fun _ d₂ h₂ => ?_
  rw [Files.put_key_of] at h₂
  -- The empty bucket.
  have hsize : keyFileHeaderSize ≤ kh.blockSize := not_lt.mp hsmall
  have hpos : 0 < (Bucket.empty kh.blockSize).blockSize := by
    rw [keyFileHeaderSize] at hsize
    exact lt_of_lt_of_le (by norm_num) hsize
  have hblock := Disk.write_leads d₂ .key kh.blockSize (Bucket.blockBytes_ne_nil hpos)
  rw [h₂] at hblock
  refine (hblock.mono (fun _ _ h => h) fun _ d' h => hput d' h.2.choose_spec).bind fun _ d₃ h₃ => ?_
  rw [Files.put_key_of] at h₃
  have hsync : ∀ (nm : Name) {dat key log : Media} (d : Disk), d.files = Files.of dat key log →
      Leads (Disk.sync nm) d (fun _ d' => d'.files = d.files.put nm (d.files.media nm).sync)
        (fun _ d' => Made d₀.files [.dat, .key, .log] d'.files) := by
    intro nm dat key log d hd
    refine (Disk.sync_leads d nm).mono (fun _ _ h => h) fun _ d' h => ?_
    exact hmade d' (h.2.trans hd)
  refine (hsync .dat d₃ h₃).bind fun _ d₄ h₄ => ?_
  rw [h₃, Files.put_dat_of] at h₄
  refine (hsync .key d₄ h₄).bind fun _ d₅ h₅ => ?_
  rw [h₄, Files.put_key_of] at h₅
  refine (hsync .log d₅ h₅).mono (fun _ d₆ h₆ => ?_) fun _ _ h => h
  rw [h₅, Files.put_log_of] at h₆
  rw [h₆, newKey]
  simp only [Files.media, Files.of, Option.getD_some, Media.sync, Media.bytes_change,
    Media.bytes_clean, Change.apply]
  have hnil : ∀ data : Bytes, splice [] 0 data = data := fun data => by simp [splice]
  rw [hnil, hnil, splice_end]
  rw [List.length_append, length_writeKeyFileHeader, List.length_replicate]
  omega

theorem made_create_leads (hmade : Made fs₀ created d.files) (nm : Name) :
    Leads (Disk.create nm) d
      (fun _ d' => (d.files nm = none ∧ d'.files = d.files.put nm (Media.clean [])) ∧
        d'.faults = d.faults)
      (fun _ d' => Made fs₀ created d'.files) := by
  have hcreate : Leads (Disk.create nm) d
      (fun _ d' => d.files nm = none ∧ d'.files = d.files.put nm (Media.clean []))
      (fun _ d' => d'.files = d.files) := by
    cases hnm : d.files nm with
    | none =>
      exact (Disk.create_leads hnm).mono (fun _ _ h => ⟨rfl, h⟩) fun _ _ h => h.2
    | some m =>
      refine (Disk.refused_leads (h := .code .file_exists) ?_).mono (fun _ _ h => h.elim)
        fun _ _ h => h.2
      rw [hnm]
      rfl
  refine (hcreate.and_frames (Disk.frames_whole _)).mono (fun _ _ h => h) fun _ d' h => ?_
  rw [h.1]
  exact hmade

/-- A `create` spares the files that are there, and fails with no file left behind. -/
theorem createStore_leads (hasher : Hasher) (uid appnum salt : UInt64) (keySize blockSize : Nat)
    (loadFactor : ℚ) (d : Disk) :
    Leads (Disk.createStore hasher uid appnum salt keySize blockSize loadFactor) d
      (fun _ d' => Accepts keySize blockSize loadFactor ∧ (∀ nm, d.files nm = none) ∧
        d'.files = Files.of
          (Media.clean (writeDatFileHeader ⟨ascii "nudb.dat", currentVersion, uid, appnum, keySize⟩))
          (Media.clean (newKey
            { type := ascii "nudb.key", version := currentVersion, uid := uid, appnum := appnum
              keySize := keySize, salt := salt, pepper := pepper hasher salt, blockSize := blockSize
              loadFactor := Disk.loadFactorField loadFactor, capacity := 0, buckets := 0
              modulus := 0 }))
          (Media.clean []))
      (Unmade d) := by
  have hkept : ∀ (h : Halt) (d' : Disk), d'.files = d.files → Unmade d h d' := by
    intro h d' hd'
    refine ⟨fun nm _ => by rw [hd'], fun _ _ => hd'⟩
  unfold Disk.createStore
  by_cases hkey : keySize < 1
  · rw [if_pos hkey]
    exact hkept _ _ rfl
  by_cases hblock : blockSize > 2 ^ 16 - 1
  · rw [if_neg hkey, if_pos hblock]
    exact hkept _ _ rfl
  by_cases hload : loadFactor ≤ 0 ∨ 1 ≤ loadFactor
  · rw [if_neg hkey, if_neg hblock, if_pos hload]
    exact hkept _ _ rfl
  by_cases hcap : bucketCapacity blockSize < 1
  · rw [if_neg hkey, if_neg hblock, if_neg hload, if_pos hcap]
    exact hkept _ _ rfl
  rw [if_neg hkey, if_neg hblock, if_neg hload, if_neg hcap]
  rw [not_or, not_le, not_le] at hload
  have haccepts : Accepts keySize blockSize loadFactor :=
    ⟨not_lt.mp hkey, by omega, hload.1, hload.2, not_lt.mp hcap⟩
  have hmade₀ : Made d.files [] d.files := ⟨by simp, by simp, fun _ _ => rfl⟩
  refine ((made_create_leads hmade₀ .dat).mono (fun _ _ h => h) fun h d' hd' =>
    hkept h d' (funext fun nm => hd'.rest nm (by simp))).bind fun _ d₁ h₁ => ?_
  obtain ⟨⟨hnone₁, hd₁⟩, hf₁⟩ := h₁
  have hmade₁ : Made d.files [.dat] d₁.files := by
    rw [hd₁]
    exact hmade₀.create hnone₁ _
  refine (orErase_leads (by simp) hf₁ (Disk.frames_whole _) (made_create_leads hmade₁ .key)).bind
    fun _ d₂ h₂ => ?_
  obtain ⟨⟨hnone₂, hd₂⟩, hf₂⟩ := h₂
  have hmade₂ : Made d.files [.dat, .key] d₂.files := by
    rw [hd₂]
    exact hmade₁.create hnone₂ _
  refine (orErase_leads (by simp) (hf₂.trans hf₁) (Disk.frames_whole _)
    (made_create_leads hmade₂ .log)).bind fun _ d₃ h₃ => ?_
  obtain ⟨⟨hnone₃, hd₃⟩, hf₃⟩ := h₃
  have hmade₃ : Made d.files [.dat, .key, .log] d₃.files := by
    rw [hd₃]
    exact hmade₂.create hnone₃ _
  have hnone : ∀ nm, d.files nm = none := fun nm => hmade₃.new nm (by cases nm <;> simp)
  have hempty : d₃.files = Files.of (Media.clean []) (Media.clean []) (Media.clean []) := by
    rw [hd₃, hd₂, hd₁]
    funext nm
    cases nm <;> rfl
  exact orErase_leads (by simp) ((hf₃.trans hf₂).trans hf₁) (frames_writeNew _ _)
    ((writeNew_leads hnone hempty).mono (fun _ _ h => ⟨haccepts, hnone, h⟩) fun _ _ h => h)

end Failing

/-! ## An empty database -/

section New

variable {d : Disk} {loadFactor : ℚ}

theorem length_dat_nil (cfg : Config) : (cfg.dat []).length = datFileHeaderSize := by
  rw [Config.length_dat]
  rfl

theorem stocked_nil (cfg : Config) : Stocked cfg [] := by
  refine ⟨by simp [Config.entries, entriesFrom], by simp [records], by simp [records], by simp, ?_⟩
  rw [length_dat_nil, datFileHeaderSize]
  norm_num

/-- A key file with one bucket. -/
def oneBucket (cfg : Config) (es : List Entry) : Bytes :=
  cfg.headerBlock ++ blob cfg.blockSize es 0

theorem newKey_eq (cfg : Config) : newKey (cfg.keyFileHeader 0) = oneBucket cfg [] := by
  have hsize : bucketSize ([] : List Entry).length ≤ cfg.blockSize :=
    bucketSize_le_of_le cfg.capacity_pos (Nat.zero_le _)
  rw [oneBucket, ← (Bucket.shows_empty hsize).blockBytes hsize]
  rfl

theorem bucketIndex_one (h : Nat) : bucketIndex h 1 1 = 0 := by
  simp [bucketIndex, Nat.mod_one]

/-- A database whose entries fit into one bucket. -/
theorem table_one {cfg : Config} {items : List Item} (hstocked : Stocked cfg items)
    (hvalid : ∀ e ∈ cfg.entries items, e.Valid)
    (hsorted : (cfg.entries items).Pairwise Entry.before)
    (hfit : (cfg.entries items).length ≤ cfg.capacity) :
    Table cfg items (oneBucket cfg (cfg.entries items)) 1 1 := by
  generalize hes : cfg.entries items = es at hvalid hsorted hfit
  have hlen : (blob cfg.blockSize es 0).length = cfg.blockSize :=
    length_blob (bucketSize_le_of_le cfg.capacity_pos hfit) 0
  have hslice : slice (oneBucket cfg es) ((0 + 1) * cfg.blockSize) cfg.blockSize =
      blob cfg.blockSize es 0 := by
    rw [oneBucket, slice, Nat.zero_add, Nat.one_mul, List.drop_left' cfg.length_headerBlock,
      List.take_of_length_le hlen.le]
  have hshare : share 1 1 0 es = es := by
    simp [share, bucketIndex_one]
  have hchain : ∃ c : Chain cfg.capacity, c.top = es ∧ c.spilled = [] :=
    ⟨⟨es, [], by simpa using hsorted, hfit, by simp⟩, rfl, rfl⟩
  obtain ⟨c, htop, hspilled⟩ := hchain
  refine ⟨hstocked, ⟨⟨⟨0, rfl⟩, le_rfl, by norm_num⟩, fun n hn => ?_, by rwa [hes]⟩,
    List.take_left' cfg.length_headerBlock, ?_, by norm_num⟩
  · obtain rfl : n = 0 := by omega
    refine ⟨c, ?_, fun _ => hspilled, ?_⟩
    · show Holds true cfg.blockSize _ _ (slice _ ((0 + 1) * cfg.blockSize) cfg.blockSize)
      rw [hslice]
      refine ⟨0, by rw [htop], ?_⟩
      rw [hspilled]
      rfl
    · rw [hes, hshare, Chain.entries, Chain.buckets, htop, hspilled]
      simp
  · rw [oneBucket, List.length_append, cfg.length_headerBlock, hlen]
    ring

theorem table_new (cfg : Config) : Table cfg [] (newKey (cfg.keyFileHeader 0)) 1 1 := by
  rw [newKey_eq]
  exact table_one (stocked_nil cfg) (by simp [Config.entries, entriesFrom])
    List.Pairwise.nil (Nat.zero_le _)

/-- A `create` makes an empty database where there was no file, or it changes nothing. -/
theorem create_atomic (hasher : Hasher) (uid appnum salt : UInt64) (keySize blockSize : Nat)
    (loadFactor : ℚ) (d : Disk) :
    Leads (Disk.createStore hasher uid appnum salt keySize blockSize loadFactor) d
      (fun _ d' => (∀ nm, d.files nm = none) ∧
        (keySize < 2 ^ 16 → 1 / 65536 ≤ loadFactor →
          ∃ h : Creates keySize blockSize loadFactor,
            Stands (h.config hasher uid appnum salt) [] d'.files))
      (Unmade d) := by
  refine (createStore_leads hasher uid appnum salt keySize blockSize loadFactor d).mono
    (fun _ d' hd' => ?_) fun _ _ h => h
  obtain ⟨haccepts, hnone, hfiles⟩ := hd'
  refine ⟨hnone, fun hkey hload => ?_⟩
  have h : Creates keySize blockSize loadFactor := ⟨haccepts, hkey, hload⟩
  refine ⟨h, [], newKey ((h.config hasher uid appnum salt).keyFileHeader 0), 1, 1, table_new _, rfl,
    ?_⟩
  rw [hfiles]
  refine .settled ?_ ?_ (.inr ⟨[], rfl, by simp [logFileHeaderSize]⟩)
  · simp [Files.of, Config.dat, Config.datFileHeader, Creates.config]
  · rfl

/-! ## A small database -/

/-- The smallest blocks. -/
def Config.tiny : Config where
  hasher := fun _ _ => 0
  uid := 1
  appnum := 2
  salt := 3
  keySize := 1
  blockSize := 104
  loadFactor := 32768
  keySize_pos := by norm_num
  keySize_lt := by norm_num
  blockSize_lt := by norm_num
  capacity_pos := by simp [bucketCapacity, keyFileHeaderSize, entrySize]
  loadFactor_pos := by norm_num
  loadFactor_lt := by norm_num

-- The computation is run by the kernel, and what it leaves is known without.
attribute [local irreducible] Leads in
theorem create_atomic_tiny : ∃ d', Disk.createStore Config.tiny.hasher 1 2 3 1 104 (1 / 2)
      ⟨fun _ => none, 0, fun _ => none⟩ = .ok () d' ∧
    ∃ h : Creates 1 104 (1 / 2), Stands (h.config Config.tiny.hasher 1 2 3) [] d'.files := by
  have hok : (match Disk.createStore Config.tiny.hasher 1 2 3 1 104 (1 / 2)
      ⟨fun _ => none, 0, fun _ => none⟩ with
    | .ok _ _ => true
    | .error _ _ => false) = true := by decide +kernel
  cases hx : Disk.createStore Config.tiny.hasher 1 2 3 1 104 (1 / 2)
    ⟨fun _ => none, 0, fun _ => none⟩ with
  | error h d' =>
    rw [hx] at hok
    cases hok
  | ok a d' =>
    have hcreated := (create_atomic Config.tiny.hasher 1 2 3 1 104 (1 / 2) _).of_ok hx
    exact ⟨d', rfl, hcreated.2 (by norm_num) (by norm_num)⟩

/-- One record. -/
def tinyItems : List Item := [.record [1] [7]]

def tinyKey : Bytes := oneBucket Config.tiny (Config.tiny.entries tinyItems)

theorem table_tiny : Table Config.tiny tinyItems tinyKey 1 1 := by
  have hentries : ∃ h, h < 256 ^ 6 ∧ Config.tiny.entries tinyItems = [⟨92, 1, h⟩] :=
    ⟨_, Config.tiny.hashOf_lt [1], rfl⟩
  obtain ⟨h, hlt, hentries⟩ := hentries
  have hrecords : records tinyItems = [([1], [7])] := rfl
  refine table_one ⟨?_, ?_, ?_, by simp [tinyItems], ?_⟩ ?_ ?_ ?_
  · simp [hentries]
  · rw [hrecords]
    intro r hr
    rw [List.mem_singleton.mp hr]
    exact ⟨rfl, by norm_num, by norm_num⟩
  · simp [hrecords]
  · rw [Config.length_dat, datFileHeaderSize]
    simp [tinyItems, Item.bytes]
  · rw [hentries]
    intro e he
    rw [List.mem_singleton.mp he]
    exact ⟨by norm_num, by norm_num, hlt⟩
  · rw [hentries]
    exact List.pairwise_singleton _ _
  · rw [hentries]
    exact Config.tiny.capacity_pos

/-- Its files, with a log or without. -/
def tinyFiles (log : Option Media) : Files
  | .dat => some (Media.clean (Config.tiny.dat tinyItems))
  | .key => some (Media.clean tinyKey)
  | .log => log

theorem restores_tiny : Restores Config.tiny (Config.tiny.dat tinyItems) tinyKey 1
    (tinyFiles none) :=
  .settled rfl rfl (.inl rfl)

theorem stands_tiny : Stands Config.tiny [([1], [7])] (tinyFiles none) :=
  ⟨tinyItems, tinyKey, 1, 1, table_tiny, rfl, restores_tiny⟩

/-- A value to be inserted. -/
def tinyPool : Pool where
  values := [⟨Config.tiny.hashOf [2], [2], [8]⟩]
  sorted := List.pairwise_singleton _ _
  nodup := List.nodup_singleton _

end New

end Metcalfe.Nudb
