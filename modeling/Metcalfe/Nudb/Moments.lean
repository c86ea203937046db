import Metcalfe.Nudb.CommitKeys

/-!
# The files while a commit is under way

Other threads read the data file and the key file while one thread commits. What they may find is
what the commit would leave if it were ended at that moment: `moment x d t` are the files after the
first calls of `x` and a part of the bytes of the next.

At each such moment of a commit the data file has what it had, and more; the key file is as it was,
except that from some moment on the blocks of the buckets in `c1` change (`Untouched`).
-/

namespace Metcalfe.Nudb

open BigEndian Durable Stateful

/-- How far a computation has come: the calls that are done, and the bytes of the next one. -/
structure Tick where
  calls : Nat
  bytes : Nat
  deriving DecidableEq, Repr

/-- One more byte, or the next call. -/
inductive Tick.Next : Tick → Tick → Prop
  | byte (t : Tick) : t.Next ⟨t.calls, t.bytes + 1⟩
  | call (t : Tick) : t.Next ⟨t.calls + 1, 0⟩

/-- The process is to be ended at this moment. -/
def Disk.ending (d : Disk) (t : Tick) : Disk :=
  { d with faults := Function.update d.faults (d.ops + t.calls) (some ⟨none, t.bytes⟩) }

def moment {α : Type} (x : Act α) (d : Disk) (t : Tick) : Files :=
  match x (d.ending t) with
  | .ok _ d' => d'.files
  | .error _ d' => d'.files

/-- What holds however a computation ends holds at each moment. -/
theorem moment_of_leads {α : Type} {x : Act α} {d : Disk} {t : Tick} {P : Files → Prop}
    (h : Leads x (d.ending t) (fun _ d' => P d'.files) (fun _ d' => P d'.files)) :
    P (moment x d t) := by
  unfold moment
  cases hx : x (d.ending t) with
  | ok a d' => exact h.of_ok hx
  | error e d' => exact h.of_error hx

namespace Disk

variable {φ α : Type} {nm nm' : Name}

/-! ## Calls that leave a part of the files alone -/

theorem frames_files {f : Files → φ} {torn : Nat → Files → Files}
    {call : Files → Except Halt (α × Files)} (htorn : ∀ n fs, f (torn n fs) = f fs)
    (hcall : ∀ fs a fs', call fs = .ok (a, fs') → f fs' = f fs) :
    Frames (fun d => f d.files) (syscall torn call) := by
  intro d
  unfold Leads syscall
  cases d.faults d.ops with
  | some fault => exact htorn _ _
  | none =>
    dsimp only
    cases hc : call d.files with
    | ok x => exact hcall _ _ _ hc
    | error h => rfl

theorem frames_files_size (nm : Name) : Frames files (size nm) := by
  unfold size whole
  refine frames_files (f := fun fs => fs) (fun _ _ => rfl) fun fs a fs' hc => ?_
  rw [Except.ok.injEq, Prod.mk.injEq] at hc
  exact hc.2.symm

theorem frames_write_of_ne (h : nm' ≠ nm) (offset : Nat) (data : Bytes) :
    Frames (fun d => d.files nm') (write nm offset data) := by
  unfold write
  split
  · exact frames_pure _
  · refine frames_files (f := fun fs => fs nm') (fun _ _ => Function.update_of_ne h _ _)
      fun fs a fs' hc => ?_
    rw [Except.ok.injEq, Prod.mk.injEq] at hc
    rw [← hc.2]
    exact Function.update_of_ne h _ _

theorem frames_sync_of_ne (h : nm' ≠ nm) : Frames (fun d => d.files nm') (sync nm) := by
  unfold sync whole
  refine frames_files (f := fun fs => fs nm') (fun _ _ => rfl) fun fs a fs' hc => ?_
  rw [Except.ok.injEq, Prod.mk.injEq] at hc
  rw [← hc.2]
  exact Function.update_of_ne h _ _

theorem frames_trunc_of_ne (h : nm' ≠ nm) (length : Nat) :
    Frames (fun d => d.files nm') (trunc nm length) := by
  unfold trunc whole
  refine frames_files (f := fun fs => fs nm') (fun _ _ => rfl) fun fs a fs' hc => ?_
  rw [Except.ok.injEq, Prod.mk.injEq] at hc
  rw [← hc.2]
  exact Function.update_of_ne h _ _

/-- Readers see the same bytes after a `sync`. -/
theorem frames_bytes_sync (nm nm' : Name) : Frames (fun d => d.files.bytes nm') (sync nm) := by
  unfold sync whole
  refine frames_files (f := fun fs => fs.bytes nm') (fun _ _ => rfl) fun fs a fs' hc => ?_
  rw [Except.ok.injEq, Prod.mk.injEq] at hc
  rw [← hc.2]
  by_cases h : nm' = nm
  · subst h
    unfold Files.bytes
    rw [Files.media_put, Media.bytes_sync]
  · unfold Files.bytes
    rw [Files.media_put_of_ne h]

end Disk

theorem Frames.comp {φ ψ α : Type} {f : Disk → φ} {x : Act α} (h : Frames f x) (g : φ → ψ) :
    Frames (fun d => g (f d)) x := fun d =>
  (h d).mono (fun _ _ h => congrArg g h) fun _ _ h => congrArg g h

namespace Writer

variable {nm nm' : Name}

theorem frames_flush (h : nm' ≠ nm) (w : Writer) : Frames (fun d => d.files nm') (flush nm w) := by
  unfold flush
  split
  · exact frames_pure _
  · exact (Disk.frames_write_of_ne h _ _).bind fun _ => frames_pure _

theorem frames_prepare (h : nm' ≠ nm) (w : Writer) (needed : Nat) :
    Frames (fun d => d.files nm') (prepare nm w needed) := by
  unfold prepare
  refine Frames.bind ?_ fun _ => frames_pure _
  split
  · exact frames_flush h w
  · exact frames_pure _

end Writer

/-! ## The steps of a commit -/

section Commit

variable {cfg : Config} {items : List Item} {key : Bytes} {buckets modulus n : Nat} {d : Disk}
  {st : Live} {nm : Name}

theorem frames_writeLogHeader (h : nm ≠ .log) (st : Live) :
    Frames (fun d => d.files nm) (Disk.writeLogHeader st) :=
  (Frames.comp (Disk.frames_files_size .key) fun fs => fs nm).bind fun _ =>
    (Frames.comp (Disk.frames_files_size .dat) fun fs => fs nm).bind fun _ =>
      (Disk.frames_write_of_ne h _ _).bind fun _ => Disk.frames_sync_of_ne h

theorem frames_writeLog (h : nm ≠ .log) (blockSize : Nat) (clean : List (Nat × Bytes)) :
    Frames (fun d => d.files nm) (Disk.writeLog blockSize clean) :=
  (Frames.comp (Disk.frames_files_size .log) fun fs => fs nm).bind fun _ =>
    (frames_foldlM (fun w _ => (Writer.frames_prepare h w _).bind fun _ => frames_pure _) _ _).bind
      fun w => (Writer.frames_flush h w).bind fun _ => Disk.frames_sync_of_ne h

/-- The files that threads read, when the data file has grown. -/
structure Grows (dat key : Bytes) (fs : Files) : Prop where
  dat : dat <+: fs.bytes .dat
  key : fs.bytes .key = key

theorem Growing.grows {fs fs' : Files} {dat dat' : Bytes} (h : Growing .dat fs dat dat' fs')
    (hkey : fs.bytes .key = key) : Grows dat key fs' := by
  refine ⟨?_, (h.bytes_of_ne (by simp)).trans hkey⟩
  obtain ⟨m, rfl, rfl, happends, -⟩ := h
  rw [Files.bytes, Files.media_put]
  exact happends.isPrefix

/-- While the new buckets are built. -/
theorem prepare_grows {st : Live} (htable : Table cfg items key st.buckets st.modulus)
    (hrest : Resting (cfg.dat items) key d.files) (hkh : st.kh = cfg.keyFileHeader n)
    (hadd : Addable cfg items st.p0.values) :
    Leads st.prepare d (fun _ d' => Grows (cfg.dat items) key d'.files)
      (fun _ d' => Grows (cfg.dat items) key d'.files) := by
  have hblockSize : st.kh.blockSize = cfg.blockSize := by
    rw [hkh]
    rfl
  have hkeySize : st.kh.keySize = cfg.keySize := by
    rw [hkh]
    rfl
  have hfiles : ∀ fs : Files, fs .dat = d.files .dat → fs .key = d.files .key →
      Grows (cfg.dat items) key fs := by
    intro fs hdat hkey
    rw [hrest.dat] at hdat
    rw [hrest.key] at hkey
    refine ⟨?_, ?_⟩
    · rw [Files.bytes_of_eq_some hdat]
      exact List.prefix_rfl
    · rw [Files.bytes_of_eq_some hkey]
      rfl
  have hheader := (frames_writeLogHeader (show Name.dat ≠ .log by simp) st d).and_frames
    (frames_writeLogHeader (show Name.key ≠ .log by simp) st)
  unfold Live.prepare
  refine (hheader.mono (fun _ _ h => h) fun _ d' h => hfiles _ h.1 h.2).bind fun _ d₁ h₁ => ?_
  have hdat₁ : d₁.files .dat = some (Media.clean (cfg.dat items)) := h₁.1.trans hrest.dat
  have hkey₁ := (hfiles _ h₁.1 h₁.2).key
  rw [hblockSize, hkeySize]
  refine (build_leads htable hadd hdat₁ hkey₁ _ _ _).mono (fun x d₂ hx => ?_) fun _ d' hgrown => ?_
  · obtain ⟨items', -, hgrowing, -⟩ := hx
    exact hgrowing.grows hkey₁
  · obtain ⟨dat', hgrowing⟩ := hgrown
    exact hgrowing.grows hkey₁

/-- The blocks of the other buckets are as they were. -/
def Untouched (blockSize : Nat) (P : Nat → Prop) (b b' : Bytes) : Prop :=
  ∀ n, ¬ P n → (n + 2) * blockSize ≤ b.length → (n + 2) * blockSize ≤ b'.length ∧
    slice b' ((n + 1) * blockSize) blockSize = slice b ((n + 1) * blockSize) blockSize

theorem Untouched.refl (blockSize : Nat) (P : Nat → Prop) (b : Bytes) :
    Untouched blockSize P b b := fun _ _ hle => ⟨hle, rfl⟩

theorem Untouched.write {blockSize : Nat} {P : Nat → Prop} {b b' data : Bytes}
    (h : Untouched blockSize P b b') {m : Nat} (hm : P m) (hlen : data.length ≤ blockSize) :
    Untouched blockSize P b (splice b' ((m + 1) * blockSize) data) := by
  intro n hn hle
  obtain ⟨hle', hslice⟩ := h n hn hle
  have hne : n ≠ m := by
    rintro rfl
    exact hn hm
  refine ⟨?_, ?_⟩
  · rw [length_splice]
    exact hle'.trans (le_max_left _ _)
  · rw [Change.slice_splice_of_disjoint _ _, hslice]
    · rwa [← Nat.succ_mul]
    · have hblocks : (n + 1) * blockSize + blockSize ≤ (m + 1) * blockSize ∨
          (m + 1) * blockSize + blockSize ≤ (n + 1) * blockSize := blocks_disjoint hne
      omega

/-- While the new buckets are written. -/
theorem overwrite_untouched (st : Live) (order : Cache.Order) (d : Disk) :
    Leads (st.overwrite order) d
      (fun _ d' => d'.files.bytes .dat = d.files.bytes .dat ∧
        Untouched st.kh.blockSize (· ∈ st.c1) (d.files.bytes .key) (d'.files.bytes .key))
      (fun _ d' => d'.files.bytes .dat = d.files.bytes .dat ∧
        Untouched st.kh.blockSize (· ∈ st.c1) (d.files.bytes .key) (d'.files.bytes .key)) := by
  have hkeys : Leads (Disk.writeKeys st.kh.blockSize (order.visit st.c1)) d
      (fun _ d' => d'.files .dat = d.files .dat ∧
        Untouched st.kh.blockSize (· ∈ st.c1) (d.files.bytes .key) (d'.files.bytes .key))
      (fun _ d' => d'.files .dat = d.files .dat ∧
        Untouched st.kh.blockSize (· ∈ st.c1) (d.files.bytes .key) (d'.files.bytes .key)) := by
    unfold Disk.writeKeys
    refine leads_foldlM (I := fun (_ : List (Nat × Bytes)) (_ : Unit) (d' : Disk) =>
      d'.files .dat = d.files .dat ∧
        Untouched st.kh.blockSize (· ∈ st.c1) (d.files.bytes .key) (d'.files.bytes .key)) ?_
      ⟨rfl, .refl _ _ _⟩
    rintro done ⟨n, p⟩ rest hl - d' ⟨hdat, huntouched⟩
    have hn : n ∈ st.c1 := by
      have hp := Cache.Order.mem_visit.mp (show (n, p) ∈ order.visit st.c1 by rw [hl]; simp)
      exact AList.lookup_isSome.mp (by rw [hp]; rfl)
    have hlen := (Bucket.ofBlob st.kh.blockSize p).length_blockBytes_le
    have hput : ∀ data : Bytes, data.length ≤ st.kh.blockSize → ∀ fs, fs = d'.files.put .key
        ((d'.files.media .key).change (.write ((n + 1) * st.kh.blockSize) data)) →
        fs .dat = d.files .dat ∧
          Untouched st.kh.blockSize (· ∈ st.c1) (d.files.bytes .key) (fs.bytes .key) := by
      rintro data hdata fs rfl
      refine ⟨hdat, ?_⟩
      rw [Files.bytes_put, Media.bytes_change]
      exact huntouched.write hn hdata
    by_cases hnil : (Bucket.ofBlob st.kh.blockSize p).blockBytes = []
    · unfold Disk.write
      rw [if_pos hnil]
      exact leads_pure ⟨hdat, huntouched⟩
    · refine (Disk.write_leads d' .key _ hnil).mono (fun _ d'' h => hput _ hlen _ h)
        fun _ d'' h => ?_
      obtain ⟨-, k, h⟩ := h
      exact hput _ ((List.length_take_le' _ _).trans hlen) _ h
  unfold Live.overwrite
  have hbytes : ∀ fs : Files, fs .dat = d.files .dat → fs.bytes .dat = d.files.bytes .dat := by
    intro fs h
    rw [Files.bytes, Files.bytes, Files.media, Files.media, h]
  refine (hkeys.mono (fun _ _ h => h) fun _ d' h => ⟨hbytes _ h.1, h.2⟩).bind fun _ d₁ h₁ => ?_
  -- The rest only syncs what readers see, and cuts the log off.
  have hrest : ∀ nm, nm ≠ Name.log → Frames (fun d => d.files.bytes nm) Disk.finalize := by
    intro nm hne
    refine (Disk.frames_bytes_sync _ _).bind fun _ => (Disk.frames_bytes_sync _ _).bind fun _ =>
      Frames.bind ?_ fun _ => Disk.frames_bytes_sync _ _
    exact Frames.comp (Disk.frames_trunc_of_ne hne 0)
      fun m => (m.getD (Media.clean [])).bytes
  refine ((hrest .dat (by simp) d₁).and_frames (hrest .key (by simp))).mono (fun _ d₂ h₂ => ?_)
    fun _ d₂ h₂ => ?_
  · obtain ⟨hdat, hkey⟩ : d₂.files.bytes .dat = d₁.files.bytes .dat ∧
      d₂.files.bytes .key = d₁.files.bytes .key := h₂
    rw [hdat, hkey]
    exact ⟨hbytes _ h₁.1, h₁.2⟩
  · obtain ⟨hdat, hkey⟩ : d₂.files.bytes .dat = d₁.files.bytes .dat ∧
      d₂.files.bytes .key = d₁.files.bytes .key := h₂
    rw [hdat, hkey]
    exact ⟨hbytes _ h₁.1, h₁.2⟩

end Commit

end Metcalfe.Nudb
