import Metcalfe.Nudb.Disk

/-!
# Buffered access to the files of a store

`bulk_writer` and `bulk_reader` of `detail/bulkio.hpp` over the files of a store. The writer of
`Nudb.BulkIo` owns its file; here the file is in the state, where a computation that stops leaves
it. `Writer.On` says what was written so far: the bytes of the file and those in the buffer, after
a file that has only grown since its last `sync`. The reader is that of `Nudb.BulkIo`.
-/

namespace Metcalfe.Nudb

open BigEndian Durable Stateful

structure Writer where
  offset : Nat
  pending : Bytes
  bufSize : Nat

/-- The file has grown from `b`, and what it has is the beginning of `c`. The others are those
of `fs₀`. -/
def Growing (nm : Name) (fs₀ : Files) (b c : Bytes) (fs : Files) : Prop :=
  ∃ m : Media, fs = fs₀.put nm m ∧ m.synced = b ∧ Appends b m.pending ∧ m.bytes <+: c

theorem Growing.mono {nm : Name} {fs₀ fs : Files} {b c c' : Bytes} (h : Growing nm fs₀ b c fs)
    (hc : c <+: c') : Growing nm fs₀ b c' fs := by
  obtain ⟨m, hfs, hsynced, happends, hm⟩ := h
  exact ⟨m, hfs, hsynced, happends, hm.trans hc⟩

theorem Growing.bytes_of_ne {nm nm' : Name} {fs₀ fs : Files} {b c : Bytes}
    (h : Growing nm fs₀ b c fs) (hne : nm' ≠ nm) : fs.bytes nm' = fs₀.bytes nm' := by
  obtain ⟨m, rfl, -⟩ := h
  rw [Files.bytes, Files.media_put_of_ne hne]
  rfl

theorem Growing.refl {nm : Name} {fs : Files} {b : Bytes} (h : fs nm = some (Media.clean b)) :
    Growing nm fs b b fs := by
  refine ⟨Media.clean b, ?_, rfl, trivial, List.prefix_rfl⟩
  have hput := Files.put_media (show (fs nm).isSome = true by rw [h]; rfl)
  rw [Files.media_of_eq_some h] at hput
  exact hput.symm

/-- A file that has grown, after a `sync`. -/
theorem Growing.sync {nm : Name} {fs₀ fs : Files} {b c : Bytes} (h : Growing nm fs₀ b c fs) :
    fs.put nm (fs.media nm).sync = fs₀.put nm (Media.clean (fs.bytes nm)) := by
  obtain ⟨m, rfl, -⟩ := h
  unfold Files.bytes
  rw [Files.media_put, Files.put_put]
  rfl

/-- A write at the end of a file that grows. -/
theorem Growing.write {nm : Name} {fs₀ fs : Files} {b c data : Bytes} (h : Growing nm fs₀ b c fs)
    (hdata : fs.bytes nm ++ data <+: c) :
    Growing nm fs₀ b c
      (fs.put nm ((fs.media nm).change (.write (fs.bytes nm).length data))) := by
  obtain ⟨m, rfl, rfl, happends, -⟩ := h
  unfold Files.bytes at hdata ⊢
  rw [Files.media_put] at hdata ⊢
  rw [Files.put_put]
  refine ⟨_, rfl, rfl, appends_snoc happends, ?_⟩
  rw [Media.bytes_change]
  show splice m.bytes m.bytes.length data <+: c
  rwa [splice_end rfl]

namespace Writer

/-- `offset()`: where the next byte goes. -/
def position (w : Writer) : Nat := w.offset + w.pending.length

def flush (nm : Name) (w : Writer) : Act Writer :=
  if w.pending = [] then pure w
  else do
    Disk.write nm w.offset w.pending
    pure { w with offset := w.offset + w.pending.length, pending := [] }

/-- Makes room for `needed` bytes. -/
def prepare (nm : Name) (w : Writer) (needed : Nat) : Act Writer := do
  let w ← (if w.pending.length + needed > w.bufSize then flush nm w else pure w)
  pure { w with bufSize := if needed > w.bufSize then needed else w.bufSize }

/-- The bytes stored through the stream that `prepare` returns. -/
def put (w : Writer) (data : Bytes) : Writer := { w with pending := w.pending ++ data }

/-- The writer stands at the end of its file and has taken in `c`. -/
structure On (w : Writer) (nm : Name) (fs₀ : Files) (b c : Bytes) (fs : Files) : Prop where
  growing : Growing nm fs₀ b c fs
  offset : w.offset = (fs.bytes nm).length
  contents : fs.bytes nm ++ w.pending = c

variable {w : Writer} {nm : Name} {fs₀ fs : Files} {b c : Bytes} {d : Disk}

theorem On.position (h : w.On nm fs₀ b c fs) : w.position = c.length := by
  rw [← h.contents, List.length_append, ← h.offset]
  rfl

theorem On.put (h : w.On nm fs₀ b c fs) (data : Bytes) : (w.put data).On nm fs₀ b (c ++ data) fs := by
  refine ⟨h.growing.mono (List.prefix_append c data), h.offset, ?_⟩
  rw [← h.contents]
  exact (List.append_assoc _ _ _).symm

theorem flush_leads (h : w.On nm fs₀ b c d.files) : Leads (flush nm w) d
    (fun w' d' => w'.On nm fs₀ b c d'.files ∧ d'.files.bytes nm = c)
    (fun _ d' => Growing nm fs₀ b c d'.files) := by
  have hc := h.contents
  unfold flush
  by_cases hp : w.pending = []
  · rw [if_pos hp]
    refine leads_pure ⟨h, ?_⟩
    rwa [hp, List.append_nil] at hc
  · rw [if_neg hp, h.offset]
    have hwritten : d.files.bytes nm ++ w.pending <+: c := by rw [hc]
    refine ((Disk.write_leads d nm _ hp).mono (fun _ _ h => h) fun _ d' hd' => ?_).bind
      fun _ d' hd' => ?_
    · obtain ⟨-, n, hd'⟩ := hd'
      rw [hd']
      apply h.growing.write
      exact ((List.prefix_append_right_inj _).mpr (List.take_prefix n w.pending)).trans hwritten
    · have hgrown := h.growing.write hwritten
      have hbytes : d'.files.bytes nm = c := by
        rw [hd', Files.bytes, Files.media_put, Media.bytes_change]
        exact (splice_end rfl).trans hc
      rw [← hd'] at hgrown
      refine leads_pure ⟨⟨hgrown, ?_, ?_⟩, hbytes⟩
      · rw [hbytes, ← hc, List.length_append]
      · rw [hbytes]
        exact List.append_nil c

/-- Making room changes nothing of what was written. -/
theorem prepare_leads (h : w.On nm fs₀ b c d.files) (needed : Nat) : Leads (prepare nm w needed) d
    (fun w' d' => w'.On nm fs₀ b c d'.files) (fun _ d' => Growing nm fs₀ b c d'.files) := by
  have hmade : Leads (if w.pending.length + needed > w.bufSize then flush nm w else pure w) d
      (fun w' d' => w'.On nm fs₀ b c d'.files) (fun _ d' => Growing nm fs₀ b c d'.files) := by
    split
    · exact (flush_leads h).mono (fun _ _ h => h.1) fun _ _ h => h
    · exact leads_pure h
  unfold prepare
  refine hmade.bind fun w' d' hw' => leads_pure ?_
  exact ⟨hw'.growing, hw'.offset, hw'.contents⟩

end Writer

/-! ## Reading -/

namespace BulkReader

/-- `prepare`, from a file of the store. -/
def take (nm : Name) (r : BulkReader) (needed : Nat) : Act (Bytes × BulkReader) :=
  if needed > r.window.length then
    if r.offset + needed - r.window.length > r.last then throw (.stop (.ec .short_read))
    else do
      let bufSize := if needed > r.bufSize then needed else r.bufSize
      let n := min (bufSize - r.window.length) (r.last - r.offset)
      let data ← Disk.read nm r.offset n
      let window := r.window ++ data
      pure (window.take needed, ⟨r.last, r.offset + n, window.drop needed, bufSize⟩)
  else pure (r.window.take needed, { r with window := r.window.drop needed })

variable {r : BulkReader} {nm : Name} {s : Bytes} {d : Disk}

/-- The next bytes, when there are that many. -/
theorem take_leads {a : Bytes} (h : r.Ahead (d.files.bytes nm) (a ++ s)) :
    Leads (r.take nm a.length) d
      (fun x d' => x.1 = a ∧ x.2.Ahead (d.files.bytes nm) s ∧ d'.files = d.files)
      (Disk.Kept d) := by
  have h1 := h.last_le
  have h2 := h.offset_le
  have h3 := h.window_le
  have hlen := h.length
  rw [List.length_append] at hlen
  unfold position at hlen
  unfold take
  dsimp only
  by_cases hn : a.length > r.window.length
  · rw [if_pos hn, if_neg (by omega)]
    generalize hbuf : (if a.length > r.bufSize then a.length else r.bufSize) = bufSize
    have hbuf_le : a.length ≤ bufSize := by
      rw [← hbuf]
      split <;> omega
    generalize hm : min (bufSize - r.window.length) (r.last - r.offset) = n
    refine (Disk.read_leads (show r.offset + n ≤ (d.files.bytes nm).length by omega)).bind
      fun data d' hdata => ?_
    obtain ⟨rfl, hfiles⟩ := hdata
    have hstream : (r.window ++ slice (d.files.bytes nm) r.offset n) ++
        slice (d.files.bytes nm) (r.offset + n) (r.last - (r.offset + n)) = a ++ s := by
      rw [List.append_assoc, slice_append_slice, ← h.rest]
      congr 2
      omega
    have hslice : (slice (d.files.bytes nm) r.offset n).length = n := by
      rw [length_slice]
      omega
    obtain ⟨htake, hdrop⟩ := take_drop_of_append_eq hstream
      (by rw [List.length_append, hslice]; omega)
    refine leads_pure ⟨htake, ⟨h1, by show r.offset + n ≤ r.last; omega, ?_, hdrop⟩, hfiles⟩
    show ((r.window ++ slice (d.files.bytes nm) r.offset n).drop a.length).length ≤ r.offset + n
    rw [List.length_drop, List.length_append, hslice]
    omega
  · rw [if_neg hn]
    obtain ⟨htake, hdrop⟩ := take_drop_of_append_eq h.rest (by omega)
    refine leads_pure ⟨htake, ⟨h1, h2, ?_, hdrop⟩, rfl⟩
    show (r.window.drop a.length).length ≤ r.offset
    rw [List.length_drop]
    omega

/-- The file ends before: nothing is read. -/
theorem take_short {needed : Nat} (h : r.Ahead (d.files.bytes nm) s) (hs : s.length < needed) :
    r.take nm needed d = .error (.stop (.ec .short_read)) d := by
  have h2 := h.offset_le
  have h3 := h.window_le
  have hlen := h.length
  unfold position at hlen
  have hwindow : r.window.length ≤ s.length := by
    rw [← h.rest, List.length_append]
    omega
  unfold take
  rw [if_pos (by omega), if_pos (by omega)]
  rfl

theorem frames_take (nm : Name) (r : BulkReader) (needed : Nat) :
    Frames Disk.faults (r.take nm needed) := by
  unfold take
  split
  · split
    · exact frames_throw _
    · exact (Disk.frames_read _ _ _).bind fun _ => frames_pure _
  · exact frames_pure _

end BulkReader

end Metcalfe.Nudb
