import Metcalfe.Nudb.Bucket

/-!
# Files and buffered access to them

A file is its bytes together with the schedule of the failures of its operations: operation
number `k` fails with `faults k`, if that is an error number. `BulkWriter` and `BulkReader` are
the buffers of `detail/bulkio.hpp`. What a writer has taken in is the bytes of its file followed
by the bytes still in its buffer, wherever the boundary between them lies
(`BulkWriter.contents`); what a reader has ahead is the rest of the file up to `last`, however much
of it is already in memory (`BulkReader.Ahead`).
-/

namespace Metcalfe.Nudb

open BigEndian Outcome

abbrev Faults := Nat → Option Nat

/-- The failure is one of those scheduled. -/
def Faulted (faults : Faults) (s : Stop) : Prop :=
  ∃ k errno, faults k = some errno ∧ s = .ec (.system errno)

structure File where
  bytes : Bytes
  ops : Nat
  faults : Faults

namespace File

/-- A system call on the file. -/
def call (f : File) : Except Stop File :=
  match f.faults f.ops with
  | some errno => .error (.ec (.system errno))
  | none => .ok { f with ops := f.ops + 1 }

def create (faults : Faults) : Except Stop File := call ⟨[], 0, faults⟩

def size (f : File) : Except Stop (Nat × File) := do
  let f ← f.call
  pure (f.bytes.length, f)

/-- Reads nothing without a system call, and fails at the end of the file. -/
def read (f : File) (offset n : Nat) : Except Stop (Bytes × File) := do
  if n = 0 then return ([], f)
  let f ← f.call
  if f.bytes.length < offset + n then throw (.ec .short_read)
  pure (slice f.bytes offset n, f)

/-- Writes nothing without a system call. -/
def write (f : File) (offset : Nat) (data : Bytes) : Except Stop File := do
  if data = [] then return f
  let f ← f.call
  pure { f with bytes := splice f.bytes offset data }

variable {f : File}

theorem call_ends (f : File) :
    Ends f.call (fun f' => f'.bytes = f.bytes ∧ f'.faults = f.faults) (Faulted f.faults) := by
  unfold call
  split
  · rename_i errno h
    exact ⟨f.ops, errno, h, rfl⟩
  · exact ⟨rfl, rfl⟩

theorem create_ends (faults : Faults) :
    Ends (create faults) (fun f => f.bytes = [] ∧ f.faults = faults) (Faulted faults) :=
  call_ends ⟨[], 0, faults⟩

theorem size_ends (f : File) :
    Ends f.size (fun x => x.1 = f.bytes.length ∧ x.2.bytes = f.bytes ∧ x.2.faults = f.faults)
      (Faulted f.faults) := by
  refine f.call_ends.bind fun f' hf' => ?_
  exact ⟨congrArg List.length hf'.1, hf'⟩

theorem read_ends {offset n : Nat} (h : offset + n ≤ f.bytes.length) :
    Ends (f.read offset n) (fun x => x.1 = slice f.bytes offset n ∧ x.2.bytes = f.bytes ∧
      x.2.faults = f.faults) (Faulted f.faults) := by
  unfold read
  by_cases hn : n = 0
  · subst hn
    exact ⟨by simp [slice], rfl, rfl⟩
  · simp only [hn, if_false]
    refine f.call_ends.bind fun f' hf' => ?_
    rw [if_neg (by rw [hf'.1]; omega)]
    exact ⟨by rw [hf'.1], hf'⟩

theorem write_ends {offset : Nat} (h : offset = f.bytes.length) (data : Bytes) :
    Ends (f.write offset data) (fun f' => f'.bytes = f.bytes ++ data ∧ f'.faults = f.faults)
      (Faulted f.faults) := by
  unfold write
  by_cases hdata : data = []
  · subst hdata
    exact ⟨by simp, rfl⟩
  · simp only [hdata, if_false]
    refine f.call_ends.bind fun f' hf' => ?_
    refine ⟨?_, hf'.2⟩
    show splice f'.bytes offset data = _
    rw [hf'.1, splice_end h]

end File

/-! ## Writing -/

structure BulkWriter where
  file : File
  offset : Nat
  pending : Bytes
  bufSize : Nat

namespace BulkWriter

/-- `offset()`: where the next byte goes. -/
def position (w : BulkWriter) : Nat := w.offset + w.pending.length

def flush (w : BulkWriter) : Except Stop BulkWriter := do
  if w.pending = [] then return w
  let f ← w.file.write w.offset w.pending
  pure { w with file := f, offset := w.offset + w.pending.length, pending := [] }

/-- Makes room for `needed` bytes. -/
def prepare (w : BulkWriter) (needed : Nat) : Except Stop BulkWriter := do
  let w ← if w.pending.length + needed > w.bufSize then w.flush else pure w
  pure { w with bufSize := if needed > w.bufSize then needed else w.bufSize }

/-- The bytes stored through the stream that `prepare` returns. -/
def put (w : BulkWriter) (data : Bytes) : BulkWriter := { w with pending := w.pending ++ data }

/-- Everything written so far, in the file or in the buffer. -/
def contents (w : BulkWriter) : Bytes := w.file.bytes ++ w.pending

/-- The writer stands at the end of its file and has taken in `c`, of which at least `flushed`
is in the file. -/
structure At (w : BulkWriter) (flushed c : Bytes) (faults : Faults) : Prop where
  offset : w.offset = w.file.bytes.length
  contents : w.contents = c
  flushed : flushed <+: w.file.bytes
  faults : w.file.faults = faults

variable {w : BulkWriter} {flushed c : Bytes} {faults : Faults}

theorem At.position (h : w.At flushed c faults) : w.position = c.length := by
  rw [← h.contents, BulkWriter.contents, List.length_append, ← h.offset]
  rfl

theorem At.put (h : w.At flushed c faults) (data : Bytes) :
    (w.put data).At flushed (c ++ data) faults := by
  refine ⟨h.offset, ?_, h.flushed, h.faults⟩
  rw [← h.contents]
  exact (List.append_assoc _ _ _).symm

/-- A call on the file that does not write. -/
theorem At.of_file (h : w.At flushed c faults) {f : File} (hbytes : f.bytes = w.file.bytes)
    (hfaults : f.faults = w.file.faults) : At { w with file := f } flushed c faults :=
  ⟨h.offset.trans (congrArg List.length hbytes.symm),
    (congrArg (· ++ w.pending) hbytes).trans h.contents, hbytes.symm ▸ h.flushed,
    hfaults.trans h.faults⟩

theorem flush_ends (h : w.At flushed c faults) :
    Ends w.flush (fun w' => w'.At flushed c faults ∧ w'.file.bytes = c) (Faulted faults) := by
  have hc := h.contents
  unfold contents at hc
  unfold flush
  by_cases hp : w.pending = []
  · simp only [hp, if_true]
    exact ⟨h, by simpa [hp] using hc⟩
  · simp only [hp, if_false]
    rw [← h.faults]
    refine (File.write_ends h.offset w.pending).bind fun f hf => ?_
    rw [hc] at hf
    refine ⟨⟨?_, ?_, ?_, hf.2⟩, hf.1⟩
    · show w.offset + w.pending.length = f.bytes.length
      rw [hf.1, ← hc, List.length_append, h.offset]
    · show f.bytes ++ [] = c
      rw [hf.1, List.append_nil]
    · show flushed <+: f.bytes
      rw [hf.1, ← hc]
      exact h.flushed.trans (List.prefix_append _ _)

/-- Making room changes nothing of what was written. -/
theorem prepare_ends (h : w.At flushed c faults) (needed : Nat) :
    Ends (w.prepare needed) (fun w' => w'.At flushed c faults) (Faulted faults) := by
  unfold prepare
  dsimp only
  split
  · refine (flush_ends h).bind fun w' hw' => ?_
    exact ⟨hw'.1.offset, hw'.1.contents, hw'.1.flushed, hw'.1.faults⟩
  · exact ⟨h.offset, h.contents, h.flushed, h.faults⟩

end BulkWriter

/-! ## Reading -/

/-- `window` holds the bytes that were read from the file and not yet consumed. -/
structure BulkReader where
  last : Nat
  offset : Nat
  window : Bytes
  bufSize : Nat

namespace BulkReader

/-- `offset()`: the position of the next byte to be consumed. -/
def position (r : BulkReader) : Nat := r.offset - r.window.length

def eof (r : BulkReader) : Bool := r.position ≥ r.last

def prepare (r : BulkReader) (f : File) (needed : Nat) :
    Except Stop (Bytes × BulkReader × File) := do
  if needed > r.window.length then
    if r.offset + needed - r.window.length > r.last then throw (.ec .short_read)
    let bufSize := if needed > r.bufSize then needed else r.bufSize
    let n := min (bufSize - r.window.length) (r.last - r.offset)
    let (data, f) ← f.read r.offset n
    let window := r.window ++ data
    pure (window.take needed, ⟨r.last, r.offset + n, window.drop needed, bufSize⟩, f)
  else
    pure (r.window.take needed, { r with window := r.window.drop needed }, f)

/-- The bytes from the reader's position to `last` are `s`. -/
structure Ahead (r : BulkReader) (f : Bytes) (s : Bytes) : Prop where
  last_le : r.last ≤ f.length
  offset_le : r.offset ≤ r.last
  window_le : r.window.length ≤ r.offset
  rest : r.window ++ slice f r.offset (r.last - r.offset) = s

variable {r : BulkReader} {f s : Bytes}

theorem Ahead.length (h : r.Ahead f s) : s.length = r.last - r.position := by
  have h1 := h.last_le
  have h2 := h.offset_le
  have h3 := h.window_le
  rw [← h.rest, List.length_append, length_slice, position]
  omega

theorem Ahead.position_le (h : r.Ahead f s) : r.position ≤ r.last := by
  have := h.offset_le
  unfold position
  omega

theorem Ahead.eof_iff (h : r.Ahead f s) : r.eof = true ↔ s = [] := by
  have hlen := h.length
  have hle := h.position_le
  rw [eof, decide_eq_true_eq, ← List.length_eq_zero_iff]
  omega

/-- The bytes below `last` are all that matters of the file. -/
theorem ahead_iff_of_prefix {f' : Bytes} (hf : f <+: f') (hlast : r.last ≤ f.length) :
    r.Ahead f s ↔ r.Ahead f' s := by
  obtain ⟨t, rfl⟩ := hf
  constructor
  · intro h
    have h2 := h.offset_le
    refine ⟨hlast.trans (by simp), h2, h.window_le, ?_⟩
    rw [slice_append_of_le (by omega)]
    exact h.rest
  · intro h
    have h2 := h.offset_le
    refine ⟨hlast, h2, h.window_le, ?_⟩
    rw [← slice_append_of_le (c := t) (by omega)]
    exact h.rest

theorem take_drop_of_append_eq {x y a s : Bytes} (h : x ++ y = a ++ s) (hle : a.length ≤ x.length) :
    x.take a.length = a ∧ x.drop a.length ++ y = s := by
  have htake : x.take a.length = a := by
    have hcut := congrArg (List.take a.length) h
    rwa [List.take_append_of_le_length hle, List.take_left' rfl] at hcut
  refine ⟨htake, ?_⟩
  rw [← List.take_append_drop a.length x, htake, List.append_assoc] at h
  exact List.append_cancel_left h

/-- The next bytes, when there are that many. -/
theorem prepare_ends {file : File} {a : Bytes} (h : r.Ahead file.bytes (a ++ s)) :
    Ends (r.prepare file a.length)
      (fun x => x.1 = a ∧ x.2.1.Ahead file.bytes s ∧ x.2.1.position = r.position + a.length ∧
        x.2.1.last = r.last ∧ x.2.2.bytes = file.bytes ∧ x.2.2.faults = file.faults)
      (Faulted file.faults) := by
  have h1 := h.last_le
  have h2 := h.offset_le
  have h3 := h.window_le
  have hlen := h.length
  rw [List.length_append] at hlen
  unfold position at hlen
  unfold prepare
  by_cases hn : a.length > r.window.length
  · rw [if_pos hn, if_neg (by omega)]
    simp only
    -- At least what is missing is read, and nothing past `last`.
    generalize hbuf : (if a.length > r.bufSize then a.length else r.bufSize) = bufSize
    have hbuf_le : a.length ≤ bufSize := by
      rw [← hbuf]
      split <;> omega
    generalize hm : min (bufSize - r.window.length) (r.last - r.offset) = n
    have hn_le : r.offset + n ≤ r.last := by omega
    have hn_ge : a.length ≤ r.window.length + n := by omega
    refine (File.read_ends (show r.offset + n ≤ file.bytes.length by omega)).bind fun x hx => ?_
    obtain ⟨hdata, hbytes, hfaults⟩ := hx
    have hdata_len : x.1.length = n := by
      rw [hdata, length_slice]
      omega
    have hstream : (r.window ++ x.1) ++ slice file.bytes (r.offset + n) (r.last - (r.offset + n)) =
        a ++ s := by
      rw [List.append_assoc, hdata, slice_append_slice, ← h.rest]
      congr 2
      omega
    obtain ⟨htake, hdrop⟩ := take_drop_of_append_eq hstream (by rw [List.length_append]; omega)
    have hdrop_len : ((r.window ++ x.1).drop a.length).length = r.window.length + n - a.length := by
      rw [List.length_drop, List.length_append, hdata_len]
    refine ⟨htake, ⟨h1, hn_le, ?_, hdrop⟩, ?_, rfl, hbytes, hfaults⟩
    · show ((r.window ++ x.1).drop a.length).length ≤ r.offset + n
      omega
    · show r.offset + n - ((r.window ++ x.1).drop a.length).length = r.offset - r.window.length + _
      omega
  · rw [if_neg hn]
    obtain ⟨htake, hdrop⟩ := take_drop_of_append_eq h.rest (by omega)
    have hdrop_len : (r.window.drop a.length).length = r.window.length - a.length := by
      rw [List.length_drop]
    refine ⟨htake, ⟨h1, h2, ?_, hdrop⟩, ?_, rfl, rfl, rfl⟩
    · show (r.window.drop a.length).length ≤ r.offset
      omega
    · show r.offset - (r.window.drop a.length).length = r.offset - r.window.length + _
      omega

end BulkReader

end Metcalfe.Nudb
