import Metcalfe.Import.Opening

/-!
# What the passes read

Every pass reads the data section again while spill records are appended behind it. What it
finds is the log of its reading loop, which does not change the loop (`traceData_result`).

A pass finds the records that were written, in order and where they were written, and stops at
`df_size`. It may be cut short by a failing operation on the file or by an assertion; what it has
found by then is the first part of the same list.
-/

namespace Metcalfe.Import

open BigEndian Nudb Outcome Outcome.Logged

/-- The reading loop of a pass. -/
def tracePass (env : Env) (kh : KeyFileHeader) (dfSize b0 b1 : Nat) (w : BulkWriter) :
    Logged Found Stop Scan :=
  traceData env kh b0 b1 dfSize ⟨w, ⟨dfSize, datFileHeaderSize, [], Env.bulkSize⟩,
    List.replicate (b1 - b0) (Bucket.empty env.blockSize).p⟩

/-- The reading loops of the passes that are entered, in order. -/
def tracePasses (env : Env) (kh : KeyFileHeader) (dfSize : Nat) :
    Nat → Nat → BulkWriter → File → List (Logged Found Stop Scan)
  | 0, _, _, _ => []
  | fuel + 1, b0, w, kf =>
    if b0 < kh.buckets then
      let b1 := min (b0 + env.windowSize) kh.buckets
      tracePass env kh dfSize b0 b1 w ::
        match pass env kh dfSize b0 b1 w kf with
        | .ok (w, kf) => tracePasses env kh dfSize fuel (b0 + env.windowSize) w kf
        | .error _ => []
    else []

/-- The report is of a record of the file. -/
def Found.StandsIn (dat : Bytes) : Found → Prop
  | .data offset size key value stop =>
    size = value.length ∧ slice dat offset (stop - offset) = dataRecord key value
  | .spill _ => False

variable {env : Env} {kh : KeyFileHeader} {b0 b1 : Nat} {dat : Bytes} {records : List Record}
  {w : BulkWriter}

/-- The offsets in the log are those at which the records were written. -/
theorem foundFrom_standsIn (pre : Bytes) (records : List Record) :
    ∀ f ∈ foundFrom pre.length records,
      f.StandsIn (pre ++ records.flatMap fun r => dataRecord r.1 r.2) := by
  induction records generalizing pre with
  | nil => simp [foundFrom]
  | cons r records ih =>
    obtain ⟨key, out⟩ := r
    intro f hf
    rw [foundFrom, List.mem_cons] at hf
    rw [List.flatMap_cons]
    rcases hf with rfl | hf
    · refine ⟨rfl, ?_⟩
      rw [Nat.add_sub_cancel_left]
      exact slice_middle rfl rfl
    · rw [← List.length_append] at hf
      rw [← List.append_assoc]
      exact ih (pre ++ dataRecord key out) f hf

/-- The reports of the records of the data section. -/
def originals (records : List Record) : List Found := foundFrom datFileHeaderSize records

/-- A pass over the data section of `records` finds these records and no others. -/
structure Rereads (env : Env) (records : List Record) (x : Logged Found Stop Scan) : Prop where
  found : x.log <+: originals records
  standsIn : ∀ f ∈ x.log, f.StandsIn (dataSection env records)
  noSpill : ∀ offset, Found.spill offset ∉ x.log
  complete : ∀ s, x.result = .ok s →
    x.log = originals records ∧ s.reader.position = (dataSection env records).length
  fails : ∀ e, x.result = .error e → PlaceFails env.asserts env.datFaults e
  noShortRead : x.result ≠ .error (.ec .short_read)

theorem not_placeFails_short_read (asserts : Bool) (faults : Faults) :
    ¬ PlaceFails asserts faults (.ec .short_read) := by
  intro h
  rcases h with ⟨k, errno, -, h⟩ | ⟨h, -⟩
  · cases h
  · cases h

theorem tracePass_logs (kh : KeyFileHeader) (b0 b1 : Nat) (hrec : ∀ r ∈ records, Framed r)
    (hw : w.At (dataSection env records) dat env.datFaults) :
    Logs (tracePass env kh (dataSection env records).length b0 b1 w) (originals records)
      (fun s => s.reader.position = (dataSection env records).length ∧
        ∃ dat', s.writer.At (dataSection env records) dat' env.datFaults)
      (PlaceFails env.asserts env.datFaults) := by
  refine (traceData_logs hrec (placed_start hw _) (ahead_start env records _)
    (length_le_dataSection env records)).mono (fun s hs => ?_) (fun _ h => h)
  obtain ⟨hpos, dat', hplaced⟩ := hs
  refine ⟨?_, dat', hplaced.writer⟩
  rw [hpos, dataSection, List.length_append, length_writeDatFileHeader]
  rfl

theorem tracePass_rereads (hrec : ∀ r ∈ records, Framed r)
    (hw : w.At (dataSection env records) dat env.datFaults) :
    Rereads env records (tracePass env kh (dataSection env records).length b0 b1 w) := by
  obtain ⟨hpre, hends⟩ := tracePass_logs kh b0 b1 hrec hw
  have hstands : ∀ f ∈ originals records, f.StandsIn (dataSection env records) := by
    have hhead := foundFrom_standsIn (writeDatFileHeader env.datFileHeader) records
    rw [length_writeDatFileHeader] at hhead
    exact hhead
  refine ⟨hpre, fun f hf => hstands f (hpre.mem hf), ?_, ?_, ?_, ?_⟩
  · intro offset hmem
    exact hstands _ (hpre.mem hmem)
  · intro s hs
    obtain ⟨hlog, hpos, -⟩ := hends.of_ok hs
    exact ⟨hlog, hpos⟩
  · intro e he
    exact hends.of_error he
  · intro hshort
    exact not_placeFails_short_read _ _ (hends.of_error hshort)

/-- The writer that a pass leaves is one that the next pass can start with. -/
theorem pass_writer (hrec : ∀ r ∈ records, Framed r)
    (hw : w.At (dataSection env records) dat env.datFaults) {kf : File} {x : BulkWriter × File}
    (hpass : pass env kh (dataSection env records).length b0 b1 w kf = .ok x) :
    ∃ dat', x.1.At (dataSection env records) dat' env.datFaults := by
  unfold pass at hpass
  obtain ⟨s, hscan, hpass⟩ := bind_eq_ok.mp hpass
  obtain ⟨kf', -, hpass⟩ := bind_eq_ok.mp hpass
  cases hpass
  rw [← traceData_result] at hscan
  obtain ⟨-, -, hwriter⟩ := (tracePass_logs kh b0 b1 hrec hw).2.of_ok hscan
  exact hwriter

/-- The writer of a run is such a writer when the passes begin. -/
theorem importData_writer {it : Iterator} {n dfSize : Nat} {f : File}
    (hdata : importData env it = .ok (w, n)) (hsize : w.file.size = .ok (dfSize, f)) :
    dfSize = (dataSection env (it.records.map (stored env))).length ∧
      (∀ r ∈ it.records.map (stored env), Framed r) ∧
      BulkWriter.At { w with file := f } (dataSection env (it.records.map (stored env)))
        (dataSection env (it.records.map (stored env))) env.datFaults := by
  obtain ⟨hok, -, hw, hbytes⟩ := (importData_ends it).of_ok hdata
  obtain ⟨hlen, hfile, hfaults⟩ := (File.size_ends w.file).of_ok hsize
  refine ⟨?_, fun r hr => (hok.writable r hr).framed, hw.of_file hfile hfaults⟩
  rw [← hbytes]
  exact hlen

/-- Every pass finds the records that were written, whatever has been appended to the data file
before it or is still in the writer's buffer. -/
theorem passes_reread (hrec : ∀ r ∈ records, Framed r)
    (hw : w.At (dataSection env records) dat env.datFaults) (fuel b0 : Nat) (kf : File) :
    ∀ x ∈ tracePasses env kh (dataSection env records).length fuel b0 w kf,
      Rereads env records x := by
  induction fuel generalizing b0 w dat kf with
  | zero => simp [tracePasses]
  | succ fuel ih =>
    intro x hx
    rw [tracePasses] at hx
    split at hx
    · rcases List.mem_cons.mp hx with rfl | hx
      · exact tracePass_rereads hrec hw
      · cases hpass : pass env kh (dataSection env records).length b0
          (min (b0 + env.windowSize) kh.buckets) w kf with
        | error e => simp [hpass] at hx
        | ok y =>
          obtain ⟨dat', hw'⟩ := pass_writer hrec hw hpass
          simp only [hpass] at hx
          exact ih hw' _ _ x hx
    · simp at hx

/-- The writer behind the data section of `records`, with the spill record of an empty bucket in
its buffer. -/
def spillingWriter (records : List Record) : BulkWriter where
  file := ⟨dataSection (quietEnv 128) records, 0, fun _ => none⟩
  offset := (dataSection (quietEnv 128) records).length
  pending := toBytes 6 0 ++ (toBytes 2 8 ++ (toBytes 2 0 ++ toBytes 6 0))
  bufSize := Env.bulkSize

theorem passes_reread_spilling :
    tracePasses (quietEnv 128) ((quietEnv 128).keyFileHeader 2)
        (dataSection (quietEnv 128) [plainRecord 5, plainRecord 9]).length 1 0
        (spillingWriter [plainRecord 5, plainRecord 9]) ⟨[], 0, fun _ => none⟩ ≠ [] ∧
      ∀ x ∈ tracePasses (quietEnv 128) ((quietEnv 128).keyFileHeader 2)
        (dataSection (quietEnv 128) [plainRecord 5, plainRecord 9]).length 1 0
        (spillingWriter [plainRecord 5, plainRecord 9]) ⟨[], 0, fun _ => none⟩,
        Rereads (quietEnv 128) [plainRecord 5, plainRecord 9] x := by
  have hrec : ∀ r ∈ [plainRecord 5, plainRecord 9], Framed r := by
    intro r hr
    simp only [List.mem_cons, List.not_mem_nil, or_false] at hr
    rcases hr with rfl | rfl
    · exact ⟨rfl, by decide, by decide⟩
    · exact ⟨rfl, by decide, by decide⟩
  refine ⟨?_, passes_reread hrec ⟨rfl, rfl, List.prefix_refl _, rfl⟩ 1 0 _⟩
  rw [tracePasses, if_pos (by decide)]
  exact List.cons_ne_nil _ _

end Metcalfe.Import
