import Mathlib.Algebra.BigOperators.Intervals
import Metcalfe.Import.Model
import Metcalfe.Library.Logged

/-!
# What the passes leave

A pass reads the records of the data section in order and places the keys that belong to its
window. The result is said per bucket: bucket `n` holds the chain of the keys with index `n`, in
the order of the data file, whichever pass it was filled in (`chainOf`). `Placed` is the
invariant of the reading loop, over the keys read so far; `Filled` the one of the loop of
passes, over the buckets filled so far.

The data section does not change while it is read: spill records are only appended, and the
reader stops at the size the file had before the passes.
-/

namespace Metcalfe.Import

open BigEndian Nudb Outcome Outcome.Logged

def Entry.index (kh : KeyFileHeader) (e : Entry) : Nat := bucketIndex e.hash kh.buckets kh.modulus

/-- The chain of bucket `n`, when the keys of `es` are placed in order. -/
def chainOf (env : Env) (kh : KeyFileHeader) (es : List Entry) (n : Nat) : Chain env.capacity :=
  Chain.build env.capacity_pos (es.filter fun e => Entry.index kh e = n)

/-- The bytes of the spill records of the buckets in `[b0, b1)`. -/
def spillBytes (env : Env) (kh : KeyFileHeader) (es : List Entry) (b0 b1 : Nat) : Nat :=
  ∑ n ∈ Finset.Ico b0 b1, (chainOf env kh es n).spilled.length * spillSize env.capacity

/-- The entries of the data records that stand one after another from `base` on. -/
def entriesFrom (hasher : Hasher) (kh : KeyFileHeader) : Nat → List Record → List Entry
  | _, [] => []
  | base, (key, out) :: rest =>
    ⟨base, out.length, hash hasher key kh.salt⟩ ::
      entriesFrom hasher kh (base + (dataRecord key out).length) rest

variable {env : Env} {kh : KeyFileHeader} {b0 b1 : Nat}

theorem length_dataRecord (key out : Bytes) :
    (dataRecord key out).length = 6 + (key.length + out.length) := by
  simp [dataRecord]

theorem chainOf_snoc (es : List Entry) (e : Entry) (n : Nat) :
    chainOf env kh (es ++ [e]) n =
      if Entry.index kh e = n then (chainOf env kh es n).place env.capacity_pos e
      else chainOf env kh es n := by
  unfold chainOf
  rw [List.filter_append]
  by_cases hn : Entry.index kh e = n
  · simp [hn, Chain.build_snoc]
  · simp [hn]

theorem chainOf_nil (n : Nat) : chainOf env kh [] n = Chain.empty env.capacity := rfl

theorem mem_of_mem_chainOf {es : List Entry} {n : Nat} {e : Entry}
    (h : e ∈ (chainOf env kh es n).entries) : e ∈ es ∧ Entry.index kh e = n := by
  have hmem := (Chain.build_entries env.capacity_pos _).mem_iff.mp h
  simpa using hmem

/-- One more key in bucket `n` of the window. -/
theorem spillBytes_snoc (env : Env) (es : List Entry) {e : Entry} (h0 : b0 ≤ Entry.index kh e)
    (h1 : Entry.index kh e < b1) :
    spillBytes env kh (es ++ [e]) b0 b1 +
        (chainOf env kh es (Entry.index kh e)).spilled.length * spillSize env.capacity =
      spillBytes env kh es b0 b1 +
        ((chainOf env kh es (Entry.index kh e)).place env.capacity_pos e).spilled.length *
          spillSize env.capacity := by
  have hmem : Entry.index kh e ∈ Finset.Ico b0 b1 := Finset.mem_Ico.mpr ⟨h0, h1⟩
  unfold spillBytes
  rw [← Finset.add_sum_erase _ _ hmem, ← Finset.add_sum_erase _ _ hmem, chainOf_snoc, if_pos rfl]
  have hrest : ∀ n ∈ (Finset.Ico b0 b1).erase (Entry.index kh e),
      (chainOf env kh (es ++ [e]) n).spilled.length * spillSize env.capacity =
        (chainOf env kh es n).spilled.length * spillSize env.capacity := by
    intro n hn
    rw [chainOf_snoc, if_neg (Finset.ne_of_mem_erase hn).symm]
  rw [Finset.sum_congr rfl hrest]
  omega

theorem spillBytes_snoc_of_outside {es : List Entry} {e : Entry}
    (h : Entry.index kh e < b0 ∨ Entry.index kh e ≥ b1) :
    spillBytes env kh (es ++ [e]) b0 b1 = spillBytes env kh es b0 b1 := by
  apply Finset.sum_congr rfl
  intro n hn
  rw [Finset.mem_Ico] at hn
  rw [chainOf_snoc, if_neg (by omega)]

theorem spillBytes_consecutive (es : List Entry) {b2 : Nat} (h01 : b0 ≤ b1) (h12 : b1 ≤ b2) :
    spillBytes env kh es b0 b1 + spillBytes env kh es b1 b2 = spillBytes env kh es b0 b2 :=
  Finset.sum_Ico_consecutive _ h01 h12

/-! ## The reading loop -/

/-- The keys of `es` that belong to the window are in its buckets, and the data file has grown
from `base` to `dat` by their spill records. -/
structure Placed (env : Env) (kh : KeyFileHeader) (b0 b1 : Nat) (flushed base : Bytes)
    (es : List Entry) (dat : Bytes) (s : Scan) : Prop where
  writer : s.writer.At flushed dat env.datFaults
  grown : base <+: dat
  length : dat.length = base.length + spillBytes env kh es b0 b1
  window_length : s.window.length = b1 - b0
  hashes : ∀ e ∈ es, e.hash < 256 ^ 6
  fits : ∀ e ∈ es, b0 ≤ Entry.index kh e → Entry.index kh e < b1 → Fits env.asserts e.offset
  holds : ∀ n, b0 ≤ n → n < b1 →
    Holds env.asserts env.blockSize dat (chainOf env kh es n) (s.window.getD (n - b0) [])

variable {flushed base dat : Bytes} {es : List Entry} {s : Scan}

/-- Reading does not touch what was placed. -/
theorem Placed.of_eq (h : Placed env kh b0 b1 flushed base es dat s) {s' : Scan}
    (hw : s'.writer.At flushed dat env.datFaults) (hwin : s'.window = s.window) :
    Placed env kh b0 b1 flushed base es dat s' :=
  ⟨hw, h.grown, h.length, hwin ▸ h.window_length, h.hashes, h.fits, hwin ▸ h.holds⟩

/-- A key of another window. -/
theorem Placed.skip (h : Placed env kh b0 b1 flushed base es dat s) {e : Entry}
    (he : e.hash < 256 ^ 6) (hout : Entry.index kh e < b0 ∨ Entry.index kh e ≥ b1) :
    Placed env kh b0 b1 flushed base (es ++ [e]) dat s := by
  refine ⟨h.writer, h.grown, ?_, h.window_length, ?_, ?_, ?_⟩
  · rw [spillBytes_snoc_of_outside hout, h.length]
  · exact List.forall_mem_append.mpr ⟨h.hashes, List.forall_mem_singleton.mpr he⟩
  · refine List.forall_mem_append.mpr ⟨h.fits, List.forall_mem_singleton.mpr fun h0 h1 => ?_⟩
    omega
  · intro n h0 h1
    rw [chainOf_snoc, if_neg (by omega)]
    exact h.holds n h0 h1

/-- A key of this window. -/
theorem placeKey_ends (h : Placed env kh b0 b1 flushed base es dat s) {e : Entry}
    (he : e.hash < 256 ^ 6) (h0 : b0 ≤ Entry.index kh e) (h1 : Entry.index kh e < b1) :
    Ends (placeKey env s (Entry.index kh e - b0) e)
      (fun s' => s'.reader = s.reader ∧
        ∃ dat', Placed env kh b0 b1 flushed base (es ++ [e]) dat' s')
      (PlaceFails env.asserts env.datFaults) := by
  have hchain := h.holds _ h0 h1
  have hroom := Chain.makeRoom_lt env.capacity_pos (chainOf env kh es (Entry.index kh e))
  have hhash : ∀ x ∈ (chainOf env kh es (Entry.index kh e)).makeRoom.top, x.hash < 256 ^ 6 := by
    intro x hx
    have hx' : x ∈ (chainOf env kh es (Entry.index kh e)).entries := by
      rw [← Chain.makeRoom_entries]
      exact List.mem_append_left _ hx
    exact h.hashes x (mem_of_mem_chainOf hx').1
  unfold placeKey
  refine (maybeSpill_ends env.blockSize_lt env.capacity_pos h.writer hchain).bind fun x hx => ?_
  obtain ⟨tail, hw, hroomy, hlen⟩ := hx
  refine ((insert_roomy_ends env.blockSize_lt env.capacity_pos hroom hroomy hhash e).mono
    (fun _ h => h) (fun _ h => .inr h)).bind fun b hb => ?_
  obtain ⟨hb, hfits⟩ := hb
  have hgrown : dat <+: dat ++ tail := List.prefix_append _ _
  refine ⟨rfl, dat ++ tail, hw, h.grown.trans hgrown, ?_, ?_, ?_, ?_, ?_⟩
  · have hsum := spillBytes_snoc env es h0 h1
    have hplace : ((chainOf env kh es (Entry.index kh e)).place env.capacity_pos e).spilled =
        (chainOf env kh es (Entry.index kh e)).makeRoom.spilled := rfl
    have hbase := h.length
    rw [hplace] at hsum
    unfold Env.capacity at hsum
    rw [List.length_append]
    omega
  · show (s.window.set _ _).length = _
    rw [List.length_set, h.window_length]
  · exact List.forall_mem_append.mpr ⟨h.hashes, List.forall_mem_singleton.mpr he⟩
  · exact List.forall_mem_append.mpr ⟨h.fits, List.forall_mem_singleton.mpr fun _ _ => hfits⟩
  · intro n hn0 hn1
    show Holds _ _ _ _ ((s.window.set _ _).getD _ _)
    have hin : n - b0 < s.window.length := by
      rw [h.window_length]
      omega
    rw [chainOf_snoc]
    by_cases hn : Entry.index kh e = n
    · subst hn
      rw [if_pos rfl, List.getD_eq_getElem?_getD, List.getElem?_set_self hin]
      exact hb
    · rw [if_neg hn, List.getD_eq_getElem?_getD, List.getElem?_set_ne (by omega),
        ← List.getD_eq_getElem?_getD]
      exact (h.holds n hn0 hn1).mono hgrown

/-- The next bytes of the data section. -/
theorem Scan.prepare_ends (h : Placed env kh b0 b1 flushed base es dat s) {a rest : Bytes}
    (hr : s.reader.Ahead flushed (a ++ rest)) :
    Ends (s.prepare a.length)
      (fun x => x.1 = a ∧ Placed env kh b0 b1 flushed base es dat x.2 ∧
        x.2.reader.Ahead flushed rest ∧
        x.2.reader.position = s.reader.position + a.length)
      (Faulted env.datFaults) := by
  have hlast := hr.last_le
  have hfile := (BulkReader.ahead_iff_of_prefix h.writer.flushed hlast).mp hr
  unfold Scan.prepare
  rw [← h.writer.faults]
  refine (BulkReader.prepare_ends hfile).bind fun x hx => ?_
  obtain ⟨ha, hahead, hpos, hlast', hbytes, hfaults⟩ := hx
  refine ⟨ha, h.of_eq (h.writer.of_file hbytes hfaults) rfl, ?_, hpos⟩
  exact (BulkReader.ahead_iff_of_prefix h.writer.flushed (hlast'.le.trans hlast)).mpr hahead

/-- The end of a round, once a data record is read. -/
def placeRecord (env : Env) (kh : KeyFileHeader) (b0 b1 : Nat) (s : Scan) (e : Entry) :
    Except Stop Scan := do
  let n ← indexOf env kh e.hash
  if n < b0 ∨ n ≥ b1 then pure s
  else placeKey env s (n - b0) e

theorem placeRecord_ends (h : Placed env kh b0 b1 flushed base es dat s) {e : Entry}
    (he : e.hash < 256 ^ 6) :
    Ends (placeRecord env kh b0 b1 s e)
      (fun s' => s'.reader = s.reader ∧
        ∃ dat', Placed env kh b0 b1 flushed base (es ++ [e]) dat' s')
      (PlaceFails env.asserts env.datFaults) := by
  unfold placeRecord indexOf
  split
  · rename_i hassert
    exact .inr ⟨rfl, hassert.1⟩
  · show Ends (if _ then _ else _) _ _
    split
    · rename_i hout
      exact ⟨rfl, dat, h.skip he hout⟩
    · rename_i hin
      rw [not_or, not_lt, not_le] at hin
      exact placeKey_ends h he hin.1 hin.2

/-- The size field of a data record. -/
theorem prepare_size_ends (h : Placed env kh b0 b1 flushed base es dat s) {key out rest : Bytes}
    (hr : s.reader.Ahead flushed (dataRecord key out ++ rest)) (hlt : out.length < 256 ^ 6) :
    Ends (s.prepare 6)
      (fun x => ofBytes x.1 = out.length ∧ Placed env kh b0 b1 flushed base es dat x.2 ∧
        x.2.reader.Ahead flushed ((key ++ out) ++ rest) ∧
        x.2.reader.position = s.reader.position + 6)
      (PlaceFails env.asserts env.datFaults) := by
  have hr' : s.reader.Ahead flushed (toBytes 6 out.length ++ ((key ++ out) ++ rest)) := by
    simpa [dataRecord] using hr
  have hstep := Scan.prepare_ends h hr'
  rw [length_toBytes] at hstep
  refine hstep.mono (fun x hx => ?_) (fun _ h => .inl h)
  obtain ⟨hx, hplaced, hahead, hpos⟩ := hx
  exact ⟨by rw [hx, ofBytes_toBytes_of_lt hlt], hplaced, hahead, hpos⟩

/-- Its key and its value. -/
theorem prepare_data_ends (h : Placed env kh b0 b1 flushed base es dat s) {key out rest : Bytes}
    (hr : s.reader.Ahead flushed ((key ++ out) ++ rest)) (hkey : key.length = 32) :
    Ends (s.prepare (32 + out.length))
      (fun x => x.1.take 32 = key ∧ x.1.drop 32 = out ∧
        Placed env kh b0 b1 flushed base es dat x.2 ∧ x.2.reader.Ahead flushed rest ∧
        x.2.reader.position = s.reader.position + (32 + out.length))
      (PlaceFails env.asserts env.datFaults) := by
  have hstep := Scan.prepare_ends h hr
  rw [List.length_append, hkey] at hstep
  refine hstep.mono (fun x hx => ?_) (fun _ h => .inl h)
  obtain ⟨hx, hplaced, hahead, hpos⟩ := hx
  rw [hx]
  exact ⟨List.take_left' hkey, List.drop_left' hkey, hplaced, hahead, hpos⟩

/-! ## What the loop reads

The loop is followed with a log: each round reports the record it finds, with its offset and the
position of the reader behind it, or that it enters the branch for spill records.
-/

/-- What a round of the reading loop reports. -/
inductive Found where
  | data (offset size : Nat) (key value : Bytes) (stop : Nat)
  | spill (offset : Nat)
  deriving DecidableEq

/-- One round of the reading loop, with its report. -/
def traceRecord (env : Env) (kh : KeyFileHeader) (b0 b1 : Nat) (s : Scan) :
    Logged Found Stop Scan := do
  let offset := s.reader.position
  let (is, s) ← s.prepare 6
  let size := ofBytes is
  if size > 0 then
    let (is, s) ← s.prepare (32 + size)
    let key := is.take 32
    tell (.data offset size key (is.drop 32) s.reader.position)
    placeRecord env kh b0 b1 s ⟨offset, size, hash env.hasher key kh.salt⟩
  else
    -- Should never get here
    tell (.spill offset)
    let (is, s) ← s.prepare 2
    let (_, s) ← s.prepare (ofBytes is)
    pure s

def traceData (env : Env) (kh : KeyFileHeader) (b0 b1 : Nat) : Nat → Scan → Logged Found Stop Scan
  | 0, s => lift (if s.reader.eof then .ok s else .error .unfinished)
  | fuel + 1, s =>
    if s.reader.eof then pure s
    else traceRecord env kh b0 b1 s >>= traceData env kh b0 b1 fuel

theorem traceRecord_result (env : Env) (kh : KeyFileHeader) (b0 b1 : Nat) (s : Scan) :
    (traceRecord env kh b0 b1 s).result = scanRecord env kh b0 b1 s := by
  unfold traceRecord scanRecord
  rw [result_bind]
  refine congrArg (s.prepare 6 >>= ·) (funext fun x => ?_)
  by_cases hsize : ofBytes x.1 > 0
  · simp only [hsize, if_true, result_bind, result_liftM, result_tell]
    rfl
  · simp only [hsize, if_false, result_bind, result_liftM, result_tell, result_pure]
    rfl

theorem traceData_result (env : Env) (kh : KeyFileHeader) (b0 b1 fuel : Nat) (s : Scan) :
    (traceData env kh b0 b1 fuel s).result = scanData env kh b0 b1 fuel s := by
  induction fuel generalizing s with
  | zero => rfl
  | succ fuel ih =>
    rw [traceData, scanData]
    split
    · rfl
    · rw [result_bind, traceRecord_result]
      exact congrArg (scanRecord env kh b0 b1 s >>= ·) (funext ih)

/-- The reports of data records that stand one after another from `base` on. -/
def foundFrom : Nat → List Record → List Found
  | _, [] => []
  | base, (key, out) :: rest =>
    let stop := base + (dataRecord key out).length
    .data base out.length key out stop :: foundFrom stop rest

/-- A record that the importer can have written. -/
structure Writable (r : Record) : Prop where
  key : r.1.length = 32
  pos : 0 < r.2.length
  lt : r.2.length < 2 ^ 32

/-- A record whose size fits its field, and is not the mark of a spill record. -/
structure Framed (r : Record) : Prop where
  key : r.1.length = 32
  pos : 0 < r.2.length
  lt : r.2.length < 256 ^ 6

theorem Writable.framed {r : Record} (h : Writable r) : Framed r :=
  ⟨h.key, h.pos, h.lt.trans (by decide)⟩

/-- The round of the loop at a data record reports that record. -/
theorem traceRecord_logs (h : Placed env kh b0 b1 flushed base es dat s) {key out rest : Bytes}
    (hr : s.reader.Ahead flushed (dataRecord key out ++ rest)) (hrec : Framed (key, out)) :
    Logs (traceRecord env kh b0 b1 s)
      [.data s.reader.position out.length key out
        (s.reader.position + (dataRecord key out).length)]
      (fun s' => s'.reader.Ahead flushed rest ∧
        s'.reader.position = s.reader.position + (dataRecord key out).length ∧
        ∃ dat', Placed env kh b0 b1 flushed base
          (es ++ [⟨s.reader.position, out.length, hash env.hasher key kh.salt⟩]) dat' s')
      (PlaceFails env.asserts env.datFaults) := by
  have hkey : key.length = 32 := hrec.key
  unfold traceRecord
  refine (logs_lift (prepare_size_ends h hr hrec.lt)).bind fun x hx => ?_
  obtain ⟨hsize, h1, hahead1, hpos1⟩ := hx
  have hpos : 0 < out.length := hrec.pos
  simp only [hsize, hpos, if_true]
  refine (logs_lift (prepare_data_ends h1 hahead1 hkey)).bind fun y hy => ?_
  obtain ⟨hkey', hvalue, h2, hahead2, hpos2⟩ := hy
  have hend : y.2.reader.position = s.reader.position + (dataRecord key out).length := by
    rw [hpos2, hpos1, length_dataRecord, hkey]
    omega
  rw [hkey', hvalue, hend]
  refine (logs_tell _ _).bind fun _ _ => ?_
  refine (logs_lift (placeRecord_ends h2 (makeHash_lt _))).mono (fun s' hs' => ?_) (fun _ h => h)
  obtain ⟨hreader, dat', hplaced⟩ := hs'
  rw [hreader]
  exact ⟨hahead2, hend, dat', hplaced⟩

/-- The reading loop reports the records that are ahead. -/
theorem traceData_logs {records : List Record} (hrec : ∀ r ∈ records, Framed r) {fuel : Nat}
    (h : Placed env kh b0 b1 flushed base es dat s)
    (hr : s.reader.Ahead flushed (records.flatMap fun r => dataRecord r.1 r.2))
    (hfuel : records.length ≤ fuel) :
    Logs (traceData env kh b0 b1 fuel s) (foundFrom s.reader.position records)
      (fun s' => s'.reader.position =
          s.reader.position + (records.flatMap fun r => dataRecord r.1 r.2).length ∧
        ∃ dat', Placed env kh b0 b1 flushed base
          (es ++ entriesFrom env.hasher kh s.reader.position records) dat' s')
      (PlaceFails env.asserts env.datFaults) := by
  induction records generalizing s es dat fuel with
  | nil =>
    have heof : s.reader.eof = true := hr.eof_iff.mpr rfl
    have hdone : Ends (.ok s : Except Stop Scan)
        (fun s' => s'.reader.position = s.reader.position + 0 ∧
          ∃ dat', Placed env kh b0 b1 flushed base (es ++ []) dat' s')
        (PlaceFails env.asserts env.datFaults) := by
      rw [List.append_nil]
      exact ⟨rfl, dat, h⟩
    cases fuel with
    | zero =>
      rw [traceData, if_pos heof]
      exact logs_lift hdone
    | succ fuel =>
      rw [traceData, if_pos heof]
      exact logs_lift hdone
  | cons r records ih =>
    obtain ⟨key, out⟩ := r
    have hmore : s.reader.eof ≠ true := by
      intro heof
      have hnil := congrArg List.length (hr.eof_iff.mp heof)
      simp [length_dataRecord] at hnil
    cases fuel with
    | zero => simp at hfuel
    | succ fuel =>
      rw [traceData, if_neg hmore]
      refine (traceRecord_logs h hr (hrec _ List.mem_cons_self)).bind fun s' hs' => ?_
      obtain ⟨hahead, hpos, dat', hplaced⟩ := hs'
      rw [← hpos]
      refine (ih (fun r hr => hrec r (List.mem_cons_of_mem _ hr)) hplaced hahead
        (by simpa using hfuel)).mono (fun s'' hs'' => ?_) (fun _ h => h)
      rw [hpos, List.append_assoc] at hs''
      rw [List.flatMap_cons, List.length_append, ← Nat.add_assoc]
      exact hs''

/-- The reading loop places the keys of all the records that are ahead, in their order, and
ends with the last of them. -/
theorem scanData_ends {records : List Record} (hrec : ∀ r ∈ records, Writable r) {fuel : Nat}
    (h : Placed env kh b0 b1 flushed base es dat s)
    (hr : s.reader.Ahead flushed (records.flatMap fun r => dataRecord r.1 r.2))
    (hfuel : records.length ≤ fuel) :
    Ends (scanData env kh b0 b1 fuel s)
      (fun s' => ∃ dat', Placed env kh b0 b1 flushed base
        (es ++ entriesFrom env.hasher kh s.reader.position records) dat' s')
      (PlaceFails env.asserts env.datFaults) := by
  have hlogs := traceData_logs (fun r hr => (hrec r hr).framed) h hr hfuel
  rw [← traceData_result]
  exact hlogs.2.mono (fun s' hs' => hs'.2.2) (fun _ h => h)

/-! ## The loop of passes -/

/-- The data file before the passes. -/
def dataSection (env : Env) (records : List Record) : Bytes :=
  writeDatFileHeader env.datFileHeader ++ records.flatMap fun r => dataRecord r.1 r.2

/-- The entries of all the records. -/
def allEntries (env : Env) (kh : KeyFileHeader) (records : List Record) : List Entry :=
  entriesFrom env.hasher kh datFileHeaderSize records

/-- The failures of a run after the data file is written. -/
def PassFails (env : Env) (s : Stop) : Prop :=
  Faulted env.datFaults s ∨ Faulted env.keyFaults s ∨ Asserted env.asserts s

/-- The first `b` buckets are filled and written to the key file after its first block. -/
structure Filled (env : Env) (kh : KeyFileHeader) (head : Bytes) (records : List Record) (b : Nat)
    (dat : Bytes) (w : BulkWriter) (kf : File) : Prop where
  writer : w.At (dataSection env records) dat env.datFaults
  grown : dataSection env records <+: dat
  length : dat.length =
    (dataSection env records).length + spillBytes env kh (allEntries env kh records) 0 b
  fits : ∀ e ∈ allEntries env kh records, Entry.index kh e < b → Fits env.asserts e.offset
  faults : kf.faults = env.keyFaults
  header : head <+: kf.bytes
  key_length : kf.bytes.length = (b + 1) * env.blockSize
  holds : ∀ n < b, Holds env.asserts env.blockSize dat
    (chainOf env kh (allEntries env kh records) n)
    (slice kf.bytes ((n + 1) * env.blockSize) env.blockSize)

variable {head : Bytes} {records : List Record} {w : BulkWriter} {kf : File}

theorem length_le_flatMap (records : List Record) :
    records.length ≤ (records.flatMap fun r => dataRecord r.1 r.2).length := by
  induction records with
  | nil => simp
  | cons r records ih =>
    rw [List.flatMap_cons, List.length_append, List.length_cons, length_dataRecord]
    omega

/-- The size of the data section is enough rounds of the reading loop. -/
theorem length_le_dataSection (env : Env) (records : List Record) :
    records.length ≤ (dataSection env records).length := by
  have := length_le_flatMap records
  rw [dataSection, List.length_append]
  omega

/-- The reader of a pass has all the records ahead. -/
theorem ahead_start (env : Env) (records : List Record) (bufSize : Nat) :
    BulkReader.Ahead ⟨(dataSection env records).length, datFileHeaderSize, [], bufSize⟩
      (dataSection env records) (records.flatMap fun r => dataRecord r.1 r.2) := by
  have hhead := length_writeDatFileHeader env.datFileHeader
  have hlen : (dataSection env records).length =
      datFileHeaderSize + (records.flatMap fun r => dataRecord r.1 r.2).length := by
    rw [dataSection, List.length_append, hhead]
  refine ⟨le_rfl, ?_, Nat.zero_le _, ?_⟩
  · show datFileHeaderSize ≤ (dataSection env records).length
    omega
  · show slice (dataSection env records) datFileHeaderSize
      ((dataSection env records).length - datFileHeaderSize) = _
    have hcat : dataSection env records = writeDatFileHeader env.datFileHeader ++
        ((records.flatMap fun r => dataRecord r.1 r.2) ++ []) := by
      rw [List.append_nil]
      rfl
    rw [hlen, hcat]
    apply slice_middle hhead
    omega

/-- A pass starts with empty buckets and nothing placed. -/
theorem placed_start (hw : w.At flushed dat env.datFaults) (r : BulkReader) :
    Placed env kh b0 b1 flushed dat [] dat
      ⟨w, r, List.replicate (b1 - b0) (Bucket.empty env.blockSize).p⟩ := by
  refine ⟨hw, List.prefix_refl _, ?_, by simp, by simp, by simp, fun n h0 h1 => ?_⟩
  · simp [spillBytes, chainOf_nil, Chain.empty]
  · have hlt : n - b0 < b1 - b0 := by omega
    rw [List.getD_eq_getElem?_getD, List.getElem?_replicate, if_pos hlt, chainOf_nil]
    exact holds_empty (bucketSize_le_of_le env.capacity_pos (Nat.zero_le _))

theorem Placed.slot (h : Placed env kh b0 b1 flushed base es dat s) {i : Nat}
    (hi : i < s.window.length) :
    Holds env.asserts env.blockSize dat (chainOf env kh es (b0 + i)) s.window[i] := by
  have hwin := h.window_length
  have hhold := h.holds (b0 + i) (by omega) (by omega)
  rwa [Nat.add_sub_cancel_left, List.getD_eq_getElem?_getD, List.getElem?_eq_getElem hi] at hhold

/-- The window of a finished pass is written behind the buckets of the passes before it. -/
theorem Filled.next {dat' : Bytes} {kf' : File} (h : Filled env kh head records b0 dat w kf)
    (hb : b0 < b1) (hplaced : Placed env kh b0 b1 (dataSection env records) dat
      (allEntries env kh records) dat' s)
    (hbytes : kf'.bytes = kf.bytes ++ s.window.flatten) (hfaults : kf'.faults = kf.faults) :
    Filled env kh head records b1 dat' s.writer kf' := by
  have hwin := hplaced.window_length
  have hlen := h.key_length
  have hwidth : ∀ p ∈ s.window, (id p).length = env.blockSize := by
    intro p hp
    obtain ⟨i, hi, rfl⟩ := List.getElem_of_mem hp
    exact (hplaced.slot hi).length env.capacity_pos
  rw [← List.flatMap_id] at hbytes
  refine ⟨hplaced.writer, h.grown.trans hplaced.grown, ?_, ?_, hfaults.trans h.faults, ?_, ?_, ?_⟩
  · rw [hplaced.length, h.length, ← spillBytes_consecutive _ (Nat.zero_le b0) hb.le]
    omega
  · intro e he hlt
    by_cases hbefore : Entry.index kh e < b0
    · exact h.fits e he hbefore
    · exact hplaced.fits e he (not_lt.mp hbefore) hlt
  · rw [hbytes]
    exact h.header.trans (List.prefix_append _ _)
  · rw [hbytes, List.length_append, hlen, length_flatMap_of_width hwidth, hwin, ← Nat.add_mul]
    congr 1
    omega
  · intro n hn
    rw [hbytes]
    by_cases hbefore : n < b0
    · have hle : (n + 1) * env.blockSize + env.blockSize ≤ kf.bytes.length := by
        rw [hlen, ← Nat.succ_mul]
        exact Nat.mul_le_mul_right _ (by omega)
      rw [slice_append_of_le hle]
      exact (h.holds n hbefore).mono hplaced.grown
    · have hi : n - b0 < s.window.length := by omega
      have hpos : (n + 1) * env.blockSize = kf.bytes.length + (n - b0) * env.blockSize := by
        rw [hlen, ← Nat.add_mul]
        congr 1
        omega
      have hread := slice_flatMap kf.bytes [] hwidth hi
      have hhold := hplaced.slot hi
      rw [Nat.add_sub_cancel' (not_lt.mp hbefore)] at hhold
      rw [List.append_nil] at hread
      rw [hpos, hread]
      exact hhold

/-- One pass fills the buckets of its window. -/
theorem pass_ends (hrec : ∀ r ∈ records, Writable r) (hb : b0 < b1)
    (h : Filled env kh head records b0 dat w kf) :
    Ends (pass env kh (dataSection env records).length b0 b1 w kf)
      (fun x => ∃ dat', Filled env kh head records b1 dat' x.1 x.2)
      (PassFails env) := by
  unfold pass
  refine ((scanData_ends hrec (placed_start h.writer _) (ahead_start env records _)
    (length_le_dataSection env records)).mono (fun _ h => h) (fun s hs => ?_)).bind fun s hs => ?_
  · rcases hs with hs | hs
    · exact .inl hs
    · exact .inr (.inr hs)
  obtain ⟨dat', hplaced⟩ := hs
  rw [List.nil_append] at hplaced
  refine ((File.write_ends h.key_length.symm _).mono (fun _ h => h)
    (fun s hs => .inr (.inl (h.faults ▸ hs)))).bind fun kf' hkf' => ?_
  exact ⟨dat', h.next hb hplaced hkf'.1 hkf'.2⟩

/-- The passes fill all the buckets. The last window may end before its last bucket. -/
theorem passes_ends (hrec : ∀ r ∈ records, Writable r) {fuel b : Nat}
    (hfuel : kh.buckets ≤ b + fuel) (h : Filled env kh head records (min b kh.buckets) dat w kf) :
    Ends (passes env kh (dataSection env records).length fuel b w kf)
      (fun x => ∃ dat', Filled env kh head records kh.buckets dat' x.1 x.2)
      (PassFails env) := by
  have hwindow : 1 ≤ env.windowSize := le_max_left _ _
  induction fuel generalizing b dat w kf with
  | zero =>
    have hdone : ¬ b < kh.buckets := by omega
    rw [passes, if_neg hdone]
    rw [min_eq_right (by omega)] at h
    exact ⟨dat, h⟩
  | succ fuel ih =>
    rw [passes]
    by_cases hmore : b < kh.buckets
    · rw [if_pos hmore]
      rw [min_eq_left hmore.le] at h
      refine (pass_ends hrec (lt_min (by omega) hmore) h).bind fun x hx => ?_
      obtain ⟨dat', hfilled⟩ := hx
      exact ih (by omega) hfilled
    · rw [if_neg hmore]
      rw [min_eq_right (by omega)] at h
      exact ⟨dat, h⟩

end Metcalfe.Import
