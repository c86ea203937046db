import Metcalfe.Import.Passes

/-!
# What a run leaves

A run that ends normally has accepted every record that the iterator yielded, has written the
data section and has filled all the buckets (`Laid`). A run fails only for a reason that its
parameters give it: an operation on a file that fails, an assertion, or a record that the data
file loop refuses (`RunFails`).
-/

namespace Metcalfe.Import

open BigEndian Nudb Outcome

/-- The key of a record and the value that is stored for it. -/
def stored (env : Env) (r : Record) : Record :=
  (r.1, match encodeValue env r with
    | .ok out => out
    | .error _ => [])

variable {env : Env} {records : List Record}

theorem stored_eq {r : Record} {out : Bytes} (h : encodeValue env r = .ok out) :
    stored env r = (r.1, out) := by
  rw [stored, h]

/-- The loop accepts a record whose key has 32 bytes and whose value the codec gives back. -/
theorem encodeValue_eq_ok_iff {r : Record} {out : Bytes} :
    encodeValue env r = .ok out ↔ r.1.length = 32 ∧
      env.codec.compress (env.codec.filterInner r.2) = .ok out ∧
      env.codec.decompress out = .ok (env.codec.filterInner r.2) := by
  unfold encodeValue
  by_cases hkey : r.1.length = 32
  · simp only [hkey, ne_eq, not_true, if_false, true_and]
    cases hc : env.codec.compress (env.codec.filterInner r.2) with
    | error e => simp [Except.mapError, bind, Except.bind]
    | ok o =>
      cases hd : env.codec.decompress o with
      | error e =>
        simp only [Except.mapError, bind, Except.bind, hd]
        constructor
        · intro h
          simp at h
        · intro h
          obtain ⟨hout, hd'⟩ := h
          cases hout
          simp [hd] at hd'
      | ok check =>
        simp only [Except.mapError, bind, Except.bind, hd]
        generalize env.codec.filterInner r.2 = clean
        by_cases hcheck : check = clean
        · subst hcheck
          simp only [not_true, if_false, List.take_length, pure, Except.pure]
          constructor
          · intro h
            cases h
            exact ⟨rfl, hd⟩
          · intro h
            rw [Except.ok.inj h.1]
        · -- The values differ, so their lengths do or the comparison does.
          have hfail : check.length = clean.length → check.take clean.length ≠ clean := by
            intro hlen htake
            rw [← hlen, List.take_length] at htake
            exact hcheck htake
          constructor
          · intro h
            split at h
            · simp [throw, throwThe, MonadExceptOf.throw] at h
            · rename_i hlen
              rw [if_pos (hfail (not_not.mp hlen))] at h
              simp [throw, throwThe, MonadExceptOf.throw] at h
          · intro h
            obtain ⟨hout, hd'⟩ := h
            cases hout
            rw [hd] at hd'
            exact absurd (Except.ok.inj hd') hcheck
  · simp [hkey, throw, throwThe, MonadExceptOf.throw, bind, Except.bind]

/-- An accepted record can be read back. -/
theorem writable_of_ok {r : Record} {out : Bytes} (h : encodeValue env r = .ok out) :
    Writable (stored env r) := by
  obtain ⟨hkey, hcompress, -⟩ := encodeValue_eq_ok_iff.mp h
  rw [stored_eq h]
  exact ⟨hkey, env.codec.compress_pos _ _ hcompress, env.codec.compress_lt _ _ hcompress⟩

/-! ## The data file loop -/

/-- A record of the list is refused. -/
def Refused (env : Env) (records : List Record) (s : Stop) : Prop :=
  ∃ r ∈ records, encodeValue env r = .error s

/-- Every record of the list is accepted. -/
def Accepted (env : Env) (records : List Record) : Prop :=
  ∀ r ∈ records, encodeValue env r = .ok (stored env r).2

theorem Accepted.writable (h : Accepted env records) :
    ∀ r ∈ records.map (stored env), Writable r := by
  intro r hr
  obtain ⟨r', hr', rfl⟩ := List.mem_map.mp hr
  exact writable_of_ok (h r' hr')

theorem importRecord_ends {w : BulkWriter} {c : Bytes} (hw : w.At [] c env.datFaults) (n : Nat)
    (r : Record) :
    Ends (importRecord env (w, n) r)
      (fun x => encodeValue env r = .ok (stored env r).2 ∧ x.2 = n + 1 ∧
        x.1.At [] (c ++ dataRecord (stored env r).1 (stored env r).2) env.datFaults)
      (fun s => Faulted env.datFaults s ∨ encodeValue env r = .error s) := by
  unfold importRecord
  cases hr : encodeValue env r with
  | error s => exact .inr rfl
  | ok out =>
    have hstored := stored_eq hr
    have hlt := (writable_of_ok hr).lt
    rw [hstored] at hlt ⊢
    refine ((BulkWriter.prepare_ends hw _).mono (fun _ h => h) (fun _ h => .inl h)).bind
      fun w' hw' => ?_
    rw [writeField_of_lt (hlt.trans (by decide))]
    exact ⟨rfl, rfl, hw'.put _⟩

theorem foldlM_importRecord_ends {w : BulkWriter} {c : Bytes} (hw : w.At [] c env.datFaults)
    (n : Nat) :
    Ends (records.foldlM (importRecord env) (w, n))
      (fun x => Accepted env records ∧ x.2 = n + records.length ∧
        x.1.At [] (c ++ (records.map (stored env)).flatMap fun r => dataRecord r.1 r.2)
          env.datFaults)
      (fun s => Faulted env.datFaults s ∨ Refused env records s) := by
  induction records generalizing w c n with
  | nil =>
    refine ⟨fun r hr => absurd hr List.not_mem_nil, rfl, ?_⟩
    simpa using hw
  | cons r records ih =>
    rw [List.foldlM_cons]
    refine ((importRecord_ends hw n r).mono (fun _ h => h) (fun s hs => ?_)).bind fun x hx => ?_
    · rcases hs with hs | hs
      · exact .inl hs
      · exact .inr ⟨r, List.mem_cons_self, hs⟩
    · obtain ⟨hr, hn, hw'⟩ := hx
      refine (ih hw' x.2).mono (fun y hy => ?_) (fun s hs => ?_)
      · obtain ⟨hrest, hn', hw''⟩ := hy
        refine ⟨fun r' hr' => ?_, ?_, ?_⟩
        · rcases List.mem_cons.mp hr' with rfl | hr'
          · exact hr
          · exact hrest r' hr'
        · rw [hn', hn, List.length_cons]
          omega
        · rw [List.append_assoc] at hw''
          exact hw''
      · rcases hs with hs | ⟨r', hr', hs⟩
        · exact .inl hs
        · exact .inr ⟨r', List.mem_cons_of_mem _ hr', hs⟩

theorem importData_ends (it : Iterator) :
    Ends (importData env it)
      (fun x => Accepted env it.records ∧ x.2 = it.records.length ∧
        x.1.At (dataSection env (it.records.map (stored env)))
          (dataSection env (it.records.map (stored env))) env.datFaults ∧
        x.1.file.bytes = dataSection env (it.records.map (stored env)))
      (fun s => Faulted env.datFaults s ∨ Refused env it.records s) := by
  unfold importData
  refine ((File.create_ends env.datFaults).mono (fun _ h => h) (fun _ h => .inl h)).bind
    fun f hf => ?_
  have hnew : BulkWriter.At ⟨f, 0, [], Env.bulkSize⟩ [] [] env.datFaults := by
    refine ⟨?_, ?_, List.nil_prefix, hf.2⟩
    · show 0 = f.bytes.length
      rw [hf.1]
      rfl
    · show f.bytes ++ [] = []
      rw [hf.1]
      rfl
  refine ((BulkWriter.prepare_ends hnew _).mono (fun _ h => h) (fun _ h => .inl h)).bind
    fun w hw => ?_
  have hhead := hw.put (writeDatFileHeader env.datFileHeader)
  rw [List.nil_append] at hhead
  refine (foldlM_importRecord_ends hhead 0).bind fun x hx => ?_
  obtain ⟨hok, hn, hw'⟩ := hx
  refine ((BulkWriter.flush_ends hw').mono (fun _ h => h) (fun _ h => .inl h)).bind fun w'' hw'' => ?_
  obtain ⟨hflushed, hbytes⟩ := hw''
  refine ⟨hok, by rw [hn, Nat.zero_add], ⟨hflushed.offset, hflushed.contents, ?_,
    hflushed.faults⟩, hbytes⟩
  rw [hbytes]
  exact List.prefix_refl _

/-! ## The files -/

/-- The two files after a run over `records`, as the buckets they hold. -/
structure Laid (env : Env) (records : List Record) (out : Imported) : Prop where
  accepted : Accepted env records
  kh : out.kh = env.keyFileHeader records.length
  dfSize : out.dfSize = (dataSection env (records.map (stored env))).length
  grown : dataSection env (records.map (stored env)) <+: out.dat
  length : out.dat.length = out.dfSize +
    spillBytes env out.kh (allEntries env out.kh (records.map (stored env))) 0 out.kh.buckets
  fits : ∀ e ∈ allEntries env out.kh (records.map (stored env)),
    Entry.index out.kh e < out.kh.buckets → Fits env.asserts e.offset
  header : env.headerBlock out.kh <+: out.key
  key_length : out.key.length = (out.kh.buckets + 1) * env.blockSize
  holds : ∀ n < out.kh.buckets, Holds env.asserts env.blockSize out.dat
    (chainOf env out.kh (allEntries env out.kh (records.map (stored env))) n)
    (slice out.key ((n + 1) * env.blockSize) env.blockSize)

/-- The reasons for which a run fails. -/
def RunFails (env : Env) (it : Iterator) (s : Stop) : Prop :=
  PassFails env s ∨ Refused env it.records s

theorem headerBlock_eq (kh : KeyFileHeader) :
    env.headerBlock kh =
      writeKeyFileHeader kh ++ List.replicate (env.blockSize - keyFileHeaderSize) 0 := by
  have hle := keyFileHeaderSize_le env.capacity_pos
  have hzeros : List.replicate env.blockSize (0 : UInt8) = List.replicate keyFileHeaderSize 0 ++
      List.replicate (env.blockSize - keyFileHeaderSize) 0 := by
    rw [List.replicate_append_replicate]
    congr 1
    omega
  rw [Env.headerBlock, hzeros, splice_start]
  rw [List.length_replicate, length_writeKeyFileHeader]

theorem length_headerBlock (kh : KeyFileHeader) : (env.headerBlock kh).length = env.blockSize := by
  have hle := keyFileHeaderSize_le env.capacity_pos
  rw [headerBlock_eq, List.length_append, length_writeKeyFileHeader, List.length_replicate]
  omega

theorem run_ends (it : Iterator) :
    Ends (run env it) (Laid env it.records) (RunFails env it) := by
  unfold run
  refine ((importData_ends it).mono (fun _ h => h) (fun s hs => ?_)).bind fun x hx => ?_
  · rcases hs with hs | hs
    · exact .inl (.inl hs)
    · exact .inr hs
  obtain ⟨hok, hn, hw, hbytes⟩ := hx
  have hdat : ∀ s, Faulted env.datFaults s → RunFails env it s := fun _ h => .inl (.inl h)
  have hkey : ∀ s, Faulted env.keyFaults s → RunFails env it s := fun _ h => .inl (.inr (.inl h))
  refine ((File.size_ends x.1.file).mono (fun _ h => h) fun s hs => hdat s (hw.faults ▸ hs)).bind
    fun y hy => ?_
  obtain ⟨hsize, hfile, hfaults⟩ := hy
  refine ((File.create_ends env.keyFaults).mono (fun _ h => h) hkey).bind fun kf hkf => ?_
  have hempty : 0 = kf.bytes.length := by
    rw [hkf.1]
    rfl
  refine ((File.write_ends hempty _).mono (fun _ h => h) fun s hs => hkey s (hkf.2 ▸ hs)).bind
    fun kf' hkf' => ?_
  generalize hkh : env.keyFileHeader x.2 = kh at hkf' ⊢
  rw [hkf.1, List.nil_append, hkf.2] at hkf'
  have hstart : Filled env kh (env.headerBlock kh) (it.records.map (stored env)) (min 0 kh.buckets)
      (dataSection env (it.records.map (stored env))) { x.1 with file := y.2 } kf' := by
    rw [Nat.zero_min]
    refine ⟨hw.of_file hfile hfaults, List.prefix_refl _, by simp [spillBytes],
      fun e _ h => absurd h (Nat.not_lt_zero _), hkf'.2, ?_, ?_,
      fun n h => absurd h (Nat.not_lt_zero _)⟩
    · rw [hkf'.1]
    · rw [hkf'.1, length_headerBlock, Nat.zero_add, Nat.one_mul]
  have hdfSize : y.1 = (dataSection env (it.records.map (stored env))).length := by
    rw [hsize, hbytes]
  rw [hdfSize]
  refine ((passes_ends hok.writable (by omega) hstart).mono (fun _ h => h) (fun _ h => .inl h)).bind
    fun z hz => ?_
  obtain ⟨dat, hfilled⟩ := hz
  refine ((BulkWriter.flush_ends hfilled.writer).mono (fun _ h => h) hdat).bind fun w hw' => ?_
  obtain ⟨-, hcontents⟩ := hw'
  rw [hn] at hkh
  subst hkh
  rw [hcontents]
  exact ⟨hok, rfl, rfl, hfilled.grown, hfilled.length, hfilled.fits, hfilled.header,
    hfilled.key_length, hfilled.holds⟩

end Metcalfe.Import
