import Metcalfe.Import.Opening

/-!
# Lookups in the imported database

Every entry of the buckets points to a record of the data section, and every record has one
entry, in the chain of the bucket of its hash. So a lookup finds the value that was stored for
a key, and nothing else (`import_faithful`). The chains are given by the records alone, in
their order: the division of the buckets into passes decides where the spill records stand in
the data file and nothing that a reader sees (`buffer_size_invisible`).
-/

namespace Metcalfe.Import

open BigEndian Nudb Outcome

variable {env : Env} {it : Iterator} {records : List Record} {out : Imported}

/-! ## Entries and records -/

/-- The entries point to the records, and the records lie in the file. -/
theorem entriesFrom_read (hasher : Hasher) (kh : KeyFileHeader) {st : Store}
    (hsize : st.kh.keySize = 32) {pre post : Bytes} (hrec : ∀ r ∈ records, Writable r)
    (hdat : st.dat = pre ++ ((records.flatMap fun r => dataRecord r.1 r.2) ++ post)) :
    (entriesFrom hasher kh pre.length records).map (fun e => (st.keyAt e, st.valueAt e)) = records ∧
      ∀ e ∈ entriesFrom hasher kh pre.length records,
        e.hash = hash hasher (st.keyAt e) kh.salt ∧ e.size < 2 ^ 32 ∧
          e.offset + 6 + (st.kh.keySize + e.size) ≤ st.dat.length := by
  induction records generalizing pre with
  | nil => simp [entriesFrom]
  | cons r records ih =>
    obtain ⟨key, value⟩ := r
    have hw := hrec (key, value) List.mem_cons_self
    have hkey : key.length = 32 := hw.key
    have hnext : st.dat = (pre ++ dataRecord key value) ++
        ((records.flatMap fun r => dataRecord r.1 r.2) ++ post) := by
      rw [hdat, List.flatMap_cons]
      simp only [List.append_assoc]
    have hrest := ih (fun r hr => hrec r (List.mem_cons_of_mem _ hr)) hnext
    rw [List.length_append] at hrest
    -- The file around the key and around the value of this record.
    have hat : st.dat = (pre ++ toBytes 6 value.length) ++ (key ++ (value ++
        ((records.flatMap fun r => dataRecord r.1 r.2) ++ post))) := by
      rw [hnext, dataRecord]
      simp only [List.append_assoc]
    have hfront : (pre ++ toBytes 6 value.length).length = pre.length + 6 := by simp
    have hkeyAt : st.keyAt ⟨pre.length, value.length, hash hasher key kh.salt⟩ = key := by
      rw [Store.keyAt, hat, hsize]
      exact slice_middle hfront hkey
    have hvalueAt : st.valueAt ⟨pre.length, value.length, hash hasher key kh.salt⟩ = value := by
      rw [Store.valueAt, hat, hsize, ← List.append_assoc]
      apply slice_middle _ rfl
      rw [List.length_append, hfront, hkey]
    constructor
    · rw [entriesFrom, List.map_cons, hkeyAt, hvalueAt, hrest.1]
    · intro e he
      rcases List.mem_cons.mp he with rfl | he
      · refine ⟨by rw [hkeyAt], hw.lt, ?_⟩
        rw [hat, hsize]
        simp only [List.length_append, length_toBytes, hkey]
        omega
      · exact hrest.2 e he

/-- The entries of the records of a run. -/
def runEntries (env : Env) (records : List Record) (out : Imported) : List Entry :=
  allEntries env out.kh (records.map (stored env))

theorem Laid.entries_read (h : Laid env records out) :
    (runEntries env records out).map (fun e => ((out.store env.hasher).keyAt e,
        (out.store env.hasher).valueAt e)) = records.map (stored env) ∧
      ∀ e ∈ runEntries env records out,
        e.hash = hash env.hasher ((out.store env.hasher).keyAt e) out.kh.salt ∧ e.size < 2 ^ 32 ∧
          e.offset + 6 + ((out.store env.hasher).kh.keySize + e.size) ≤ out.dat.length := by
  obtain ⟨t, ht⟩ := h.grown
  have hsize : (out.store env.hasher).kh.keySize = 32 := by
    show out.kh.keySize = 32
    rw [h.kh]
    rfl
  have hdat : (out.store env.hasher).dat = writeDatFileHeader env.datFileHeader ++
      (((records.map (stored env)).flatMap fun r => dataRecord r.1 r.2) ++ t) := by
    show out.dat = _
    rw [← ht, dataSection, List.append_assoc]
  have hread := entriesFrom_read env.hasher out.kh hsize h.accepted.writable hdat
  rw [length_writeDatFileHeader] at hread
  exact hread

/-- An entry of the run has a bucket. -/
theorem Laid.index_lt (h : Laid env records out) (hne : records ≠ []) (e : Entry) :
    Entry.index out.kh e < out.kh.buckets := by
  have hpos := h.buckets_pos hne
  unfold Entry.index
  rw [h.kh] at hpos ⊢
  exact bucketIndex_lt hpos e.hash

theorem Laid.blockSize (h : Laid env records out) :
    (out.store env.hasher).kh.blockSize = env.blockSize := by
  show out.kh.blockSize = env.blockSize
  rw [h.kh]
  rfl

theorem Laid.blockSize_lt (h : Laid env records out) :
    (out.store env.hasher).kh.blockSize < 2 ^ 16 := by
  rw [h.blockSize]
  exact env.blockSize_lt

theorem Laid.capacity_pos (h : Laid env records out) :
    0 < bucketCapacity (out.store env.hasher).kh.blockSize := by
  rw [h.blockSize]
  exact env.capacity_pos

/-- The chain of bucket `n`. -/
def runChain (env : Env) (records : List Record) (out : Imported) (n : Nat) : Chain env.capacity :=
  chainOf env out.kh (runEntries env records out) n

theorem Laid.full (h : Laid env records out) {n : Nat} :
    ∀ es ∈ (runChain env records out n).spilled,
      es.length = bucketCapacity (out.store env.hasher).kh.blockSize := by
  intro es hes
  rw [h.blockSize]
  exact (runChain env records out n).full es hes

/-- A chain is not longer than the data file. -/
theorem Laid.spilled_le (h : Laid env records out) {n : Nat} (hn : n < out.kh.buckets) :
    (runChain env records out n).spilled.length ≤ out.dat.length := by
  have hmem : n ∈ Finset.Ico 0 out.kh.buckets := Finset.mem_Ico.mpr ⟨Nat.zero_le n, hn⟩
  have hsum := Finset.single_le_sum (f := fun n =>
    (runChain env records out n).spilled.length * spillSize env.capacity)
    (fun _ _ => Nat.zero_le _) hmem
  have hlen := h.length
  have hone : (runChain env records out n).spilled.length ≤
      (runChain env records out n).spilled.length * spillSize env.capacity := by
    apply Nat.le_mul_of_pos_right
    unfold spillSize
    omega
  unfold spillBytes at hlen
  exact hone.trans (hsum.trans (by rw [hlen]; exact Nat.le_add_left _ _))

section Reading

variable (h : Laid env records out) (hne : records ≠ [])
  (hfits : env.asserts = true ∨ out.dat.length < 2 ^ 48)

include h hne hfits

theorem Laid.sound : ∀ e ∈ runEntries env records out, (out.store env.hasher).Sound e := by
  intro e he
  obtain ⟨hhash, hsize, hin⟩ := h.entries_read.2 e he
  refine ⟨⟨?_, hsize, ?_⟩, hin⟩
  · rcases hfits with hfits | hfits
    · exact h.fits e he (h.index_lt hne e) hfits
    · have hle : e.offset ≤ out.dat.length := by omega
      exact hle.trans_lt hfits
  · rw [hhash]
    exact makeHash_lt _

theorem Laid.searchable {n : Nat} : ∀ es ∈ (runChain env records out n).buckets,
    (out.store env.hasher).Searchable es := by
  intro es hes
  refine ⟨(runChain env records out n).sorted es hes, fun e he => ?_⟩
  apply h.sound hne hfits
  exact (mem_of_mem_chainOf (List.mem_flatten.mpr ⟨es, hes, he⟩)).1

omit hne in
/-- The bucket of the key file as it is loaded. -/
theorem Laid.loaded {n : Nat} (hn : n < out.kh.buckets) :
    ∃ b, Bucket.read (out.store env.hasher).kh.blockSize (out.store env.hasher).key
        ((n + 1) * (out.store env.hasher).kh.blockSize) = .ok b ∧
      (out.store env.hasher).Loaded env.asserts b (runChain env records out n).top
        (runChain env records out n).spilled := by
  have hle : (n + 2) * env.blockSize ≤ out.key.length := by
    rw [h.key_length]
    exact Nat.mul_le_mul_right _ (by omega)
  exact Store.read_block h.blockSize_lt h.capacity_pos (hfits.imp_right fun hlt => hlt.le)
    h.blockSize hle (h.holds n hn)

/-- A reader of bucket `n` sees its chain. -/
theorem Laid.readChain {n : Nat} (hn : n < out.kh.buckets) :
    (out.store env.hasher).readChain n = .ok (runChain env records out n).buckets := by
  obtain ⟨b, hread, hb⟩ := h.loaded hfits hn
  have hrest := Store.entriesFrom_eq h.blockSize_lt h.capacity_pos
    (hfits.imp_right fun hlt => hlt.le) hb (h.searchable hne hfits) h.full (h.spilled_le hn)
  unfold Store.readChain
  rw [hread]
  exact hrest

/-- A lookup is a search of the chain of the key's bucket. -/
theorem Laid.fetch (key : Bytes) :
    (out.store env.hasher).fetch key =
      match (runChain env records out (bucketIndex (hash env.hasher key out.kh.salt)
          out.kh.buckets out.kh.modulus)).entries.find?
          ((out.store env.hasher).hit (hash env.hasher key out.kh.salt) key) with
      | some e => .ok ((out.store env.hasher).valueAt e)
      | none => .error (.ec .key_not_found) := by
  have hmod : out.kh.modulus = ceilPow2 out.kh.buckets := by
    rw [h.kh]
    rfl
  have hn := bucketIndex_lt (h.buckets_pos hne) (hash env.hasher key out.kh.salt)
  rw [← hmod] at hn
  obtain ⟨b, hread, hb⟩ := h.loaded hfits hn
  have hrest := Store.fetchFrom_eq h.blockSize_lt h.capacity_pos
    (hfits.imp_right fun hlt => hlt.le) (hash env.hasher key out.kh.salt) key hb
    (h.searchable hne hfits) h.full (h.spilled_le hn)
  unfold Store.fetch
  have hindex : bucketIndex (hash (out.store env.hasher).hasher key (out.store env.hasher).kh.salt)
      (out.store env.hasher).buckets (out.store env.hasher).modulus =
      bucketIndex (hash env.hasher key out.kh.salt) out.kh.buckets out.kh.modulus := by
    rw [hmod]
    rfl
  simp only [hindex, hread]
  exact hrest

end Reading

/-- The entry of a key is found by its lookup. -/
theorem Laid.exists_hit (h : Laid env records out) {key value : Bytes}
    (hmem : (key, value) ∈ records.map (stored env)) :
    ∃ e ∈ (runChain env records out (bucketIndex (hash env.hasher key out.kh.salt)
        out.kh.buckets out.kh.modulus)).entries,
      (out.store env.hasher).hit (hash env.hasher key out.kh.salt) key e = true := by
  rw [← h.entries_read.1] at hmem
  obtain ⟨e, he, heq⟩ := List.mem_map.mp hmem
  obtain ⟨hkey, -⟩ := Prod.mk.inj heq
  obtain ⟨hhash, -⟩ := h.entries_read.2 e he
  rw [hkey] at hhash
  refine ⟨e, ?_, by simp [Store.hit, hhash, hkey]⟩
  apply (Chain.build_entries env.capacity_pos _).mem_iff.mpr
  refine List.mem_filter.mpr ⟨he, ?_⟩
  rw [decide_eq_true_eq, Entry.index, hhash]

/-- What a lookup finds is a record of the source. -/
theorem Laid.mem_of_hit (h : Laid env records out) {key : Bytes} {n : Nat} {e : Entry}
    (he : e ∈ (runChain env records out n).entries)
    (hhit : (out.store env.hasher).hit (hash env.hasher key out.kh.salt) key e = true) :
    (key, (out.store env.hasher).valueAt e) ∈ records.map (stored env) := by
  have hmem := (mem_of_mem_chainOf he).1
  rw [← h.entries_read.1]
  refine List.mem_map.mpr ⟨e, hmem, ?_⟩
  simp only [Store.hit, Bool.and_eq_true, decide_eq_true_eq] at hhit
  rw [hhit.2]

/-- The chains share the entries out among themselves. -/
theorem perm_flatMap_chains (env : Env) (kh : KeyFileHeader) (es : List Entry) (m : Nat) :
    ((List.range m).flatMap fun n => (chainOf env kh es n).entries).Perm
      (es.filter fun e => Entry.index kh e < m) := by
  induction m with
  | zero => simp
  | succ m ih =>
    have hbelow : ((es.filter fun e => Entry.index kh e < m + 1).filter
        fun e => Entry.index kh e < m) = es.filter fun e => Entry.index kh e < m := by
      rw [List.filter_filter]
      apply List.filter_congr
      intro e _
      simp only [← Bool.decide_and, decide_eq_decide]
      omega
    have hlast : ((es.filter fun e => Entry.index kh e < m + 1).filter
        fun e => !decide (Entry.index kh e < m)) = es.filter fun e => Entry.index kh e = m := by
      rw [List.filter_filter]
      apply List.filter_congr
      intro e _
      simp only [← decide_not, ← Bool.decide_and, decide_eq_decide]
      omega
    have hsplit := List.filter_append_perm (fun e => decide (Entry.index kh e < m))
      (es.filter fun e => Entry.index kh e < m + 1)
    rw [hbelow, hlast] at hsplit
    rw [List.range_succ, List.flatMap_append, List.flatMap_singleton]
    exact (ih.append (Chain.build_entries env.capacity_pos _)).trans hsplit

/-- Every record is pointed to by one entry, and no entry points elsewhere. -/
theorem Laid.perm_entries (h : Laid env records out) (hne : records ≠ []) :
    ((List.range out.kh.buckets).flatMap fun n => (runChain env records out n).entries).Perm
      (runEntries env records out) := by
  have hall : (runEntries env records out).filter
      (fun e => Entry.index out.kh e < out.kh.buckets) = runEntries env records out := by
    rw [List.filter_eq_self]
    intro e _
    rw [decide_eq_true_eq]
    exact h.index_lt hne e
  have hperm := perm_flatMap_chains env out.kh (runEntries env records out) out.kh.buckets
  rwa [hall] at hperm

/-! ## The database as a whole -/

/-- The chains of all the buckets. -/
def readAll (st : Store) : Except Stop (List (List (List Entry))) :=
  (List.range st.buckets).mapM st.readChain

theorem mapM_eq_ok {α β ε : Type} {f : α → Except ε β} {g : α → β} {l : List α}
    (hf : ∀ a ∈ l, f a = .ok (g a)) : l.mapM f = .ok (l.map g) := by
  induction l with
  | nil => rfl
  | cons a l ih =>
    rw [List.mapM_cons, hf a List.mem_cons_self,
      ih fun b hb => hf b (List.mem_cons_of_mem _ hb)]
    rfl

theorem Laid.readAll (h : Laid env records out) (hne : records ≠ [])
    (hfits : env.asserts = true ∨ out.dat.length < 2 ^ 48) :
    readAll (out.store env.hasher) =
      .ok ((List.range out.kh.buckets).map fun n => (runChain env records out n).buckets) := by
  apply mapM_eq_ok
  intro n hn
  exact h.readChain hne hfits (List.mem_range.mp hn)

/-- The entries that a reader of all the chains sees are those of the records. -/
theorem Laid.perm_read (h : Laid env records out) (hne : records ≠ []) :
    (((List.range out.kh.buckets).map fun n =>
        (runChain env records out n).buckets).flatten.flatten.map
      fun e => ((out.store env.hasher).keyAt e, (out.store env.hasher).valueAt e)).Perm
      (records.map (stored env)) := by
  rw [← h.entries_read.1]
  apply List.Perm.map
  rw [List.flatten_flatten, List.map_map, ← List.flatMap_def]
  exact h.perm_entries hne

theorem Laid.fetch_of_mem (h : Laid env records out) (hne : records ≠ [])
    (hfits : env.asserts = true ∨ out.dat.length < 2 ^ 48)
    (hkeys : (records.map Prod.fst).Nodup) {key value : Bytes} (hmem : (key, value) ∈ records) :
    (out.store env.hasher).fetch key = .ok (stored env (key, value)).2 := by
  have hstored : (key, (stored env (key, value)).2) ∈ records.map (stored env) :=
    List.mem_map.mpr ⟨(key, value), hmem, rfl⟩
  obtain ⟨e, he, hhit⟩ := h.exists_hit hstored
  rw [h.fetch hne hfits]
  obtain ⟨e', hfind⟩ := Option.isSome_iff_exists.mp (List.find?_isSome.mpr ⟨e, he, hhit⟩)
  -- The entry found is perhaps another one, but its record has the same key.
  have hfound := h.mem_of_hit (List.mem_of_find?_eq_some hfind) (List.find?_some hfind)
  have hkeys' : ((records.map (stored env)).map Prod.fst).Nodup := by
    rw [List.map_map]
    exact hkeys
  have hsame := List.inj_on_of_nodup_map hkeys' hfound hstored rfl
  rw [hfind]
  exact congrArg Except.ok (Prod.mk.inj hsame).2

theorem Laid.fetch_of_not_mem (h : Laid env records out) (hne : records ≠ [])
    (hfits : env.asserts = true ∨ out.dat.length < 2 ^ 48) {key : Bytes}
    (hkey : ∀ value, (key, value) ∉ records) :
    (out.store env.hasher).fetch key = .error (.ec .key_not_found) := by
  rw [h.fetch hne hfits]
  cases hfind : (runChain env records out (bucketIndex (hash env.hasher key out.kh.salt)
      out.kh.buckets out.kh.modulus)).entries.find?
      ((out.store env.hasher).hit (hash env.hasher key out.kh.salt) key) with
  | none => rfl
  | some e =>
    have hfound := h.mem_of_hit (List.mem_of_find?_eq_some hfind) (List.find?_some hfind)
    obtain ⟨⟨key', value⟩, hmem, heq⟩ := List.mem_map.mp hfound
    have hkey' : key' = key := congrArg Prod.fst heq
    subst hkey'
    exact absurd hmem (hkey value)

/-- Every lookup gives what the source has, and the entries of all the buckets are those of the
records: as many, one for each, none for anything else. -/
theorem import_faithful (hrun : run env it = .ok out) (hne : it.records ≠ [])
    (hkeys : (it.records.map Prod.fst).Nodup) (hsize : out.dat.length < 2 ^ 48) :
    ∃ st, Store.open_ env.hasher out.dat out.key = .ok st ∧
      (∀ key : Bytes, key.length = 32 →
        (∀ value, (key, value) ∈ it.records →
          ∃ data, env.codec.compress (env.codec.filterInner value) = .ok data ∧
            st.fetch key = .ok data) ∧
        ((∀ value, (key, value) ∉ it.records) →
          st.fetch key = .error (.ec .key_not_found))) ∧
      ∃ chains, readAll st = .ok chains ∧
        chains.flatten.flatten.length = it.records.length ∧
        (∀ r ∈ it.records, chains.flatten.flatten.countP (fun e => st.keyAt e = r.1) = 1) ∧
        ∀ e ∈ chains.flatten.flatten, ∃ r ∈ it.records, st.keyAt e = r.1 := by
  have h := (run_ends it).of_ok hrun
  have hperm := h.perm_read hne
  refine ⟨out.store env.hasher, h.open_ hne, fun key _ => ⟨fun value hmem => ?_, ?_⟩, _,
    h.readAll hne (.inr hsize), ?_, ?_, ?_⟩
  · have hok := h.accepted _ hmem
    exact ⟨_, (encodeValue_eq_ok_iff.mp hok).2.1, h.fetch_of_mem hne (.inr hsize) hkeys hmem⟩
  · exact h.fetch_of_not_mem hne (.inr hsize)
  · have hlen := hperm.length_eq
    rwa [List.length_map, List.length_map] at hlen
  · intro r hr
    have hcount := (hperm.map Prod.fst).count_eq r.1
    rw [List.map_map, List.map_map] at hcount
    have hone : (it.records.map (Prod.fst ∘ stored env)).count r.1 = 1 :=
      List.count_eq_one_of_mem hkeys (List.mem_map.mpr ⟨r, hr, rfl⟩)
    rw [hone, List.count, List.countP_map] at hcount
    rw [← hcount]
    apply List.countP_congr
    intro e _
    simp
  · intro e he
    have hmem := hperm.mem_iff.mp (List.mem_map.mpr ⟨e, he, rfl⟩)
    obtain ⟨r, hr, heq⟩ := List.mem_map.mp hmem
    exact ⟨r, hr, (congrArg Prod.fst heq).symm⟩

/-- Eight records of one bucket, which has room for six. -/
def crowdedRecords : List Record :=
  [0, 4, 8, 12, 16, 20, 24, 28].map plainRecord

theorem import_faithful_crowded :
    ∃ out st, run (quietEnv 128) ⟨crowdedRecords, true⟩ = .ok out ∧
      Store.open_ (quietEnv 128).hasher out.dat out.key = .ok st ∧
      st.fetch (List.replicate 32 4) = .ok [0, 4, 4] ∧
      st.fetch (List.replicate 32 5) = .error (.ec .key_not_found) := by
  obtain ⟨out, hrun, hsize⟩ := exists_ok_of_any
    (x := run (quietEnv 128) ⟨crowdedRecords, true⟩)
    (p := fun out => decide (out.dat.length < 2 ^ 48)) (by decide +kernel)
  obtain ⟨st, hopen, hfetch, -⟩ :=
    import_faithful hrun (by decide) (by decide) (of_decide_eq_true hsize)
  refine ⟨out, st, hrun, hopen, ?_, ?_⟩
  · obtain ⟨data, hdata, hfound⟩ := (hfetch (List.replicate 32 4) (by decide)).1 [4, 4] (by decide)
    cases hdata
    exact hfound
  · apply (hfetch (List.replicate 32 5) (by decide)).2
    intro value hmem
    have hkeys : List.replicate 32 5 ∉ crowdedRecords.map Prod.fst := by decide
    exact hkeys (List.mem_map.mpr ⟨_, hmem, rfl⟩)

/-- The runs differ in the buffer size, and may differ in what would fail later. -/
theorem buffer_size_invisible {a b : Imported} (bufferSize : Nat) (datFaults keyFaults : Faults)
    (ha : run env it = .ok a)
    (hb : run { env with bufferSize, datFaults, keyFaults } it = .ok b) (hne : it.records ≠ [])
    (hfits : env.asserts = true ∨ a.dat.length < 2 ^ 48) :
    a.dat.length = b.dat.length ∧ a.dfSize = b.dfSize ∧
      a.dat.take a.dfSize = b.dat.take b.dfSize ∧ a.key.length = b.key.length ∧
      ∃ stA stB, Store.open_ env.hasher a.dat a.key = .ok stA ∧
        Store.open_ env.hasher b.dat b.key = .ok stB ∧ stA.buckets = stB.buckets ∧
        ∀ n < stA.buckets, ∃ chain, stA.readChain n = .ok chain ∧ stB.readChain n = .ok chain := by
  have hA := (run_ends it).of_ok ha
  have hB := (run_ends it).of_ok hb
  have hkh : a.kh = b.kh := hA.kh.trans hB.kh.symm
  have hdf : a.dfSize = b.dfSize := hA.dfSize.trans hB.dfSize.symm
  have hlen : a.dat.length = b.dat.length := by
    rw [hA.length, hB.length, hdf, hkh]
    rfl
  have htake : ∀ {x : Bytes}, dataSection env (it.records.map (stored env)) <+: x →
      x.take (dataSection env (it.records.map (stored env))).length =
        dataSection env (it.records.map (stored env)) := fun hx => (List.prefix_iff_eq_take.mp hx).symm
  refine ⟨hlen, hdf, ?_, ?_, _, _, hA.open_ hne, hB.open_ hne,
    congrArg KeyFileHeader.buckets hkh, fun n hn => ?_⟩
  · rw [hA.dfSize, hB.dfSize, htake hA.grown]
    exact (htake hB.grown).symm
  · rw [hA.key_length, hB.key_length, hkh]
  · have hn' : n < b.kh.buckets := hkh ▸ hn
    refine ⟨_, hA.readChain hne hfits hn, ?_⟩
    have hread := hB.readChain hne (hlen ▸ hfits) hn'
    unfold runChain runEntries at hread ⊢
    rw [hkh]
    exact hread

theorem buffer_size_invisible_crowded :
    ∃ a b, run (quietEnv 128) ⟨crowdedRecords, true⟩ = .ok a ∧
      run (quietEnv 1024) ⟨crowdedRecords, true⟩ = .ok b ∧ a.dat.length = b.dat.length := by
  obtain ⟨a, ha, hsize⟩ := exists_ok_of_any
    (x := run (quietEnv 128) ⟨crowdedRecords, true⟩)
    (p := fun out => decide (out.dat.length < 2 ^ 48)) (by decide +kernel)
  obtain ⟨b, hb, -⟩ := exists_ok_of_any
    (x := run (quietEnv 1024) ⟨crowdedRecords, true⟩)
    (p := fun _ => true) (by decide +kernel)
  refine ⟨a, b, ha, hb, ?_⟩
  exact (buffer_size_invisible 1024 (fun _ => none) (fun _ => none) ha hb (by decide)
    (.inr (of_decide_eq_true hsize))).1

end Metcalfe.Import
