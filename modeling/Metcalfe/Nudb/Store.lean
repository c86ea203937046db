import Metcalfe.Nudb.Chain

/-!
# Opening a database and looking keys up

`Store.open_` reads and checks the headers of the two files as `basic_store::open` does, with no
log file to recover from. `Store.fetch` is the lookup in an open store with nothing in its
caches: the bucket of the hash is read from the key file, the entries with that hash are
compared by key, and the spill records are searched in turn. `Store.readChain` lists the entries
of a bucket and of its spill records.

The loop over the spill records ends in the source when a pointer is zero; here it also ends
after as many records as the data file has bytes.
-/

namespace Metcalfe.Nudb

open BigEndian

/-- `read` on an open file. -/
def readAt (f : Bytes) (offset n : Nat) : Except Stop Bytes :=
  if 0 < n ∧ f.length < offset + n then .error (.ec .short_read) else .ok (slice f offset n)

theorem readAt_of_le {f : Bytes} {offset n : Nat} (h : offset + n ≤ f.length) :
    readAt f offset n = .ok (slice f offset n) := by
  rw [readAt, if_neg]
  omega

/-- `bucket_t::read`: the padding of a block is not read. -/
def Bucket.read (blockSize : Nat) (f : Bytes) (offset : Nat) : Except Stop Bucket := do
  let p ← readAt f offset (bucketSize (bucketCapacity blockSize))
  let b := Bucket.ofBlob blockSize p
  if b.size > bucketCapacity blockSize then throw (.ec .invalid_bucket_size)
  pure b

structure Store where
  hasher : Hasher
  dat : Bytes
  key : Bytes
  kh : KeyFileHeader
  buckets : Nat
  modulus : Nat

/-- `read(File&, dat_file_header&)`. -/
def readDatHeader (dat : Bytes) : Except Stop DatFileHeader := do
  let buf ← readAt dat 0 datFileHeaderSize
  pure (readDatFileHeader buf)

/-- `read(File&, key_file_header&)`. -/
def readKeyHeader (key : Bytes) : Except Stop KeyFileHeader := do
  let buf ← readAt key 0 keyFileHeaderSize
  pure (readKeyFileHeader key.length buf)

namespace Store

def open_ (hasher : Hasher) (dat key : Bytes) : Except Stop Store := do
  let dh ← readDatHeader dat
  verifyDat dh
  let kh ← readKeyHeader key
  verifyKey hasher kh
  verify hasher dh kh
  let buckets := kh.buckets
  let modulus := ceilPow2 kh.buckets
  if buckets < 1 then throw (.ec .short_key_file)
  pure ⟨hasher, dat, key, kh, buckets, modulus⟩

/-- The entries of bucket `b` from position `i` on that have hash `h`, until one has the key. -/
def search (st : Store) (b : Bucket) (h : Nat) (key : Bytes) : Nat → Nat → Except Stop (Option Bytes)
  | 0, _ => .ok none
  | fuel + 1, i =>
    if i < b.size then do
      let item := b.at_ i
      if item.hash ≠ h then return none
      let buf ← readAt st.dat (item.offset + 6) (st.kh.keySize + item.size)
      if buf.take st.kh.keySize = key then return some (buf.drop st.kh.keySize)
      st.search b h key fuel (i + 1)
    else .ok none

/-- The key in a loaded bucket or its spills. -/
def fetchFrom (st : Store) (h : Nat) (key : Bytes) : Nat → Bucket → Except Stop Bytes
  | fuel, b => do
    match ← st.search b h key b.size (b.lowerBound h) with
    | some value => pure value
    | none =>
      if b.spill = 0 then throw (.ec .key_not_found)
      match fuel with
      | 0 => throw .unfinished
      | fuel + 1 =>
        let b ← Bucket.read st.kh.blockSize st.dat b.spill
        st.fetchFrom h key fuel b

def fetch (st : Store) (key : Bytes) : Except Stop Bytes := do
  let h := hash st.hasher key st.kh.salt
  let n := bucketIndex h st.buckets st.modulus
  let b ← Bucket.read st.kh.blockSize st.key ((n + 1) * st.kh.blockSize)
  st.fetchFrom h key st.dat.length b

/-- The entries of a loaded bucket and of its spills, one list for each. -/
def entriesFrom (st : Store) : Nat → Bucket → Except Stop (List (List Entry))
  | fuel, b =>
    let es := (List.range b.size).map b.at_
    if b.spill = 0 then .ok [es]
    else
      match fuel with
      | 0 => .error .unfinished
      | fuel + 1 => do
        let next ← Bucket.read st.kh.blockSize st.dat b.spill
        let rest ← st.entriesFrom fuel next
        pure (es :: rest)

/-- The chain of bucket `n`. -/
def readChain (st : Store) (n : Nat) : Except Stop (List (List Entry)) := do
  let b ← Bucket.read st.kh.blockSize st.key ((n + 1) * st.kh.blockSize)
  st.entriesFrom st.dat.length b

/-! ## Lookups in chains -/

/-- The key and the value of the record an entry points to. -/
def keyAt (st : Store) (e : Entry) : Bytes := slice st.dat (e.offset + 6) st.kh.keySize

def valueAt (st : Store) (e : Entry) : Bytes :=
  slice st.dat (e.offset + 6 + st.kh.keySize) e.size

/-- The entry is the one that a lookup ends with. -/
def hit (st : Store) (h : Nat) (key : Bytes) (e : Entry) : Bool :=
  decide (e.hash = h) && decide (st.keyAt e = key)

/-- An entry that is read back as written, and whose record lies in the data file. -/
structure Sound (st : Store) (e : Entry) : Prop where
  valid : e.Valid
  inside : e.offset + 6 + (st.kh.keySize + e.size) ≤ st.dat.length

variable {st : Store} {es : List Entry} {spill : Nat} {post : Bytes} {b : Bucket} {h : Nat}
  {key : Bytes}

theorem readAt_record {e : Entry} (he : st.Sound e) :
    readAt st.dat (e.offset + 6) (st.kh.keySize + e.size) = .ok (st.keyAt e ++ st.valueAt e) := by
  rw [readAt_of_le he.inside, keyAt, valueAt, slice_append_slice]

theorem length_keyAt {e : Entry} (he : st.Sound e) : (st.keyAt e).length = st.kh.keySize := by
  have := he.inside
  rw [keyAt, length_slice]
  omega

theorem find?_eq_none_of_lt {l : List Entry} (hl : ∀ e ∈ l, h < e.hash) :
    l.find? (st.hit h key) = none := by
  rw [List.find?_eq_none]
  intro e he
  have := hl e he
  simp [hit]
  omega

/-- The scan of a sorted bucket finds the first hit among the entries that are left. -/
theorem search_eq (hp : b.p = encode es spill ++ post) (hsize : b.size = es.length)
    (hes : es.Pairwise Entry.before) (hsound : ∀ e ∈ es, st.Sound e) {fuel i : Nat}
    (hi : ∀ e ∈ es.drop i, h ≤ e.hash) (hfuel : es.length ≤ i + fuel) :
    st.search b h key fuel i = .ok (((es.drop i).find? (st.hit h key)).map st.valueAt) := by
  induction fuel generalizing i with
  | zero =>
    rw [search, List.drop_of_length_le (by omega)]
    rfl
  | succ fuel ih =>
    rw [search]
    by_cases hlt : i < es.length
    · have he := hsound es[i] (List.getElem_mem hlt)
      have hdrop : es.drop i = es[i] :: es.drop (i + 1) := List.drop_eq_getElem_cons hlt
      rw [hdrop] at hi ⊢
      have hrest : ∀ e ∈ es.drop (i + 1), es[i].hash ≤ e.hash := by
        have hpair : (es[i] :: es.drop (i + 1)).Pairwise Entry.before := hdrop ▸ hes.drop
        exact (List.pairwise_cons.mp hpair).1
      simp only [hsize, hlt, if_true, Bucket.at_encode hp hlt he.valid]
      by_cases hhash : es[i].hash = h
      · simp only [hhash, ne_eq, not_true, if_false, readAt_record he]
        have htake : (st.keyAt es[i] ++ st.valueAt es[i]).take st.kh.keySize = st.keyAt es[i] :=
          List.take_left' (length_keyAt he)
        have hdropv : (st.keyAt es[i] ++ st.valueAt es[i]).drop st.kh.keySize =
            st.valueAt es[i] := List.drop_left' (length_keyAt he)
        show (if (st.keyAt es[i] ++ st.valueAt es[i]).take st.kh.keySize = key then _ else _) = _
        rw [htake, hdropv]
        by_cases hkey : st.keyAt es[i] = key
        · have hhit : st.hit h key es[i] = true := by simp [hit, hhash, hkey]
          rw [if_pos hkey, List.find?_cons_of_pos hhit]
          rfl
        · have hmiss : ¬ st.hit h key es[i] = true := by simp [hit, hkey]
          rw [if_neg hkey, List.find?_cons_of_neg hmiss]
          apply ih _ (by omega)
          intro e he'
          exact hi e (List.mem_cons_of_mem _ he')
      · -- The entries are sorted: no hash that follows is `h`.
        have hmiss : ¬ st.hit h key es[i] = true := by simp [hit, hhash]
        have hgt : h < es[i].hash := lt_of_le_of_ne (hi _ List.mem_cons_self) (Ne.symm hhash)
        rw [List.find?_cons_of_neg hmiss,
          find?_eq_none_of_lt fun e he' => hgt.trans_le (hrest e he')]
        simp only [hhash, ne_eq, not_false_eq_true, if_true]
        rfl
    · rw [List.drop_of_length_le (by omega)]
      simp only [hsize, hlt, if_false]
      rfl

/-- The scan that starts at the lower bound finds the first hit of the bucket. -/
theorem search_lowerBound (hp : b.p = encode es spill ++ post) (hsize : b.size = es.length)
    (hes : es.Pairwise Entry.before) (hsound : ∀ e ∈ es, st.Sound e) :
    st.search b h key b.size (b.lowerBound h) =
      .ok ((es.find? (st.hit h key)).map st.valueAt) := by
  obtain ⟨-, hleft, hright⟩ :=
    Bucket.lowerBound_encode hp hsize hes (fun e he => (hsound e he).valid.hash) h
  rw [search_eq hp hsize hes hsound hright (by omega)]
  have hnone : (es.take (b.lowerBound h)).find? (st.hit h key) = none := by
    rw [List.find?_eq_none]
    intro e he
    have := hleft e he
    simp [hit]
    omega
  conv_rhs => rw [← List.take_append_drop (b.lowerBound h) es, List.find?_append, hnone]
  simp

/-- A blob read from a file. -/
theorem read_encode {blockSize offset : Nat} {f : Bytes} (hblock : blockSize < 2 ^ 16)
    (hcap : 0 < bucketCapacity blockSize)
    (hle : offset + bucketSize (bucketCapacity blockSize) ≤ f.length)
    (hlen : es.length ≤ bucketCapacity blockSize)
    (hslice : slice f offset (bucketSize (bucketCapacity blockSize)) = encode es spill ++ post) :
    Bucket.read blockSize f offset =
      .ok ⟨blockSize, es.length, spill % 256 ^ 6, encode es spill ++ post⟩ := by
  have hcount : es.length < 256 ^ 2 := by
    have hsize := bucketSize_le_of_le hcap hlen
    unfold bucketSize entrySize at hsize
    omega
  unfold Bucket.read
  rw [readAt_of_le hle, hslice]
  simp only [bind, Except.bind, Bucket.ofBlob_encode hcount]
  rw [if_neg (by simpa using hlen)]
  rfl

/-- A spill pointer that the files can hold. -/
theorem SpillAt.lt {asserts : Bool} {dat : Bytes} {s : Nat} {spilled : List (List Entry)}
    (hfits : asserts = true ∨ dat.length ≤ 256 ^ 6) (hs : SpillAt asserts dat s spilled) :
    s < 256 ^ 6 := by
  cases spilled with
  | nil =>
    rw [show s = 0 from hs]
    decide
  | cons es rest =>
    obtain ⟨-, hfit, hle, -⟩ := hs
    rcases hfits with hfits | hfits
    · exact hfit hfits
    · have hpos : 0 < bucketSize es.length := by
        unfold bucketSize
        omega
      omega

/-- A loaded bucket and the spill records it points to. -/
structure Loaded (st : Store) (asserts : Bool) (b : Bucket) (top : List Entry)
    (spilled : List (List Entry)) : Prop where
  size : b.size = top.length
  blob : ∃ post, b.p = encode top b.spill ++ post
  spills : SpillAt asserts st.dat b.spill spilled

/-- What is known of the buckets of a chain. -/
structure Searchable (st : Store) (es : List Entry) : Prop where
  sorted : es.Pairwise Entry.before
  sound : ∀ e ∈ es, st.Sound e

variable {asserts : Bool} {top : List Entry} {spilled : List (List Entry)}

theorem entries_eq {post : Bytes} (hp : b.p = encode es spill ++ post)
    (hsize : b.size = es.length) (hsound : ∀ e ∈ es, st.Sound e) :
    (List.range b.size).map b.at_ = es := by
  apply List.ext_getElem
  · simp [hsize]
  · intro i hi hi'
    rw [List.getElem_map, List.getElem_range]
    exact Bucket.at_encode hp hi' (hsound _ (List.getElem_mem hi')).valid

section Chains

variable (hblock : st.kh.blockSize < 2 ^ 16) (hcap : 0 < bucketCapacity st.kh.blockSize)
  (hfits : asserts = true ∨ st.dat.length ≤ 256 ^ 6)

include hblock hcap hfits

/-- The next bucket of a chain. -/
theorem Loaded.next (hb : st.Loaded asserts b top (es :: spilled))
    (hfull : es.length = bucketCapacity st.kh.blockSize) :
    b.spill ≠ 0 ∧ ∃ b', Bucket.read st.kh.blockSize st.dat b.spill = .ok b' ∧
      st.Loaded asserts b' es spilled := by
  obtain ⟨hpos, -, hle, next, hslice, hnext⟩ := hb.spills
  rw [hfull] at hle hslice
  rw [← List.append_nil (encode es next)] at hslice
  have hread := read_encode hblock hcap hle hfull.le hslice
  have hlt := SpillAt.lt hfits hnext
  rw [Nat.mod_eq_of_lt hlt] at hread
  exact ⟨hpos.ne', _, hread, rfl, ⟨[], rfl⟩, hnext⟩

/-- A lookup in a chain finds its first hit. -/
theorem fetchFrom_eq (h : Nat) (key : Bytes) (hb : st.Loaded asserts b top spilled)
    (hchain : ∀ es ∈ top :: spilled, st.Searchable es)
    (hfull : ∀ es ∈ spilled, es.length = bucketCapacity st.kh.blockSize) {fuel : Nat}
    (hfuel : spilled.length ≤ fuel) :
    st.fetchFrom h key fuel b =
      match (top :: spilled).flatten.find? (st.hit h key) with
      | some e => .ok (st.valueAt e)
      | none => .error (.ec .key_not_found) := by
  induction spilled generalizing b top fuel with
  | nil =>
    obtain ⟨post, hp⟩ := hb.blob
    have htop := hchain top List.mem_cons_self
    have hend : b.spill = 0 := hb.spills
    unfold fetchFrom
    rw [search_lowerBound hp hb.size htop.sorted htop.sound, List.flatten_singleton]
    cases top.find? (st.hit h key) with
    | some e => rfl
    | none => simp [bind, Except.bind, hend, throw, throwThe, MonadExceptOf.throw]
  | cons es spilled ih =>
    obtain ⟨post, hp⟩ := hb.blob
    have htop := hchain top List.mem_cons_self
    obtain ⟨hne, b', hread, hb'⟩ := hb.next hblock hcap hfits (hfull es List.mem_cons_self)
    cases fuel with
    | zero => simp at hfuel
    | succ fuel =>
      have hrest := ih hb' (fun es' h' => hchain es' (List.mem_cons_of_mem _ h'))
        (fun es' h' => hfull es' (List.mem_cons_of_mem _ h'))
        (show spilled.length ≤ fuel by simpa using hfuel)
      unfold fetchFrom
      rw [search_lowerBound hp hb.size htop.sorted htop.sound, List.flatten_cons,
        List.find?_append]
      cases top.find? (st.hit h key) with
      | some e => rfl
      | none => simpa [bind, Except.bind, hne, hread] using hrest

/-- The entries of a chain are read in order. -/
theorem entriesFrom_eq (hb : st.Loaded asserts b top spilled)
    (hchain : ∀ es ∈ top :: spilled, st.Searchable es)
    (hfull : ∀ es ∈ spilled, es.length = bucketCapacity st.kh.blockSize) {fuel : Nat}
    (hfuel : spilled.length ≤ fuel) :
    st.entriesFrom fuel b = .ok (top :: spilled) := by
  induction spilled generalizing b top fuel with
  | nil =>
    obtain ⟨post, hp⟩ := hb.blob
    have hend : b.spill = 0 := hb.spills
    unfold entriesFrom
    rw [entries_eq hp hb.size (hchain top List.mem_cons_self).sound, if_pos hend]
  | cons es spilled ih =>
    obtain ⟨post, hp⟩ := hb.blob
    obtain ⟨hne, b', hread, hb'⟩ := hb.next hblock hcap hfits (hfull es List.mem_cons_self)
    cases fuel with
    | zero => simp at hfuel
    | succ fuel =>
      have hrest := ih hb' (fun es' h' => hchain es' (List.mem_cons_of_mem _ h'))
        (fun es' h' => hfull es' (List.mem_cons_of_mem _ h'))
        (show spilled.length ≤ fuel by simpa using hfuel)
      unfold entriesFrom
      rw [entries_eq hp hb.size (hchain top List.mem_cons_self).sound, if_neg hne]
      simp [bind, Except.bind, hread, hrest, pure, Except.pure]

/-- The bucket in block `n + 1` of the key file. -/
theorem read_block {blockSize : Nat} (hbs : st.kh.blockSize = blockSize)
    {c : Chain (bucketCapacity blockSize)} {n : Nat} (hle : (n + 2) * blockSize ≤ st.key.length)
    (hc : Holds asserts blockSize st.dat c (slice st.key ((n + 1) * blockSize) blockSize)) :
    ∃ b, Bucket.read st.kh.blockSize st.key ((n + 1) * st.kh.blockSize) = .ok b ∧
      st.Loaded asserts b c.top c.spilled := by
  subst hbs
  obtain ⟨s, hblob, hs⟩ := hc
  have hfit := bucketSize_capacity_le hcap
  have hend : (n + 1) * st.kh.blockSize + st.kh.blockSize ≤ st.key.length := by
    rw [← Nat.succ_mul]
    exact hle
  -- The padding beyond the last entry is cut off.
  have hslice : slice st.key ((n + 1) * st.kh.blockSize)
      (bucketSize (bucketCapacity st.kh.blockSize)) = encode c.top s ++
        (List.replicate (st.kh.blockSize - bucketSize c.top.length) 0).take
          (bucketSize (bucketCapacity st.kh.blockSize) - bucketSize c.top.length) := by
    have hcut := congrArg (fun p => slice p 0 (bucketSize (bucketCapacity st.kh.blockSize))) hblob
    simp only [slice_slice (show 0 + bucketSize (bucketCapacity st.kh.blockSize) ≤
      st.kh.blockSize by omega), Nat.add_zero] at hcut
    have hmono : bucketSize c.top.length ≤ bucketSize (bucketCapacity st.kh.blockSize) := by
      have := Nat.mul_le_mul_right entrySize c.top_le
      unfold bucketSize
      omega
    rw [hcut, slice, List.drop_zero, blob, List.take_append, length_encode,
      List.take_of_length_le (by rw [length_encode]; exact hmono)]
  have hread := read_encode hblock hcap (by omega) c.top_le hslice
  rw [Nat.mod_eq_of_lt (SpillAt.lt hfits hs)] at hread
  exact ⟨_, hread, rfl, ⟨_, rfl⟩, hs⟩

end Chains

end Store

end Metcalfe.Nudb
