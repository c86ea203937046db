import Metcalfe.Library.Search
import Metcalfe.Library.Outcome
import Metcalfe.Nudb.Format

/-!
# Bucket blobs

A `Bucket` is the handle `detail/bucket.hpp` works with: the count and the spill pointer held
beside the blob they were read from. The operations move and overwrite bytes of the blob as
the source does. `blob` is the meaning of a blob, a list of entries and a spill pointer, and
each operation on blobs is shown to be the expected one on lists: `insert` is an ordered
insertion by hash, in front of the entries with an equal hash.
-/

namespace Metcalfe.Nudb

open BigEndian Search Outcome

/-- `write<T>` to a stream. The assertion that the value fits is compiled in or not. -/
def writeField (asserts : Bool) (w u : Nat) : Except Stop Bytes :=
  if asserts = true ∧ 256 ^ w ≤ u then .error .assertion else .ok (toBytes w u)

/-- What is known of a value that was written with its assertion. -/
def Fits (asserts : Bool) (u : Nat) : Prop := asserts = true → u < 256 ^ 6

/-- An assertion that fails is compiled in. -/
def Asserted (asserts : Bool) (s : Stop) : Prop := s = .assertion ∧ asserts = true

theorem writeField_ends (asserts : Bool) (w u : Nat) :
    Ends (writeField asserts w u) (fun b => b = toBytes w u ∧ (asserts = true → u < 256 ^ w))
      (Asserted asserts) := by
  unfold writeField
  split
  · rename_i h
    exact ⟨rfl, h.1⟩
  · rename_i h
    exact ⟨rfl, fun ha => not_le.mp fun hle => h ⟨ha, hle⟩⟩

theorem writeField_of_lt {asserts : Bool} {w u : Nat} (h : u < 256 ^ w) :
    writeField asserts w u = .ok (toBytes w u) := by
  rw [writeField, if_neg]
  intro hle
  omega

/-- `bucket_t::value_type`. -/
structure Entry where
  offset : Nat
  size : Nat
  hash : Nat
  deriving DecidableEq, Repr

structure Bucket where
  blockSize : Nat
  size : Nat
  spill : Nat
  p : Bytes
  deriving DecidableEq, Repr

namespace Bucket

/-- The constructor that reads the count and the spill pointer from the blob. -/
def ofBlob (blockSize : Nat) (p : Bytes) : Bucket :=
  let (size, is) := readField 2 p
  let (spill, _) := readField 6 is
  ⟨blockSize, size, spill, p⟩

def clear (b : Bucket) : Bucket :=
  { b with size := 0, spill := 0, p := List.replicate b.blockSize 0 }

/-- The constructor that clears the blob. -/
def empty (blockSize : Nat) : Bucket := clear ⟨blockSize, 0, 0, []⟩

def actualSize (b : Bucket) : Nat := bucketSize b.size

def full (b : Bucket) : Bool := b.size ≥ bucketCapacity b.blockSize

/-- Writes the count and the spill pointer to the blob. -/
def update (asserts : Bool) (b : Bucket) : Except Stop Bucket := do
  let count ← writeField asserts 2 b.size
  let spill ← writeField asserts 6 b.spill
  pure { b with p := splice b.p 0 (count ++ spill) }

/-- `spill(offset)`. -/
def setSpill (asserts : Bool) (b : Bucket) (offset : Nat) : Except Stop Bucket :=
  update asserts { b with spill := offset }

/-- The entry at position `i`; sizes are cut to 32 bits by `read_size48`. -/
def at_ (b : Bucket) (i : Nat) : Entry where
  offset := ofBytes (slice b.p (8 + i * entrySize) 6)
  size := ofBytes (slice b.p (8 + i * entrySize + 6) 6) % 2 ^ 32
  hash := ofBytes (slice b.p (8 + i * entrySize + 12) 6)

/-- What `read_size48` asserts to be in 32 bits. -/
def sizeAt (b : Bucket) (i : Nat) : Nat := ofBytes (slice b.p (8 + i * entrySize + 6) 6)

def hashAt (b : Bucket) (i : Nat) : Nat := ofBytes (slice b.p (8 + 12 + i * entrySize) 6)

/-- The first entry whose hash is not smaller. -/
def lowerBound (b : Bucket) (h : Nat) : Nat :=
  Search.lowerBound (fun i => decide (b.hashAt i < h)) b.size 0 b.size

def insert (asserts : Bool) (b : Bucket) (offset size h : Nat) : Except Stop Bucket := do
  let i := b.lowerBound h
  let moved := slice b.p (8 + i * entrySize) ((b.size - i) * entrySize)
  let b ← update asserts
    { b with size := b.size + 1, p := splice b.p (8 + (i + 1) * entrySize) moved }
  let offset ← writeField asserts 6 offset
  let size ← writeField asserts 6 size
  let h ← writeField asserts 6 h
  pure { b with p := splice b.p (8 + i * entrySize) (offset ++ (size ++ h)) }

/-- `write(os)`: the bytes of the entries that are there, without the padding. -/
def write (b : Bucket) : Bytes := b.p.take b.actualSize

end Bucket

/-! ## What a blob holds -/

namespace Entry

def encode (e : Entry) : Bytes := toBytes 6 e.offset ++ (toBytes 6 e.size ++ toBytes 6 e.hash)

theorem length_encode (e : Entry) : e.encode.length = entrySize := by
  simp [encode, entrySize]

theorem length_flatMap_encode (es : List Entry) :
    (es.flatMap encode).length = es.length * entrySize :=
  length_flatMap_of_width fun e _ => e.length_encode

/-- The values that a bucket can give back. -/
structure Valid (e : Entry) : Prop where
  offset : e.offset < 256 ^ 6
  size : e.size < 2 ^ 32
  hash : e.hash < 256 ^ 6

/-- The order of the entries of a bucket. -/
def before (a b : Entry) : Prop := a.hash ≤ b.hash

instance : DecidableRel before := fun a b => inferInstanceAs (Decidable (a.hash ≤ b.hash))

instance : Std.Total before := ⟨fun a b => Nat.le_total a.hash b.hash⟩

instance : IsTrans Entry before := ⟨fun _ _ _ => Nat.le_trans⟩

end Entry

/-- Count, spill pointer and entries. -/
def encode (es : List Entry) (spill : Nat) : Bytes :=
  (toBytes 2 es.length ++ toBytes 6 spill) ++ es.flatMap Entry.encode

/-- A bucket padded with zeros to the size of a block. -/
def blob (blockSize : Nat) (es : List Entry) (spill : Nat) : Bytes :=
  encode es spill ++ List.replicate (blockSize - bucketSize es.length) 0

theorem length_encode (es : List Entry) (spill : Nat) :
    (encode es spill).length = bucketSize es.length := by
  simp only [encode, List.length_append, length_toBytes,
    Entry.length_flatMap_encode, bucketSize]

theorem length_blob {blockSize : Nat} {es : List Entry} (h : bucketSize es.length ≤ blockSize)
    (spill : Nat) : (blob blockSize es spill).length = blockSize := by
  rw [blob, List.length_append, length_encode, List.length_replicate]
  omega

namespace Bucket

variable {blockSize : Nat} {es : List Entry} {spill : Nat} {post : Bytes}

theorem readField_mod (w n : Nat) (rest : Bytes) :
    readField w (toBytes w n ++ rest) = (n % 256 ^ w, rest) := by
  have hlt : n % 256 ^ w < 256 ^ w := Nat.mod_lt _ (by positivity)
  rw [← toBytes_mod, readField_append hlt]

theorem ofBlob_encode (hlen : es.length < 256 ^ 2) :
    ofBlob blockSize (encode es spill ++ post) =
      ⟨blockSize, es.length, spill % 256 ^ 6, encode es spill ++ post⟩ := by
  simp only [ofBlob, encode, List.append_assoc, readField_append hlen, readField_mod]

theorem zeros_eq (h : bucketSize 0 ≤ blockSize) : List.replicate blockSize (0 : UInt8) =
    List.replicate 8 0 ++ List.replicate (blockSize - bucketSize 0) 0 := by
  rw [List.replicate_append_replicate]
  congr 1
  simp only [bucketSize, entrySize] at *
  omega

theorem empty_p (h : bucketSize 0 ≤ blockSize) : (empty blockSize).p = blob blockSize [] 0 := by
  show List.replicate blockSize 0 = _
  rw [zeros_eq h]
  rfl

theorem entry_bytes {i : Nat} (hi : i < es.length) :
    slice (encode es spill ++ post) (8 + i * entrySize) entrySize = es[i].encode := by
  have hhead : (toBytes 2 es.length ++ toBytes 6 spill).length = 8 := by simp
  rw [encode, List.append_assoc, ← hhead]
  exact slice_flatMap _ _ (fun e _ => e.length_encode) hi

theorem field_bytes (spill : Nat) (post : Bytes) {i : Nat} (hi : i < es.length)
    {a c : Bytes} {n : Nat} (hes : es[i].encode = a ++ (toBytes 6 n ++ c))
    (hn : n < 256 ^ 6) :
    ofBytes (slice (encode es spill ++ post) (8 + i * entrySize + a.length) 6) = n := by
  have hlen : a.length + 6 ≤ entrySize := by
    have := es[i].length_encode
    rw [hes, List.length_append, List.length_append, length_toBytes] at this
    omega
  rw [← slice_slice hlen, entry_bytes hi, hes, slice_middle rfl (length_toBytes 6 n),
    ofBytes_toBytes_of_lt hn]

/-- An entry is read back as it was written. -/
theorem at_encode {b : Bucket} (hb : b.p = encode es spill ++ post) {i : Nat}
    (hi : i < es.length) (hv : es[i].Valid) : b.at_ i = es[i] := by
  have hoffset := field_bytes spill post hi (a := [])
    (c := toBytes 6 es[i].size ++ toBytes 6 es[i].hash) rfl hv.offset
  have hsize := field_bytes spill post hi (a := toBytes 6 es[i].offset)
    (c := toBytes 6 es[i].hash) rfl (hv.size.trans (by decide))
  have hhash := field_bytes spill post hi
    (a := toBytes 6 es[i].offset ++ toBytes 6 es[i].size) (c := [])
    (by simp [Entry.encode]) hv.hash
  simp only [List.length_nil, List.length_append, length_toBytes, Nat.add_zero, Nat.reduceAdd]
    at hoffset hsize hhash
  rw [at_, hb, hoffset, hsize, hhash, Nat.mod_eq_of_lt hv.size]

theorem sizeAt_encode {b : Bucket} (hb : b.p = encode es spill ++ post) {i : Nat}
    (hi : i < es.length) (hs : es[i].size < 256 ^ 6) : b.sizeAt i = es[i].size := by
  have hsize := field_bytes spill post hi (a := toBytes 6 es[i].offset)
    (c := toBytes 6 es[i].hash) rfl hs
  rw [length_toBytes] at hsize
  rw [sizeAt, hb, hsize]

theorem hashAt_encode {b : Bucket} (hb : b.p = encode es spill ++ post) {i : Nat}
    (hi : i < es.length) (hh : es[i].hash < 256 ^ 6) : b.hashAt i = es[i].hash := by
  have hhash := field_bytes spill post hi
    (a := toBytes 6 es[i].offset ++ toBytes 6 es[i].size) (c := [])
    (by simp [Entry.encode]) hh
  simp only [List.length_append, length_toBytes, Nat.reduceAdd] at hhash
  have hpos : 8 + 12 + i * entrySize = 8 + i * entrySize + 12 := by omega
  rw [hashAt, hb, hpos, hhash]

/-- In a sorted bucket the search finds the first entry whose hash is not smaller. -/
theorem lowerBound_encode {b : Bucket} (hb : b.p = encode es spill ++ post)
    (hsize : b.size = es.length) (hes : es.Pairwise Entry.before)
    (hh : ∀ e ∈ es, e.hash < 256 ^ 6) (h : Nat) :
    b.lowerBound h ≤ es.length ∧ (∀ e ∈ es.take (b.lowerBound h), e.hash < h) ∧
      ∀ e ∈ es.drop (b.lowerBound h), h ≤ e.hash := by
  have hread : ∀ i (hi : i < es.length), b.hashAt i = es[i].hash := fun i hi =>
    hashAt_encode hb hi (hh _ (List.getElem_mem hi))
  have hmono : ∀ i j, i ≤ j → j < es.length → decide (b.hashAt j < h) = true →
      decide (b.hashAt i < h) = true := by
    intro i j hij hj hlt
    rw [decide_eq_true_eq, hread j hj] at hlt
    rw [decide_eq_true_eq, hread i (by omega)]
    have hle : es[i].hash ≤ es[j].hash := by
      rcases Nat.eq_or_lt_of_le hij with rfl | hlt'
      · exact le_rfl
      · exact List.pairwise_iff_getElem.mp hes i j (by omega) hj hlt'
    omega
  have hthresh : Threshold (fun i => decide (b.hashAt i < h)) es.length (b.lowerBound h) := by
    unfold lowerBound
    rw [hsize]
    exact lowerBound_spec hmono
  refine ⟨hthresh.bound, fun e he => ?_, fun e he => ?_⟩
  · obtain ⟨i, hi, rfl⟩ := List.getElem_of_mem he
    rw [List.length_take] at hi
    have hlt := hthresh.left i (by omega)
    rw [decide_eq_true_eq, hread i (by omega)] at hlt
    rwa [List.getElem_take]
  · obtain ⟨i, hi, rfl⟩ := List.getElem_of_mem he
    rw [List.length_drop] at hi
    have hge := hthresh.right (b.lowerBound h + i) (by omega) (by omega)
    rw [decide_eq_false_iff_not, hread _ (by omega)] at hge
    rw [List.getElem_drop]
    omega

/-- Moving the entries from position `i` on leaves a gap for one entry. -/
theorem memmove_eq {head : Bytes} {l r : List Entry} {n : Nat} (hhead : head.length = 8)
    (hn : entrySize ≤ n) {p : Bytes}
    (hp : p = head ++ ((l ++ r).flatMap Entry.encode ++ List.replicate n 0)) :
    ∃ gap : Bytes, gap.length = entrySize ∧
      splice p (8 + (l.length + 1) * entrySize)
        (slice p (8 + l.length * entrySize) (r.length * entrySize)) =
      head ++ (l.flatMap Entry.encode ++
        (gap ++ (r.flatMap Entry.encode ++ List.replicate (n - entrySize) 0))) := by
  have hl := Entry.length_flatMap_encode l
  have hr := Entry.length_flatMap_encode r
  have hfront : (head ++ l.flatMap Entry.encode).length = 8 + l.length * entrySize := by
    rw [List.length_append, hhead, hl]
  have hp : p = (head ++ l.flatMap Entry.encode) ++
      (r.flatMap Entry.encode ++ List.replicate n 0) := by
    simp [hp, List.flatMap_append]
  have hmoved : slice p (8 + l.length * entrySize) (r.length * entrySize) =
      r.flatMap Entry.encode := by
    rw [hp]
    exact slice_middle hfront hr
  -- What stands after the first entries: the gap, the bytes that the moved entries overwrite,
  -- and the padding that is left.
  obtain ⟨x, hx⟩ : ∃ x, x = r.flatMap Entry.encode ++ List.replicate n (0 : UInt8) := ⟨_, rfl⟩
  have hxlen : x.length = r.length * entrySize + n := by
    rw [hx, List.length_append, hr, List.length_replicate]
  have hrest : x.drop (entrySize + r.length * entrySize) = List.replicate (n - entrySize) 0 := by
    rw [hx, List.drop_append, List.drop_of_length_le (by rw [hr]; omega), List.nil_append,
      List.drop_replicate, hr]
    congr 1
    omega
  have hsplit : x = x.take entrySize ++ ((x.drop entrySize).take (r.length * entrySize) ++
      List.replicate (n - entrySize) 0) := by
    rw [← hrest, ← List.drop_drop, List.take_append_drop, List.take_append_drop]
  have hgap : (x.take entrySize).length = entrySize := by
    rw [List.length_take, hxlen]
    omega
  have hover : ((x.drop entrySize).take (r.length * entrySize)).length =
      (r.flatMap Entry.encode).length := by
    rw [List.length_take, List.length_drop, hxlen, hr]
    omega
  have hat : ((head ++ l.flatMap Entry.encode) ++ x.take entrySize).length =
      8 + (l.length + 1) * entrySize := by
    rw [List.length_append, hfront, hgap]
    ring
  refine ⟨x.take entrySize, hgap, ?_⟩
  have hp : p = ((head ++ l.flatMap Entry.encode) ++ x.take entrySize) ++
      ((x.drop entrySize).take (r.length * entrySize) ++ List.replicate (n - entrySize) 0) := by
    rw [List.append_assoc (head ++ l.flatMap Entry.encode), ← hsplit, hp, hx]
  rw [hmoved, hp, splice_middle hat hover]
  simp

/-- Writing an entry into the gap. -/
theorem splice_gap (head gap post : Bytes) {l r : List Entry} {e : Entry}
    (hhead : head.length = 8) (hgap : gap.length = entrySize) :
    splice (head ++ (l.flatMap Entry.encode ++ (gap ++ (r.flatMap Entry.encode ++ post))))
      (8 + l.length * entrySize) e.encode =
      head ++ ((l ++ e :: r).flatMap Entry.encode ++ post) := by
  have hfront : (head ++ l.flatMap Entry.encode).length = 8 + l.length * entrySize := by
    rw [List.length_append, hhead, Entry.length_flatMap_encode]
  rw [← List.append_assoc, splice_middle hfront (by rw [hgap, Entry.length_encode])]
  simp [List.flatMap_append]

/-- `update` replaces the count and the spill pointer and nothing else. -/
theorem update_ends (asserts : Bool) {b : Bucket} {head rest : Bytes} (hhead : head.length = 8)
    (hp : b.p = head ++ rest) (hsize : b.size < 256 ^ 2) :
    Ends (update asserts b) (fun b' => b' = { b with
        p := (toBytes 2 b.size ++ toBytes 6 b.spill) ++ rest } ∧ Fits asserts b.spill)
      (Asserted asserts) := by
  unfold update
  rw [writeField_of_lt hsize]
  refine (writeField_ends asserts 6 b.spill).bind fun s hs => ?_
  obtain ⟨rfl, hfits⟩ := hs
  refine ⟨?_, hfits⟩
  rw [hp, splice_start (by simp [hhead])]

theorem setSpill_clear_ends (asserts : Bool) (b : Bucket) (h : bucketSize 0 ≤ b.blockSize)
    (offset : Nat) :
    Ends (setSpill asserts b.clear offset)
      (fun b' => b' = ⟨b.blockSize, 0, offset, blob b.blockSize [] offset⟩ ∧ Fits asserts offset)
      (Asserted asserts) := by
  have hzero : b.clear.size < 256 ^ 2 := Nat.zero_lt_succ _
  refine (update_ends asserts (b := { b.clear with spill := offset }) (by simp) (zeros_eq h)
    hzero).mono (fun b' hb' => ?_) (fun _ h => h)
  obtain ⟨rfl, hfits⟩ := hb'
  refine ⟨?_, hfits⟩
  simp [clear, blob, encode]

/-- An insertion into a bucket that is not full. -/
theorem insert_ends (asserts : Bool) {b : Bucket} (hp : b.p = blob blockSize es spill)
    (hsize : b.size = es.length) (hspill : toBytes 6 b.spill = toBytes 6 spill)
    (hroom : bucketSize (es.length + 1) ≤ blockSize) (hblock : blockSize < 2 ^ 16)
    (hes : es.Pairwise Entry.before) (hh : ∀ e ∈ es, e.hash < 256 ^ 6) (e : Entry) :
    Ends (insert asserts b e.offset e.size e.hash)
      (fun b' => b'.p = blob blockSize (es.orderedInsert Entry.before e) spill ∧
        Fits asserts e.offset)
      (Asserted asserts) := by
  obtain ⟨hi, hleft, hright⟩ := lowerBound_encode hp hsize hes hh e.hash
  have hinsert : es.orderedInsert Entry.before e =
      es.take (b.lowerBound e.hash) ++ e :: es.drop (b.lowerBound e.hash) := by
    apply orderedInsert_eq_take_append hi
    · intro e' he'
      exact not_le.mpr (hleft e' he')
    · exact hright
  unfold insert
  generalize b.lowerBound e.hash = i at hi hinsert ⊢
  have hlen : (es.take i).length = i := by rw [List.length_take, min_eq_left hi]
  have hlen' : (es.drop i).length = b.size - i := by rw [List.length_drop, hsize]
  have hcount : es.length + 1 < 256 ^ 2 := by
    simp only [bucketSize, entrySize] at hroom
    omega
  have hpad : entrySize ≤ blockSize - bucketSize es.length := by
    simp only [bucketSize, add_mul] at *
    omega
  have hblob : b.p = (toBytes 2 es.length ++ toBytes 6 spill) ++
      ((es.take i ++ es.drop i).flatMap Entry.encode ++
        List.replicate (blockSize - bucketSize es.length) 0) := by
    rw [List.take_append_drop, hp, blob, encode, List.append_assoc]
  obtain ⟨gap, hgap, hmove⟩ := memmove_eq (by simp) hpad hblob
  rw [hlen, hlen'] at hmove
  refine (update_ends asserts (by simp) hmove (by simpa [hsize] using hcount)).bind
    fun b' hb' => ?_
  obtain ⟨rfl, -⟩ := hb'
  refine (writeField_ends asserts 6 e.offset).bind fun o ho => ?_
  refine (writeField_ends asserts 6 e.size).bind fun z hz => ?_
  refine (writeField_ends asserts 6 e.hash).bind fun h hh' => ?_
  obtain ⟨rfl, hfits⟩ := ho
  obtain ⟨rfl, -⟩ := hz
  obtain ⟨rfl, -⟩ := hh'
  refine ⟨?_, hfits⟩
  show splice _ _ e.encode = _
  have hfill := splice_gap (toBytes 2 (b.size + 1) ++ toBytes 6 b.spill) gap
    (List.replicate (blockSize - bucketSize es.length - entrySize) 0)
    (l := es.take i) (r := es.drop i) (e := e) (by simp) hgap
  rw [hlen] at hfill
  refine hfill.trans ?_
  rw [hinsert, blob, encode, hspill, hsize]
  have hlength : (es.take i ++ e :: es.drop i).length = es.length + 1 := by
    rw [← hinsert, List.orderedInsert_length]
  have hpad' : blockSize - bucketSize es.length - entrySize =
      blockSize - bucketSize (es.length + 1) := by
    simp only [bucketSize, add_mul]
    omega
  simp only [hlength, hpad', List.flatMap_append, List.flatMap_cons, List.append_assoc]

end Bucket

end Metcalfe.Nudb
