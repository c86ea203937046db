import Metcalfe.Nudb.Chain

/-!
# Buckets in memory

A store keeps copies of buckets in memory and works on them in place. A copy has only the bytes
that were written to it: what follows the entries of a blob is not known, where `Nudb.Bucket` has
the zeros of a block. `Shows` is what a handle shows of its blob, whatever follows the entries, and
each operation of `detail/bucket.hpp` is given by what it shows afterwards. Assertions are
compiled in.
-/

namespace Metcalfe.Nudb

open BigEndian Outcome

namespace Bucket

/-- Removes the entry at position `i`. -/
def erase (asserts : Bool) (b : Bucket) (i : Nat) : Except Stop Bucket :=
  let size := b.size - 1
  let p :=
    if i < size then
      splice b.p (8 + i * entrySize) (slice b.p (8 + (i + 1) * entrySize) ((size - i) * entrySize))
    else b.p
  update asserts
    { b with size := size, p := splice p (8 + size * entrySize) (List.replicate entrySize 0) }

/-- What `write(File&, ..)` writes: the bucket with zeros up to the size of a block. -/
def blockBytes (b : Bucket) : Bytes :=
  (splice b.p b.actualSize (List.replicate (b.blockSize - b.actualSize) 0)).take b.blockSize

theorem length_blockBytes_le (b : Bucket) : b.blockBytes.length ≤ b.blockSize :=
  List.length_take_le _ _

theorem blockBytes_ne_nil {b : Bucket} (h : 0 < b.blockSize) : b.blockBytes ≠ [] := by
  have hpos : 0 < b.actualSize := by
    unfold actualSize bucketSize
    omega
  have hlen : 0 < b.blockBytes.length := by
    unfold blockBytes splice
    simp only [List.length_take, List.length_append, List.length_replicate, List.length_drop]
    omega
  exact List.ne_nil_of_length_pos hlen

/-- The handle of a blob that begins with these entries and this pointer. -/
structure Shows (b : Bucket) (blockSize : Nat) (es : List Entry) (spill : Nat) : Prop where
  block : b.blockSize = blockSize
  count : b.size = es.length
  points : b.spill = spill
  blob : ∃ post, b.p = encode es spill ++ post

variable {b : Bucket} {blockSize : Nat} {es : List Entry} {spill : Nat}

theorem shows_ofBlob {p post : Bytes} (hp : p = encode es spill ++ post)
    (hlen : es.length < 256 ^ 2) (hspill : spill < 256 ^ 6) :
    (ofBlob blockSize p).Shows blockSize es spill := by
  rw [hp, ofBlob_encode hlen, Nat.mod_eq_of_lt hspill]
  exact ⟨rfl, rfl, rfl, post, rfl⟩

/-- A handle is made anew from its blob. -/
theorem Shows.ofBlob (h : b.Shows blockSize es spill) (hlen : es.length < 256 ^ 2)
    (hspill : spill < 256 ^ 6) : (Bucket.ofBlob blockSize b.p).Shows blockSize es spill := by
  obtain ⟨post, hp⟩ := h.blob
  exact shows_ofBlob hp hlen hspill

theorem Shows.write (h : b.Shows blockSize es spill) : b.write = encode es spill := by
  obtain ⟨post, hp⟩ := h.blob
  rw [Bucket.write, actualSize, h.count, hp, List.take_left' (length_encode es spill)]

/-- A copy of the entries that are there. -/
theorem Shows.ofBlob_write (h : b.Shows blockSize es spill) (hlen : es.length < 256 ^ 2)
    (hspill : spill < 256 ^ 6) : (Bucket.ofBlob blockSize b.write).Shows blockSize es spill := by
  rw [h.write]
  exact shows_ofBlob (List.append_nil _).symm hlen hspill

theorem Shows.actualSize (h : b.Shows blockSize es spill) :
    b.actualSize = bucketSize es.length := by
  rw [Bucket.actualSize, h.count]

/-- The block that is written to the key file. -/
theorem Shows.blockBytes (h : b.Shows blockSize es spill)
    (hfit : bucketSize es.length ≤ blockSize) : b.blockBytes = Nudb.blob blockSize es spill := by
  obtain ⟨post, hp⟩ := h.blob
  have hlen := length_encode es spill
  have hsplice : splice (encode es spill ++ post) (bucketSize es.length)
      (List.replicate (blockSize - bucketSize es.length) 0) =
      Nudb.blob blockSize es spill ++ post.drop (blockSize - bucketSize es.length) := by
    have htake : (encode es spill ++ post).take (bucketSize es.length) = encode es spill :=
      List.take_left' hlen
    have hzero : bucketSize es.length - (encode es spill ++ post).length = 0 := by
      rw [List.length_append, hlen]
      omega
    have hdrop : (encode es spill ++ post).drop (bucketSize es.length +
        (List.replicate (blockSize - bucketSize es.length) (0 : UInt8)).length) =
        post.drop (blockSize - bucketSize es.length) := by
      rw [List.length_replicate, ← List.drop_drop, List.drop_left' hlen]
    rw [splice, htake, hzero, hdrop]
    simp [Nudb.blob]
  rw [Bucket.blockBytes, h.actualSize, h.block, hp, hsplice,
    List.take_left' (length_blob hfit spill)]

theorem Shows.at (h : b.Shows blockSize es spill) {i : Nat} (hi : i < es.length)
    (hv : es[i].Valid) : b.at_ i = es[i] := by
  obtain ⟨post, hp⟩ := h.blob
  exact at_encode hp hi hv

/-- The assertion of `read_size48` holds for the entries of a blob. -/
theorem Shows.sizeAt_lt (h : b.Shows blockSize es spill) {i : Nat} (hi : i < b.size)
    (hv : ∀ e ∈ es, e.Valid) : b.sizeAt i < 2 ^ 32 := by
  obtain ⟨post, hp⟩ := h.blob
  have hlt : i < es.length := by rwa [h.count] at hi
  have hsize := (hv es[i] (List.getElem_mem hlt)).size
  rwa [sizeAt_encode hp hlt (hsize.trans (by decide))]

theorem Shows.entries (h : b.Shows blockSize es spill) (hv : ∀ e ∈ es, e.Valid) :
    (List.range b.size).map b.at_ = es := by
  apply List.ext_getElem
  · simp [h.count]
  · intro i hi hi'
    rw [List.getElem_map, List.getElem_range]
    exact h.at hi' (hv _ (List.getElem_mem hi'))

/-- `spill(offset)`. -/
theorem Shows.setSpill (h : b.Shows blockSize es spill) (hlen : es.length < 256 ^ 2)
    (offset : Nat) :
    Ends (b.setSpill true offset) (fun b' => b'.Shows blockSize es offset ∧ offset < 256 ^ 6)
      (· = .assertion) := by
  obtain ⟨post, hp⟩ := h.blob
  have hrest : b.p = (toBytes 2 es.length ++ toBytes 6 spill) ++ (es.flatMap Entry.encode ++ post) := by
    rw [hp, encode, List.append_assoc]
  have hsize : Bucket.size { b with spill := offset } < 256 ^ 2 := by
    show b.size < _
    rw [h.count]
    exact hlen
  refine (update_ends true (b := { b with spill := offset }) (by simp) hrest hsize).mono
    (fun b' hb' => ?_) fun e he => he.1
  obtain ⟨rfl, hfits⟩ := hb'
  refine ⟨⟨h.block, h.count, rfl, post, ?_⟩, hfits rfl⟩
  show (toBytes 2 b.size ++ toBytes 6 offset) ++ _ = _
  rw [h.count]
  simp only [encode, List.append_assoc]

/-- A bucket that is cleared and points to a spill record. -/
theorem clear_setSpill_ends (b : Bucket) (h : bucketSize 0 ≤ b.blockSize) (offset : Nat) :
    Ends (b.clear.setSpill true offset)
      (fun b' => b'.Shows b.blockSize [] offset ∧ offset < 256 ^ 6) (· = .assertion) := by
  refine (setSpill_clear_ends true b h offset).mono (fun b' hb' => ?_) fun e he => he.1
  obtain ⟨rfl, hfits⟩ := hb'
  exact ⟨⟨rfl, rfl, rfl, _, rfl⟩, hfits rfl⟩

theorem shows_empty (h : bucketSize 0 ≤ blockSize) : (empty blockSize).Shows blockSize [] 0 :=
  ⟨rfl, rfl, rfl, _, empty_p h⟩

/-! ## Entries that move -/

/-- Moving the entries from one position on leaves a gap for one entry, whatever follows. -/
theorem memmove_gap {head l r post p : Bytes} {off n : Nat} (hp : p = head ++ (l ++ (r ++ post)))
    (hoff : off = head.length + l.length + n) :
    ∃ gap : Bytes, gap.length = n ∧
      splice p off r = head ++ (l ++ (gap ++ (r ++ post.drop n))) := by
  refine ⟨(r ++ post).take n ++ List.replicate (n - (r ++ post).length) 0, ?_, ?_⟩
  · rw [List.length_append, List.length_take, List.length_replicate]
    omega
  · have hfront : p = (head ++ l) ++ (r ++ post) := by rw [hp, List.append_assoc]
    have hlen : (head ++ l).length = head.length + l.length := List.length_append
    have htake : p.take off = (head ++ l) ++ (r ++ post).take n := by
      rw [hfront, hoff, ← hlen, List.take_length_add_append]
    have hdrop : p.drop (off + r.length) = post.drop n := by
      rw [hfront, hoff, ← hlen, Nat.add_assoc, List.drop_length_add_append, Nat.add_comm,
        List.drop_length_add_append]
    have hpad : off - p.length = n - (r ++ post).length := by
      rw [hfront, hoff, List.length_append, hlen]
      omega
    rw [splice, htake, hdrop, hpad]
    simp only [List.append_assoc]

theorem Shows.insert (h : b.Shows blockSize es spill) (hlen : es.length + 1 < 256 ^ 2)
    (hes : es.Pairwise Entry.before) (hh : ∀ e ∈ es, e.hash < 256 ^ 6) (e : Entry) :
    Ends (b.insert true e.offset e.size e.hash)
      (fun b' => b'.Shows blockSize (es.orderedInsert Entry.before e) spill ∧ e.offset < 256 ^ 6)
      (· = .assertion) := by
  obtain ⟨post, hp⟩ := h.blob
  obtain ⟨hi, hleft, hright⟩ := lowerBound_encode hp h.count hes hh e.hash
  have hinsert : es.orderedInsert Entry.before e =
      es.take (b.lowerBound e.hash) ++ e :: es.drop (b.lowerBound e.hash) := by
    apply Search.orderedInsert_eq_take_append hi
    · intro e' he'
      exact not_le.mpr (hleft e' he')
    · exact hright
  unfold Bucket.insert
  dsimp only
  generalize b.lowerBound e.hash = i at hi hinsert ⊢
  have hlenL : (es.take i).length = i := by rw [List.length_take, min_eq_left hi]
  have hlenR : (es.drop i).length = b.size - i := by rw [List.length_drop, h.count]
  have hbytesL := Entry.length_flatMap_encode (es.take i)
  have hbytesR := Entry.length_flatMap_encode (es.drop i)
  have hblob : b.p = (toBytes 2 es.length ++ toBytes 6 spill) ++
      ((es.take i).flatMap Entry.encode ++ ((es.drop i).flatMap Entry.encode ++ post)) := by
    rw [hp, encode, ← List.append_assoc (List.flatMap _ _), ← List.flatMap_append,
      List.take_append_drop, List.append_assoc]
  have hmoved : slice b.p (8 + i * entrySize) ((b.size - i) * entrySize) =
      (es.drop i).flatMap Entry.encode := by
    rw [hblob, ← List.append_assoc]
    apply slice_middle
    · rw [List.length_append, hbytesL, hlenL]
      simp
    · rw [hbytesR, hlenR]
  obtain ⟨gap, hgap, hmove⟩ := memmove_gap hblob
    (show 8 + (i + 1) * entrySize = _ + _ + entrySize by
      rw [hbytesL, hlenL]
      simp
      ring)
  rw [hmoved]
  refine Ends.bind (R := fun b' => b' = { b with
      size := b.size + 1
      p := (toBytes 2 (b.size + 1) ++ toBytes 6 b.spill) ++
        ((es.take i).flatMap Entry.encode ++ (gap ++ ((es.drop i).flatMap Entry.encode ++
          post.drop entrySize))) }) ?_ fun b' hb' => ?_
  · refine (update_ends true (by simp) hmove (show b.size + 1 < 256 ^ 2 by rw [h.count]; exact hlen)).mono
      (fun b' hb' => hb'.1) fun e he => he.1
  · subst hb'
    have hstop : ∀ s : Stop, Asserted true s → s = .assertion := fun s hs => hs.1
    refine ((writeField_ends true 6 e.offset).mono (fun _ h => h) hstop).bind fun o ho => ?_
    refine ((writeField_ends true 6 e.size).mono (fun _ h => h) hstop).bind fun z hz => ?_
    refine ((writeField_ends true 6 e.hash).mono (fun _ h => h) hstop).bind fun x hx => ?_
    obtain ⟨rfl, hfits⟩ := ho
    obtain ⟨rfl, -⟩ := hz
    obtain ⟨rfl, -⟩ := hx
    have hcount : b.size + 1 = (es.orderedInsert Entry.before e).length := by
      rw [h.count, List.orderedInsert_length]
    refine ⟨⟨h.block, hcount, h.points, post.drop entrySize, ?_⟩, hfits rfl⟩
    have hfill := splice_gap (toBytes 2 (b.size + 1) ++ toBytes 6 b.spill) gap
      (post.drop entrySize) (l := es.take i) (r := es.drop i) (e := e) (by simp) hgap
    rw [hlenL] at hfill
    refine hfill.trans ?_
    rw [← hinsert, hcount, h.points]
    simp only [encode, List.append_assoc]

theorem Shows.erase (h : b.Shows blockSize es spill) (hlen : es.length < 256 ^ 2) {i : Nat}
    (hi : i < es.length) (hspill : spill < 256 ^ 6) :
    Ends (b.erase true i) (fun b' => b'.Shows blockSize (es.eraseIdx i) spill) (fun _ => False) := by
  obtain ⟨post, hp⟩ := h.blob
  have hsplit : es = es.take i ++ (es[i] :: es.drop (i + 1)) := by simp
  have herase : es.eraseIdx i = es.take i ++ es.drop (i + 1) := List.eraseIdx_eq_take_drop_succ es i
  have hlenL : (es.take i).length = i := by rw [List.length_take, min_eq_left hi.le]
  have hlenR : (es.drop (i + 1)).length = es.length - 1 - i := by
    rw [List.length_drop]
    omega
  have hbytesL := Entry.length_flatMap_encode (es.take i)
  have hbytesR := Entry.length_flatMap_encode (es.drop (i + 1))
  rw [hlenL] at hbytesL
  rw [hlenR] at hbytesR
  have hcount : (es.eraseIdx i).length = es.length - 1 := List.length_eraseIdx_of_lt hi
  obtain ⟨head, hhead⟩ : ∃ head, head = toBytes 2 es.length ++ toBytes 6 spill := ⟨_, rfl⟩
  have hheadLen : head.length = 8 := by rw [hhead]; simp
  have hblob : b.p = (head ++ (es.take i).flatMap Entry.encode) ++
      (es[i].encode ++ ((es.drop (i + 1)).flatMap Entry.encode ++ post)) := by
    rw [hp, encode, ← hhead]
    conv_lhs => rw [hsplit]
    simp only [List.flatMap_append, List.flatMap_cons, List.append_assoc]
  have hfront : (head ++ (es.take i).flatMap Entry.encode).length = 8 + i * entrySize := by
    rw [List.length_append, hheadLen, hbytesL]
  -- The last place is free once the later entries have moved down.
  have hshift : ∃ last : Bytes, last.length = entrySize ∧
      (if i < es.length - 1 then splice b.p (8 + i * entrySize) (slice b.p (8 + (i + 1) * entrySize)
          ((es.length - 1 - i) * entrySize)) else b.p) =
        (head ++ (es.eraseIdx i).flatMap Entry.encode) ++ (last ++ post) := by
    rw [herase, List.flatMap_append]
    by_cases hlast : i < es.length - 1
    · rw [if_pos hlast]
      have hmoved : slice b.p (8 + (i + 1) * entrySize) ((es.length - 1 - i) * entrySize) =
          (es.drop (i + 1)).flatMap Entry.encode := by
        rw [hblob, ← List.append_assoc]
        apply slice_middle _ hbytesR
        rw [List.length_append, hfront, Entry.length_encode]
        ring
      refine ⟨(es[i].encode ++ (es.drop (i + 1)).flatMap Entry.encode).drop
        ((es.length - 1 - i) * entrySize), ?_, ?_⟩
      · rw [List.length_drop, List.length_append, Entry.length_encode, hbytesR]
        omega
      · rw [hmoved]
        have hcut : es[i].encode ++ ((es.drop (i + 1)).flatMap Entry.encode ++ post) =
            (es[i].encode ++ (es.drop (i + 1)).flatMap Entry.encode).take
                ((es.length - 1 - i) * entrySize) ++
              ((es[i].encode ++ (es.drop (i + 1)).flatMap Entry.encode).drop
                ((es.length - 1 - i) * entrySize) ++ post) := by
          rw [← List.append_assoc, ← List.append_assoc, List.take_append_drop]
        rw [hblob, hcut, splice_middle hfront]
        · simp only [List.append_assoc]
        · rw [List.length_take, List.length_append, Entry.length_encode, hbytesR]
          omega
    · rw [if_neg hlast]
      refine ⟨es[i].encode, Entry.length_encode _, ?_⟩
      have hnil : es.drop (i + 1) = [] := List.drop_of_length_le (by omega)
      rw [hblob, hnil]
      simp
  obtain ⟨last, hlastLen, hshift⟩ := hshift
  unfold Bucket.erase
  simp only [h.count]
  rw [hshift]
  have hzero : splice ((head ++ (es.eraseIdx i).flatMap Entry.encode) ++ (last ++ post))
      (8 + (es.length - 1) * entrySize) (List.replicate entrySize 0) =
      head ++ ((es.eraseIdx i).flatMap Entry.encode ++ (List.replicate entrySize 0 ++ post)) := by
    rw [splice_middle, List.append_assoc]
    · rw [List.length_append, hheadLen, Entry.length_flatMap_encode, hcount]
    · rw [hlastLen, List.length_replicate]
  have hupdate := update_ends true (b := { b with
      size := es.length - 1
      p := splice ((head ++ (es.eraseIdx i).flatMap Entry.encode) ++ (last ++ post))
        (8 + (es.length - 1) * entrySize) (List.replicate entrySize 0) })
    hheadLen hzero (show es.length - 1 < 256 ^ 2 by omega)
  unfold update at hupdate ⊢
  rw [writeField_of_lt (show es.length - 1 < 256 ^ 2 by omega),
    writeField_of_lt (show b.spill < 256 ^ 6 by rw [h.points]; exact hspill)] at hupdate ⊢
  obtain ⟨heq, -⟩ := hupdate
  show Shows _ _ _ _
  rw [heq]
  refine ⟨h.block, hcount.symm, h.points, List.replicate entrySize 0 ++ post, ?_⟩
  show (toBytes 2 (es.length - 1) ++ toBytes 6 b.spill) ++ _ = _
  rw [h.points, ← hcount]
  simp only [encode, List.append_assoc]

end Bucket

end Metcalfe.Nudb
