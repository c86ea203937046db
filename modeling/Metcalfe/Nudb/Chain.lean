import Metcalfe.Nudb.BulkIo

/-!
# Buckets with their spill records

A full bucket is appended to the data file as a spill record and starts again empty, with a
pointer to that record; the records form a chain, newest first. `Chain` is what a bucket means
together with its records: lists of entries, each sorted by hash, of which all but the first
are full. `Holds` says that a blob and a data file represent a chain, and the two operations
that place a key, `maybe_spill` and `insert`, are the ones on chains (`makeRoom`, `insert`).

Offsets and spill pointers are stored in 48 bits. The representation does not need them to
fit; they are known to fit where the assertions are compiled in (`Fits`).
-/

namespace Metcalfe.Nudb

open BigEndian Outcome

structure Chain (cap : Nat) where
  top : List Entry
  spilled : List (List Entry)
  sorted : ∀ es ∈ top :: spilled, es.Pairwise Entry.before
  top_le : top.length ≤ cap
  full : ∀ es ∈ spilled, es.length = cap

namespace Chain

variable {cap : Nat}

@[ext]
theorem ext {c c' : Chain cap} (htop : c.top = c'.top) (hspilled : c.spilled = c'.spilled) :
    c = c' := by
  cases c
  cases c'
  simp_all

def empty (cap : Nat) : Chain cap where
  top := []
  spilled := []
  sorted := by simp
  top_le := Nat.zero_le cap
  full := by simp

/-- A full bucket goes to the spill records. -/
def makeRoom (c : Chain cap) : Chain cap :=
  if h : c.top.length < cap then c
  else
    { top := []
      spilled := c.top :: c.spilled
      sorted := by
        intro es hes
        rcases List.mem_cons.mp hes with rfl | hes
        · exact List.Pairwise.nil
        · exact c.sorted es hes
      top_le := Nat.zero_le cap
      full := by
        intro es hes
        rcases List.mem_cons.mp hes with rfl | hes
        · exact le_antisymm c.top_le (not_lt.mp h)
        · exact c.full es hes }

def insert (c : Chain cap) (e : Entry) (h : c.top.length < cap) : Chain cap where
  top := c.top.orderedInsert Entry.before e
  spilled := c.spilled
  sorted := by
    intro es hes
    rcases List.mem_cons.mp hes with rfl | hes
    · exact (c.sorted c.top List.mem_cons_self).orderedInsert e _
    · exact c.sorted es (List.mem_cons_of_mem _ hes)
  top_le := by
    rw [List.orderedInsert_length]
    exact h
  full := c.full

theorem makeRoom_lt (hcap : 0 < cap) (c : Chain cap) : c.makeRoom.top.length < cap := by
  unfold makeRoom
  split
  · assumption
  · exact hcap

/-- Places a key in the bucket. -/
def place (hcap : 0 < cap) (c : Chain cap) (e : Entry) : Chain cap :=
  c.makeRoom.insert e (c.makeRoom_lt hcap)

/-- The chain of the keys placed one after another. -/
def build (hcap : 0 < cap) (es : List Entry) : Chain cap := es.foldl (place hcap) (empty cap)

/-- The buckets of the chain, in the order of reading. -/
def buckets (c : Chain cap) : List (List Entry) := c.top :: c.spilled

def entries (c : Chain cap) : List Entry := c.buckets.flatten

theorem makeRoom_entries (c : Chain cap) : c.makeRoom.entries = c.entries := by
  unfold makeRoom
  split
  · rfl
  · simp [entries, buckets]

theorem place_entries (hcap : 0 < cap) (c : Chain cap) (e : Entry) :
    (c.place hcap e).entries.Perm (e :: c.entries) := by
  have hperm := List.perm_orderedInsert Entry.before e c.makeRoom.top
  rw [← c.makeRoom_entries]
  exact hperm.append_right _

theorem foldl_place_entries (hcap : 0 < cap) (es : List Entry) (c : Chain cap) :
    (es.foldl (place hcap) c).entries.Perm (es ++ c.entries) := by
  induction es generalizing c with
  | nil => exact List.Perm.refl _
  | cons e es ih =>
    rw [List.foldl_cons]
    calc (es.foldl (place hcap) (c.place hcap e)).entries
        |>.Perm (es ++ (c.place hcap e).entries) := ih _
      _ |>.Perm (es ++ e :: c.entries) := (c.place_entries hcap e).append_left es
      _ |>.Perm (e :: es ++ c.entries) := List.perm_middle

/-- Nothing is lost or added by placing. -/
theorem build_entries (hcap : 0 < cap) (es : List Entry) : (build hcap es).entries.Perm es := by
  have h := foldl_place_entries hcap es (empty cap)
  have hempty : (empty cap).entries = [] := rfl
  rwa [hempty, List.append_nil] at h

theorem build_snoc (hcap : 0 < cap) (es : List Entry) (e : Entry) :
    build hcap (es ++ [e]) = (build hcap es).place hcap e := by
  simp [build, List.foldl_append]

theorem makeRoom_of_full (c : Chain cap) (hfull : ¬ c.top.length < cap) :
    c.makeRoom.top = [] ∧ c.makeRoom.spilled = c.top :: c.spilled := by
  unfold makeRoom
  rw [dif_neg hfull]
  exact ⟨rfl, rfl⟩

end Chain

/-! ## Chains in files -/

/-- The spill records of a chain, from a pointer on. -/
def SpillAt (asserts : Bool) (dat : Bytes) : Nat → List (List Entry) → Prop
  | s, [] => s = 0
  | s, es :: rest => 0 < s ∧ Fits asserts s ∧ s + bucketSize es.length ≤ dat.length ∧
      ∃ next, slice dat s (bucketSize es.length) = encode es next ∧
        SpillAt asserts dat next rest

theorem SpillAt.mono {asserts : Bool} {dat dat' : Bytes} (hd : dat <+: dat') {s : Nat}
    {spilled : List (List Entry)} (h : SpillAt asserts dat s spilled) :
    SpillAt asserts dat' s spilled := by
  obtain ⟨t, rfl⟩ := hd
  induction spilled generalizing s with
  | nil => exact h
  | cons es rest ih =>
    obtain ⟨hpos, hfits, hle, next, hslice, hnext⟩ := h
    refine ⟨hpos, hfits, ?_, next, ?_, ih hnext⟩
    · rw [List.length_append]
      omega
    · rw [slice_append_of_le hle, hslice]

/-- A bucket written after the eight bytes that mark a spill record. -/
theorem SpillAt.append {asserts : Bool} {dat mark : Bytes} {s : Nat} {es : List Entry}
    {spilled : List (List Entry)} (h : SpillAt asserts dat s spilled) (hmark : mark.length = 8)
    (hfits : Fits asserts (dat.length + 8)) :
    SpillAt asserts (dat ++ (mark ++ encode es s)) (dat.length + 8) (es :: spilled) := by
  refine ⟨by omega, hfits, ?_, s, ?_, h.mono (List.prefix_append _ _)⟩
  · rw [List.length_append, List.length_append, length_encode, hmark]
    omega
  · have hcat : dat ++ (mark ++ encode es s) = (dat ++ mark) ++ (encode es s ++ []) := by
      simp
    rw [hcat, slice_middle (by rw [List.length_append, hmark]) (length_encode _ _)]

/-- A blob and a data file that represent a chain. -/
def Holds (asserts : Bool) (blockSize : Nat) (dat : Bytes) {cap : Nat} (c : Chain cap)
    (p : Bytes) : Prop :=
  ∃ s, p = blob blockSize c.top s ∧ SpillAt asserts dat s c.spilled

theorem Holds.mono {asserts : Bool} {blockSize cap : Nat} {dat dat' p : Bytes} {c : Chain cap}
    (hd : dat <+: dat') (h : Holds asserts blockSize dat c p) :
    Holds asserts blockSize dat' c p := by
  obtain ⟨s, hp, hs⟩ := h
  exact ⟨s, hp, hs.mono hd⟩

theorem holds_empty {asserts : Bool} {blockSize cap : Nat} {dat : Bytes}
    (h : bucketSize 0 ≤ blockSize) :
    Holds asserts blockSize dat (Chain.empty cap) (Bucket.empty blockSize).p :=
  ⟨0, Bucket.empty_p h, rfl⟩

/-- A spill record: the zero that tells it from a data record, its size, the bucket. -/
def spillSize (cap : Nat) : Nat := 6 + 2 + bucketSize cap

/-- A full bucket is appended to the data file and cleared. -/
def maybeSpill (asserts : Bool) (b : Bucket) (w : BulkWriter) :
    Except Stop (Bucket × BulkWriter) := do
  if b.full = true then
    let offset := w.position
    let w ← w.prepare (6 + 2 + b.actualSize)
    let zero ← writeField asserts 6 0
    let size ← writeField asserts 2 b.actualSize
    let spill := offset + (zero ++ size).length
    let w := w.put ((zero ++ size) ++ b.write)
    let b ← b.clear.setSpill asserts spill
    pure (b, w)
  else
    pure (b, w)

section Blocks

variable {asserts : Bool} {blockSize : Nat} {flushed dat p : Bytes} {w : BulkWriter} {faults : Faults}
  {c : Chain (bucketCapacity blockSize)}

/-- The failures of placing a key. -/
def PlaceFails (asserts : Bool) (faults : Faults) (s : Stop) : Prop :=
  Faulted faults s ∨ Asserted asserts s

theorem bucketSize_le_of_le {n : Nat} (hcap : 0 < bucketCapacity blockSize)
    (hn : n ≤ bucketCapacity blockSize) : bucketSize n ≤ blockSize := by
  have hle := bucketSize_capacity_le hcap
  have hmul := Nat.mul_le_mul_right entrySize hn
  unfold bucketSize at *
  omega

theorem Chain.length_lt (hblock : blockSize < 2 ^ 16) (hcap : 0 < bucketCapacity blockSize)
    (c : Chain (bucketCapacity blockSize)) : c.top.length < 256 ^ 2 := by
  have hle := bucketSize_le_of_le hcap c.top_le
  unfold bucketSize entrySize at hle
  omega

theorem Holds.length (hcap : 0 < bucketCapacity blockSize)
    (h : Holds asserts blockSize dat c p) : p.length = blockSize := by
  obtain ⟨s, rfl, -⟩ := h
  exact length_blob (bucketSize_le_of_le hcap c.top_le) s

/-- What `maybe_spill` leaves: a bucket with room, and the old one in the data file. -/
structure Roomy (asserts : Bool) (blockSize : Nat) (dat : Bytes)
    (c : Chain (bucketCapacity blockSize)) (b : Bucket) : Prop where
  count : b.size = c.top.length
  holds : ∃ s, toBytes 6 b.spill = toBytes 6 s ∧ b.p = blob blockSize c.top s ∧
    SpillAt asserts dat s c.spilled

theorem maybeSpill_ends (hblock : blockSize < 2 ^ 16) (hcap : 0 < bucketCapacity blockSize)
    (hw : w.At flushed dat faults) (hp : Holds asserts blockSize dat c p) :
    Ends (maybeSpill asserts (Bucket.ofBlob blockSize p) w)
      (fun x => ∃ tail, x.2.At flushed (dat ++ tail) faults ∧
        Roomy asserts blockSize (dat ++ tail) c.makeRoom x.1 ∧
        tail.length + c.spilled.length * spillSize (bucketCapacity blockSize) =
          c.makeRoom.spilled.length * spillSize (bucketCapacity blockSize))
      (PlaceFails asserts faults) := by
  obtain ⟨s, rfl, hs⟩ := hp
  have hlen := c.length_lt hblock hcap
  have hof : Bucket.ofBlob blockSize (blob blockSize c.top s) =
      ⟨blockSize, c.top.length, s % 256 ^ 6, blob blockSize c.top s⟩ := Bucket.ofBlob_encode hlen
  rw [hof]
  unfold maybeSpill
  by_cases hfull : c.top.length < bucketCapacity blockSize
  · have hroom : c.makeRoom = c := dif_pos hfull
    have hnot : Bucket.full ⟨blockSize, c.top.length, s % 256 ^ 6, blob blockSize c.top s⟩ ≠
        true := by
      simpa [Bucket.full] using hfull
    rw [if_neg hnot, hroom]
    exact ⟨[], by simpa using hw, ⟨rfl, s, toBytes_mod 6 s, rfl, by simpa using hs⟩, by simp⟩
  · have hcapLen : c.top.length = bucketCapacity blockSize := le_antisymm c.top_le (not_lt.mp hfull)
    have hroom := c.makeRoom_of_full hfull
    have hyes : Bucket.full ⟨blockSize, c.top.length, s % 256 ^ 6, blob blockSize c.top s⟩ =
        true := by
      simpa [Bucket.full] using not_lt.mp hfull
    have hsize : bucketSize c.top.length < 256 ^ 2 := by
      have := bucketSize_le_of_le hcap c.top_le
      omega
    rw [if_pos hyes]
    refine ((BulkWriter.prepare_ends hw _).mono (fun _ h => h) (fun _ h => .inl h)).bind
      fun w' hw' => ?_
    simp only [writeField_of_lt (show (0 : Nat) < 256 ^ 6 by decide), Bucket.actualSize,
      writeField_of_lt hsize]
    refine (Ends.mono (Bucket.setSpill_clear_ends asserts _ (bucketSize_le_of_le hcap (by omega))
      _) (fun _ h => h) (fun _ h => .inr h)).bind fun b hb => ?_
    obtain ⟨rfl, hfits⟩ := hb
    have hwrite : Bucket.write ⟨blockSize, c.top.length, s % 256 ^ 6, blob blockSize c.top s⟩ =
        encode c.top s := by
      unfold Bucket.write Bucket.actualSize blob
      rw [List.take_left' (length_encode c.top s)]
    rw [hwrite]
    generalize hmark : toBytes 6 0 ++ toBytes 2 (bucketSize c.top.length) = mark at hfits ⊢
    have hmarkLen : mark.length = 8 := by simp [← hmark]
    rw [hw.position, hmarkLen] at hfits ⊢
    refine ⟨mark ++ encode c.top s, hw'.put _, ⟨by rw [hroom.1]; rfl, dat.length + 8, rfl,
      by rw [hroom.1], ?_⟩, ?_⟩
    · rw [hroom.2]
      exact hs.append hmarkLen hfits
    · rw [hroom.2, List.length_append, hmarkLen, length_encode, hcapLen, List.length_cons,
        spillSize]
      ring

/-- Inserting into a bucket that has room. -/
theorem insert_roomy_ends {b : Bucket} (hblock : blockSize < 2 ^ 16)
    (hcap : 0 < bucketCapacity blockSize) (hlt : c.top.length < bucketCapacity blockSize)
    (hb : Roomy asserts blockSize dat c b) (hh : ∀ x ∈ c.top, x.hash < 256 ^ 6) (e : Entry) :
    Ends (b.insert asserts e.offset e.size e.hash)
      (fun b' => Holds asserts blockSize dat (c.insert e hlt) b'.p ∧ Fits asserts e.offset)
      (Asserted asserts) := by
  obtain ⟨s, hspill, hp, hs⟩ := hb.holds
  refine (Bucket.insert_ends asserts hp hb.count hspill (bucketSize_le_of_le hcap hlt) hblock
    (c.sorted c.top List.mem_cons_self) hh e).mono (fun b' hb' => ?_) (fun _ h => h)
  exact ⟨⟨s, hb'.1, hs⟩, hb'.2⟩

end Blocks

end Metcalfe.Nudb
