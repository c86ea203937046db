import Metcalfe.Nudb.DiskBucket
import Metcalfe.Nudb.Items

/-!
# Splitting a bucket

When the table grows by a bucket, the entries of one bucket are shared out between that bucket
and the new one (`basic_store::split`). The entries of the bucket itself are moved in memory; then
its spill records are read one after another, and each of their entries is placed in one of the
two buckets, which may spill again. No entry is lost, and each is in the bucket of its hash
(`split_leads`).
-/

namespace Metcalfe.Nudb

open BigEndian Durable Stateful Outcome

theorem Chain.rooted_place {cap : Nat} (hcap : 0 < cap) (c : Chain cap) (e : Entry) :
    (c.place hcap e).Rooted := by
  intro h
  have hlen := List.orderedInsert_length Entry.before c.makeRoom.top e
  have htop : c.makeRoom.top.orderedInsert Entry.before e = [] := h
  rw [htop] at hlen
  simp at hlen

theorem sorted_single {es : List Entry} (hes : es.Pairwise Entry.before) :
    ∀ l ∈ [es], l.Pairwise Entry.before := by
  intro l hl
  rwa [List.mem_singleton.mp hl]

theorem full_nil (cap : Nat) : ∀ l ∈ ([] : List (List Entry)), l.length = cap := by
  intro l hl
  cases hl

/-- A chain without spill records. -/
def Chain.single {cap : Nat} (es : List Entry) (hes : es.Pairwise Entry.before)
    (hlen : es.length ≤ cap) : Chain cap where
  top := es
  spilled := []
  sorted := sorted_single hes
  top_le := hlen
  full := full_nil cap

theorem Chain.single_entries {cap : Nat} {es : List Entry} (hes : es.Pairwise Entry.before)
    (hlen : es.length ≤ cap) : (Chain.single es hes hlen).entries = es := by
  simp [Chain.entries, Chain.buckets, Chain.single]

/-- The data file after spill records were appended to it. The pointers to them fit, and so its
size is bounded. -/
def Spilled (cap : Nat) (dat dat' : Bytes) : Prop :=
  ∃ spills, Spills cap spills ∧ dat' = dat ++ spills.flatMap Item.bytes ∧
    (spills = [] ∨ dat'.length < 2 ^ 49)

theorem Spilled.refl (cap : Nat) (dat : Bytes) : Spilled cap dat dat :=
  ⟨[], by simp [Spills], by simp, .inl rfl⟩

theorem Spilled.trans {cap : Nat} {dat dat' dat'' : Bytes} (h : Spilled cap dat dat')
    (h' : Spilled cap dat' dat'') : Spilled cap dat dat'' := by
  obtain ⟨spills, hs, rfl, hsize⟩ := h
  obtain ⟨spills', hs', rfl, hsize'⟩ := h'
  refine ⟨spills ++ spills', ?_, ?_, ?_⟩
  · intro item hitem
    rcases List.mem_append.mp hitem with hitem | hitem
    · exact hs item hitem
    · exact hs' item hitem
  · rw [List.flatMap_append, List.append_assoc]
  · rcases hsize' with rfl | hsize'
    · simpa using hsize
    · exact .inr hsize'

theorem Spilled.isPrefix {cap : Nat} {dat dat' : Bytes} (h : Spilled cap dat dat') :
    dat <+: dat' := by
  obtain ⟨spills, -, rfl, -⟩ := h
  exact List.prefix_append _ _

/-- The data file has grown, and the others are as before. -/
def Grown (fs₀ : Files) (base : Bytes) (fs : Files) : Prop := ∃ dat, Growing .dat fs₀ base dat fs

namespace Disk

/-- A full bucket is appended to the data file and cleared. -/
def maybeSpill (b : Bucket) (w : Writer) : Act (Bucket × Writer) :=
  if b.full = true then do
    let offset := w.position
    let w ← w.prepare .dat (6 + 2 + b.actualSize)
    let zero ← lift .stop (writeField true 6 0)
    let size ← lift .stop (writeField true 2 b.actualSize)
    let spill := offset + (zero ++ size).length
    let w := w.put ((zero ++ size) ++ b.write)
    let b ← lift .stop (b.clear.setSpill true spill)
    pure (b, w)
  else
    pure (b, w)

/-- Makes room in a bucket and inserts an entry. -/
def place (b : Bucket) (w : Writer) (e : Entry) : Act (Bucket × Writer) := do
  let (b, w) ← maybeSpill b w
  let b ← lift .stop (b.insert true e.offset e.size e.hash)
  pure (b, w)

/-- The entries of the bucket itself, from position `i` on. -/
def splitTop (n1 n2 buckets modulus : Nat) :
    Nat → Nat → Bucket → Bucket → Except Stop (Bucket × Bucket)
  | 0, i, b1, b2 => if i < b1.size then .error .unfinished else .ok (b1, b2)
  | fuel + 1, i, b1, b2 =>
    if i < b1.size then do
      let e := b1.at_ i
      let n := bucketIndex e.hash buckets modulus
      if n ≠ n1 ∧ n ≠ n2 then throw .assertion
      if n = n2 then
        let b2 ← b2.insert true e.offset e.size e.hash
        let b1 ← b1.erase true i
        splitTop n1 n2 buckets modulus fuel i b1 b2
      else splitTop n1 n2 buckets modulus fuel (i + 1) b1 b2
    else .ok (b1, b2)

/-- The entry at position `i` of a spill record. -/
def splitEntry (n1 n2 buckets modulus : Nat) (tmp : Bucket) (x : Bucket × Bucket × Writer)
    (i : Nat) : Act (Bucket × Bucket × Writer) := do
  let (b1, b2, w) := x
  let e := tmp.at_ i
  let n := bucketIndex e.hash buckets modulus
  if n ≠ n1 ∧ n ≠ n2 then throw (.stop .assertion)
  if n = n2 then
    let (b2, w) ← place b2 w e
    pure (b1, b2, w)
  else
    let (b1, w) ← place b1 w e
    pure (b1, b2, w)

/-- The entries of one spill record, and the pointer to the next. -/
def splitRecord (blockSize n1 n2 buckets modulus spill : Nat) (x : Bucket × Bucket × Writer) :
    Act (Nat × Bucket × Bucket × Writer) := do
  let (b1, b2, w) := x
  -- A record that is in the write buffer is flushed first.
  let w ← (if spill + bucketSize (bucketCapacity blockSize) > w.position - w.pending.length then
    w.flush .dat else pure w)
  let tmp ← readBucket blockSize .dat spill
  let x ← (List.range tmp.size).foldlM (splitEntry n1 n2 buckets modulus tmp) (b1, b2, w)
  pure (tmp.spill, x)

/-- The spill records, from the one at `spill` on; there are no more of them than the data file
has bytes. -/
def splitSpills (blockSize n1 n2 buckets modulus : Nat) :
    Nat → Nat → Bucket × Bucket × Writer → Act (Bucket × Bucket × Writer)
  | 0, _, _ => throw (.stop .unfinished)
  | fuel + 1, spill, x => do
    let (spill, x) ← splitRecord blockSize n1 n2 buckets modulus spill x
    if spill = 0 then pure x
    else splitSpills blockSize n1 n2 buckets modulus fuel spill x

/-- Splits the bucket in `b1` to `b2`. -/
def split (blockSize : Nat) (b1 b2 : Bucket) (n1 n2 buckets modulus : Nat) (w : Writer) :
    Act (Bucket × Bucket × Writer) := do
  -- Trivial case: split empty bucket
  if b1.size = 0 then return (b1, b2, w)
  let (b1, b2) ← lift .stop (splitTop n1 n2 buckets modulus b1.size 0 b1 b2)
  let spill := b1.spill
  if spill = 0 then return (b1, b2, w)
  let b1 ← lift .stop (b1.setSpill true 0)
  splitSpills blockSize n1 n2 buckets modulus w.position spill (b1, b2, w)

section Placing

variable {blockSize : Nat} {w : Writer} {fs₀ : Files} {base dat : Bytes} {d : Disk} {b : Bucket}
  {c : Chain (bucketCapacity blockSize)}

/-- An assertion that fails leaves the files alone. -/
theorem leads_asserted {α : Type} {x : Except Stop α} {R : α → Prop}
    (hw : w.On .dat fs₀ base dat d.files) (hx : Ends x R (· = .assertion)) :
    Leads (lift Halt.stop x) d (fun a d' => R a ∧ d' = d) (fun _ d' => Grown fs₀ base d'.files) :=
  leads_lift hx (fun _ h => ⟨h, rfl⟩) fun _ _ => ⟨dat, hw.growing⟩

theorem maybeSpill_leads (hblock : blockSize < 2 ^ 16) (hcap : 0 < bucketCapacity blockSize)
    (hw : w.On .dat fs₀ base dat d.files) (hb : Carries blockSize dat c b) :
    Leads (maybeSpill b w) d
      (fun x d' => ∃ dat', Spilled (bucketCapacity blockSize) dat dat' ∧
        x.2.On .dat fs₀ base dat' d'.files ∧ Carries blockSize dat' c.makeRoom x.1)
      (fun _ d' => Grown fs₀ base d'.files) := by
  obtain ⟨s, hshow, hs⟩ := hb
  unfold maybeSpill
  by_cases hfull : c.top.length < bucketCapacity blockSize
  · have hroom : c.makeRoom = c := dif_pos hfull
    have hnot : b.full ≠ true := by
      simpa [Bucket.full, hshow.count, hshow.block] using hfull
    rw [if_neg hnot, hroom]
    exact leads_pure ⟨dat, Spilled.refl _ dat, hw, s, hshow, hs⟩
  · have hlen : c.top.length = bucketCapacity blockSize := le_antisymm c.top_le (not_lt.mp hfull)
    have hroom := c.makeRoom_of_full hfull
    have hyes : b.full = true := by
      simpa [Bucket.full, hshow.count, hshow.block] using not_lt.mp hfull
    have hsize : bucketSize c.top.length < 256 ^ 2 := by
      have := bucketSize_le_of_le hcap c.top_le
      omega
    rw [if_pos hyes]
    dsimp only
    refine ((Writer.prepare_leads hw _).mono (fun _ _ h => h) fun _ _ h => ⟨dat, h⟩).bind
      fun w' d' hw' => ?_
    rw [hshow.actualSize, writeField_of_lt (show (0 : Nat) < 256 ^ 6 by omega),
      writeField_of_lt hsize]
    simp only [lift_ok_bind]
    have hblockSize : bucketSize 0 ≤ b.blockSize := by
      rw [hshow.block]
      exact bucketSize_le_of_le hcap (Nat.zero_le _)
    have hput := hw'.put ((toBytes 6 0 ++ toBytes 2 (bucketSize c.top.length)) ++ b.write)
    refine (leads_asserted hput (Bucket.clear_setSpill_ends b hblockSize _)).bind
      fun b' d'' hb' => ?_
    obtain ⟨⟨hclear, hfits⟩, rfl⟩ := hb'
    rw [hw.position, List.length_append, length_toBytes, length_toBytes] at hclear hfits
    rw [hshow.block] at hclear
    rw [hshow.write] at hput ⊢
    have hbytes : (Item.spill c.top s).bytes.length = 8 + bucketSize c.top.length := by
      simp only [Item.bytes, List.length_append, length_toBytes, length_encode]
    refine leads_pure ⟨_, ⟨[.spill c.top s], by simpa [Spills] using hlen, rfl, .inr ?_⟩, ?_,
      dat.length + 8, ?_, ?_⟩
    · rw [List.flatMap_singleton, List.length_append, hbytes]
      omega
    · simpa [Item.bytes] using hput
    · rw [hroom.1]
      exact hclear
    · rw [hroom.2]
      have hmark : (toBytes 6 0 ++ toBytes 2 (bucketSize c.top.length)).length = 8 := by simp
      have happend : SpillAt true (dat ++ ((toBytes 6 0 ++ toBytes 2 (bucketSize c.top.length)) ++
          encode c.top s)) (dat.length + 8) (c.top :: c.spilled) :=
        hs.append hmark fun _ => hfits
      simpa [Item.bytes] using happend

theorem place_leads (hblock : blockSize < 2 ^ 16) (hcap : 0 < bucketCapacity blockSize)
    (hw : w.On .dat fs₀ base dat d.files) (hb : Carries blockSize dat c b)
    (hc : ∀ x ∈ c.entries, x.Valid) (e : Entry) :
    Leads (place b w e) d
      (fun x d' => ∃ dat', Spilled (bucketCapacity blockSize) dat dat' ∧
        x.2.On .dat fs₀ base dat' d'.files ∧ Carries blockSize dat' (c.place hcap e) x.1 ∧
        e.offset < 256 ^ 6)
      (fun _ d' => Grown fs₀ base d'.files) := by
  unfold place
  refine (maybeSpill_leads hblock hcap hw hb).bind fun x d' hx => ?_
  obtain ⟨dat', hspilled, hw', s, hshow, hs⟩ := hx
  have hroom := c.makeRoom_lt hcap
  have hlen : c.makeRoom.top.length + 1 < 256 ^ 2 := by
    have := bucketSize_le_of_le hcap (show c.makeRoom.top.length + 1 ≤ _ from hroom)
    unfold bucketSize entrySize at this
    omega
  have hhash : ∀ x ∈ c.makeRoom.top, x.hash < 256 ^ 6 := by
    intro x hx
    apply (hc x _).hash
    rw [← c.makeRoom_entries]
    exact List.mem_append_left _ hx
  refine (leads_asserted hw' (hshow.insert hlen (c.makeRoom.sorted _ List.mem_cons_self) hhash
    e)).bind fun b' d'' hb' => ?_
  obtain ⟨⟨hinsert, hfits⟩, rfl⟩ := hb'
  exact leads_pure ⟨dat', hspilled, hw', ⟨s, hinsert, hs⟩, hfits⟩

end Placing

/-! ## The entries of the two buckets -/

section Sharing

variable {blockSize n1 n2 buckets modulus : Nat}

/-- The entry goes to the second bucket. -/
def goes (n2 buckets modulus : Nat) (e : Entry) : Bool :=
  decide (bucketIndex e.hash buckets modulus = n2)

/-- The entry goes to one of the two buckets. -/
def OneOf (n1 n2 buckets modulus : Nat) (e : Entry) : Prop :=
  bucketIndex e.hash buckets modulus = n1 ∨ bucketIndex e.hash buckets modulus = n2

theorem splitTop_ends (hblock : blockSize < 2 ^ 16) (hcap : 0 < bucketCapacity blockSize)
    {b1 b2 : Bucket} {l r es : List Entry} {s : Nat} (h1 : b1.Shows blockSize (l ++ r) s)
    (h2 : b2.Shows blockSize es 0) (hs : s < 256 ^ 6) (hes : es.Pairwise Entry.before)
    (hlen : (l ++ r).length + es.length ≤ bucketCapacity blockSize)
    (hvalid : ∀ e ∈ r ++ es, e.Valid) (hone : ∀ e ∈ r, OneOf n1 n2 buckets modulus e) :
    Ends (splitTop n1 n2 buckets modulus r.length l.length b1 b2)
      (fun x => x.1.Shows blockSize (l ++ r.filter fun e => !goes n2 buckets modulus e) s ∧
        ∃ es', x.2.Shows blockSize es' 0 ∧ es'.Pairwise Entry.before ∧
          es'.Perm (r.filter (goes n2 buckets modulus) ++ es))
      (· = .assertion) := by
  induction r generalizing l b1 b2 es with
  | nil =>
    rw [List.append_nil] at h1
    have hend : ¬ l.length < b1.size := by
      rw [h1.count]
      omega
    rw [List.length_nil, splitTop, if_neg hend]
    exact ⟨by simpa using h1, es, h2, hes, by simp⟩
  | cons e r ih =>
    have hsmall : (l ++ e :: r).length + es.length < 256 ^ 2 := by
      have := bucketSize_le_of_le hcap hlen
      unfold bucketSize entrySize at this
      omega
    rw [List.length_append, List.length_cons] at hlen hsmall
    have hi : l.length < b1.size := by
      rw [h1.count, List.length_append, List.length_cons]
      omega
    have hi' : l.length < (l ++ e :: r).length := by
      rw [List.length_append, List.length_cons]
      omega
    have hget : (l ++ e :: r)[l.length] = e := by simp
    have hat : b1.at_ l.length = e := by
      rw [h1.at hi' (by rw [hget]; exact hvalid e (by simp)), hget]
    have hfits := hone e List.mem_cons_self
    rw [List.length_cons, splitTop, if_pos hi]
    simp only [hat]
    rw [if_neg (by rintro ⟨ha, hb⟩; exact hfits.elim ha hb)]
    by_cases hn : bucketIndex e.hash buckets modulus = n2
    · have hgoes : goes n2 buckets modulus e = true := by simp [goes, hn]
      simp only [hn, if_true]
      refine (h2.insert (by omega) hes
        (fun x hx => (hvalid x (List.mem_append_right _ hx)).hash) e).bind fun b2' hb2' => ?_
      refine ((h1.erase (by simp only [List.length_append, List.length_cons]; omega) hi' hs).mono
        (fun _ h => h) fun _ h => h.elim).bind fun b1' hb1' => ?_
      have herase : (l ++ e :: r).eraseIdx l.length = l ++ r := by
        rw [List.eraseIdx_append_of_length_le le_rfl, Nat.sub_self]
        rfl
      rw [herase] at hb1'
      refine (ih hb1' hb2'.1 (hes.orderedInsert e _) ?_ ?_ ?_).mono ?_ fun _ h => h
      · rw [List.length_append, List.orderedInsert_length]
        omega
      · intro x hx
        apply hvalid
        rcases List.mem_append.mp hx with hx | hx
        · simp [hx]
        · rw [List.mem_orderedInsert] at hx
          rcases hx with rfl | hx
          · simp
          · simp [hx]
      · exact fun x hx => hone x (List.mem_cons_of_mem _ hx)
      · rintro x ⟨hx1, es', hx2, hsorted, hperm⟩
        refine ⟨by simpa [hgoes] using hx1, es', hx2, hsorted, ?_⟩
        rw [List.filter_cons_of_pos hgoes]
        calc es'.Perm (r.filter (goes n2 buckets modulus) ++ es.orderedInsert Entry.before e) :=
              hperm
          _ |>.Perm (r.filter (goes n2 buckets modulus) ++ e :: es) :=
              (List.perm_orderedInsert _ _ _).append_left _
          _ |>.Perm (e :: r.filter (goes n2 buckets modulus) ++ es) := List.perm_middle
    · have hstays : goes n2 buckets modulus e = false := by simp [goes, hn]
      simp only [hn, if_false]
      have happend : l ++ e :: r = (l ++ [e]) ++ r := by simp
      rw [happend] at h1
      have hnext := ih h1 h2 hes (by simp only [List.length_append, List.length_singleton]; omega)
        (fun x hx => hvalid x (by simpa using Or.inr (by simpa using hx)))
        fun x hx => hone x (List.mem_cons_of_mem _ hx)
      rw [List.length_append, List.length_singleton] at hnext
      refine hnext.mono ?_ fun _ h => h
      rintro x ⟨hx1, hx2⟩
      refine ⟨by simpa [hstays] using hx1, ?_⟩
      rwa [List.filter_cons_of_neg (by simp [hstays])]

/-- Two handles that have the entries `es` between them, each in its bucket. -/
def Shared (blockSize n2 buckets modulus : Nat) (dat : Bytes) (es : List Entry) (b1 b2 : Bucket) :
    Prop :=
  ∃ c1 c2 : Chain (bucketCapacity blockSize), Carries blockSize dat c1 b1 ∧
    Carries blockSize dat c2 b2 ∧ c1.Rooted ∧ c2.Rooted ∧
    c1.entries.Perm (es.filter fun e => !goes n2 buckets modulus e) ∧
    c2.entries.Perm (es.filter (goes n2 buckets modulus))

variable {dat : Bytes} {es : List Entry} {b1 b2 : Bucket} {w : Writer} {fs₀ : Files}
  {base : Bytes} {d : Disk}

theorem Shared.perm {es' : List Entry} (h : Shared blockSize n2 buckets modulus dat es b1 b2)
    (hperm : es.Perm es') : Shared blockSize n2 buckets modulus dat es' b1 b2 := by
  obtain ⟨c1, c2, h1, h2, hr1, hr2, hp1, hp2⟩ := h
  exact ⟨c1, c2, h1, h2, hr1, hr2, hp1.trans (hperm.filter _), hp2.trans (hperm.filter _)⟩

/-- What is known after a part of the work of a split. -/
def Splitting (blockSize n2 buckets modulus : Nat) (fs₀ : Files) (base dat : Bytes)
    (es : List Entry) (x : Bucket × Bucket × Writer) (d : Disk) : Prop :=
  ∃ dat', Spilled (bucketCapacity blockSize) dat dat' ∧ x.2.2.On .dat fs₀ base dat' d.files ∧
    Shared blockSize n2 buckets modulus dat' es x.1 x.2.1

theorem splitEntry_leads (hblock : blockSize < 2 ^ 16) (hcap : 0 < bucketCapacity blockSize)
    {x : Bucket × Bucket × Writer} {tmp : Bucket} {i : Nat}
    (hx : Splitting blockSize n2 buckets modulus fs₀ base dat es x d)
    (hes : ∀ e ∈ es, e.Valid) (hone : OneOf n1 n2 buckets modulus (tmp.at_ i)) :
    Leads (splitEntry n1 n2 buckets modulus tmp x i) d
      (Splitting blockSize n2 buckets modulus fs₀ base dat (tmp.at_ i :: es))
      (fun _ d' => Grown fs₀ base d'.files) := by
  obtain ⟨b1, b2, w⟩ := x
  obtain ⟨dat', hspilled, hw, c1, c2, h1, h2, hr1, hr2, hp1, hp2⟩ := hx
  have hvalid1 : ∀ e ∈ c1.entries, e.Valid :=
    fun e he => hes e (List.mem_of_mem_filter (hp1.mem_iff.mp he))
  have hvalid2 : ∀ e ∈ c2.entries, e.Valid :=
    fun e he => hes e (List.mem_of_mem_filter (hp2.mem_iff.mp he))
  unfold splitEntry
  dsimp only
  rw [if_neg (by rintro ⟨ha, hb⟩; exact hone.elim ha hb)]
  by_cases hn : bucketIndex (tmp.at_ i).hash buckets modulus = n2
  · have hgoes : goes n2 buckets modulus (tmp.at_ i) = true := by simp [goes, hn]
    rw [if_pos hn]
    refine (place_leads hblock hcap hw h2 hvalid2 (tmp.at_ i)).bind fun y d' hy => ?_
    obtain ⟨dat'', hspilled', hw', h2', -⟩ := hy
    refine leads_pure ⟨dat'', hspilled.trans hspilled', hw', c1, c2.place hcap (tmp.at_ i),
      h1.mono hspilled'.isPrefix, h2', hr1, c2.rooted_place hcap _, ?_, ?_⟩
    · rw [List.filter_cons_of_neg (by simp [hgoes])]
      exact hp1
    · rw [List.filter_cons_of_pos hgoes]
      exact (c2.place_entries hcap _).trans (hp2.cons _)
  · have hstays : goes n2 buckets modulus (tmp.at_ i) = false := by simp [goes, hn]
    rw [if_neg hn]
    refine (place_leads hblock hcap hw h1 hvalid1 (tmp.at_ i)).bind fun y d' hy => ?_
    obtain ⟨dat'', hspilled', hw', h1', -⟩ := hy
    refine leads_pure ⟨dat'', hspilled.trans hspilled', hw', c1.place hcap (tmp.at_ i), c2,
      h1', h2.mono hspilled'.isPrefix, c1.rooted_place hcap _, hr2, ?_, ?_⟩
    · rw [List.filter_cons_of_pos (by simp [hstays])]
      exact (c1.place_entries hcap _).trans (hp1.cons _)
    · rw [List.filter_cons_of_neg (by simp [hstays])]
      exact hp2

/-- The bytes before `n` are in the file once the buffer holds no part of them. -/
theorem flushed_leads {n : Nat} (hw : w.On .dat fs₀ base dat d.files) (hle : n ≤ dat.length) :
    Leads (if n > w.position - w.pending.length then w.flush .dat else pure w) d
      (fun w' d' => w'.On .dat fs₀ base dat d'.files ∧ n ≤ (d'.files.bytes .dat).length)
      (fun _ d' => Grown fs₀ base d'.files) := by
  by_cases hbuffer : n > w.position - w.pending.length
  · rw [if_pos hbuffer]
    refine (Writer.flush_leads hw).mono (fun w' d' h => ⟨h.1, ?_⟩) fun _ _ h => ⟨dat, h⟩
    rw [h.2]
    exact hle
  · rw [if_neg hbuffer]
    refine leads_pure ⟨hw, ?_⟩
    rw [← hw.offset]
    unfold Writer.position at hbuffer
    omega

/-- The entries of a record that was read are shared out, one after the other. -/
theorem splitEntries_leads (hblock : blockSize < 2 ^ 16) (hcap : 0 < bucketCapacity blockSize)
    {x : Bucket × Bucket × Writer} {tmp : Bucket} {rec : List Entry}
    (hx : Splitting blockSize n2 buckets modulus fs₀ base dat es x d)
    (hentries : (List.range tmp.size).map tmp.at_ = rec) (hes : ∀ e ∈ rec ++ es, e.Valid)
    (hone : ∀ e ∈ rec, OneOf n1 n2 buckets modulus e) :
    Leads ((List.range tmp.size).foldlM (splitEntry n1 n2 buckets modulus tmp) x) d
      (Splitting blockSize n2 buckets modulus fs₀ base dat (rec ++ es))
      (fun _ d' => Grown fs₀ base d'.files) := by
  subst hentries
  refine leads_foldlM (I := fun done => Splitting blockSize n2 buckets modulus fs₀ base dat
    (done.map tmp.at_ ++ es)) ?_ hx
  intro done i todo hrange y d₁ hy
  have hmem : ∀ j ∈ done ++ [i], tmp.at_ j ∈ (List.range tmp.size).map tmp.at_ := by
    intro j hj
    rw [hrange]
    apply List.mem_map_of_mem
    rcases List.mem_append.mp hj with hj | hj
    · exact List.mem_append_left _ hj
    · rw [List.mem_singleton.mp hj]
      simp
  refine (splitEntry_leads hblock hcap hy ?_ (hone _ (hmem i (by simp)))).mono
    (fun z d₂ hz => ?_) fun _ _ h => h
  · intro e he
    apply hes
    rcases List.mem_append.mp he with he | he
    · obtain ⟨j, hj, rfl⟩ := List.mem_map.mp he
      exact List.mem_append_left _ (hmem j (List.mem_append_left _ hj))
    · exact List.mem_append_right _ he
  · obtain ⟨dat', hspilled, hw, hshared⟩ := hz
    refine ⟨dat', hspilled, hw, hshared.perm ?_⟩
    rw [List.map_append, List.append_assoc]
    exact List.perm_middle.symm

/-- A record of the chain is read and its entries are shared out. -/
theorem splitRecord_leads (hblock : blockSize < 2 ^ 16) (hcap : 0 < bucketCapacity blockSize)
    {x : Bucket × Bucket × Writer} {spill : Nat} {rec : List Entry} {rest : List (List Entry)}
    (hx : Splitting blockSize n2 buckets modulus fs₀ base dat es x d)
    (hspill : SpillAt true dat spill (rec :: rest))
    (hfull : rec.length = bucketCapacity blockSize) (hes : ∀ e ∈ rec ++ es, e.Valid)
    (hone : ∀ e ∈ rec, OneOf n1 n2 buckets modulus e) :
    Leads (splitRecord blockSize n1 n2 buckets modulus spill x) d
      (fun y d' => SpillAt true dat y.1 rest ∧
        Splitting blockSize n2 buckets modulus fs₀ base dat (rec ++ es) y.2 d')
      (fun _ d' => Grown fs₀ base d'.files) := by
  obtain ⟨b1, b2, w⟩ := x
  obtain ⟨dat', hspilled, hw, hshared⟩ := hx
  obtain ⟨-, -, hle, next, hslice, hnext⟩ := hspill
  obtain ⟨t, ht⟩ := hspilled.isPrefix
  have hslice' : slice dat' spill (bucketSize rec.length) = encode rec next := by
    rw [← ht, slice_append_of_le hle, hslice]
  have hle' : spill + bucketSize rec.length ≤ dat'.length := by
    rw [← ht, List.length_append]
    omega
  rw [hfull] at hle' hslice'
  have hlt : next < 256 ^ 6 := Store.SpillAt.lt (.inl rfl) hnext
  unfold splitRecord
  refine (flushed_leads hw hle').bind fun w' d₁ hw' => ?_
  obtain ⟨hon, hin⟩ := hw'
  have hfile : slice (d₁.files.bytes .dat) spill (bucketSize (bucketCapacity blockSize)) =
      encode rec next ++ [] := by
    rw [List.append_nil, ← hslice', ← hon.contents, slice_append_of_le hin]
  refine ((readBucket_leads hblock hcap hin hfile hfull.le hlt).mono (fun _ _ h => h)
    fun _ d₂ h => ?_).bind fun tmp d₂ htmp => ?_
  · rw [h.2]
    exact ⟨dat', hon.growing⟩
  · obtain ⟨hshow, hfiles⟩ := htmp
    have hentries := hshow.entries fun e he => hes e (List.mem_append_left _ he)
    have hstart : Splitting blockSize n2 buckets modulus fs₀ base dat es (b1, b2, w') d₂ := by
      refine ⟨dat', hspilled, ?_, hshared⟩
      rw [hfiles]
      exact hon
    refine (splitEntries_leads hblock hcap hstart hentries hes hone).bind
      fun x' d₃ hx' => leads_pure ⟨?_, hx'⟩
    rw [hshow.points]
    exact hnext

theorem splitSpills_leads (hblock : blockSize < 2 ^ 16) (hcap : 0 < bucketCapacity blockSize)
    {x : Bucket × Bucket × Writer} {spill fuel : Nat} {rec : List Entry}
    {rest : List (List Entry)} (hx : Splitting blockSize n2 buckets modulus fs₀ base dat es x d)
    (hspill : SpillAt true dat spill (rec :: rest))
    (hfull : ∀ r ∈ rec :: rest, r.length = bucketCapacity blockSize)
    (hes : ∀ e ∈ (rec :: rest).flatten ++ es, e.Valid)
    (hone : ∀ e ∈ (rec :: rest).flatten, OneOf n1 n2 buckets modulus e)
    (hfuel : rest.length < fuel) :
    Leads (splitSpills blockSize n1 n2 buckets modulus fuel spill x) d
      (Splitting blockSize n2 buckets modulus fs₀ base dat ((rec :: rest).flatten ++ es))
      (fun _ d' => Grown fs₀ base d'.files) := by
  induction rest generalizing rec spill es x d fuel with
  | nil =>
    obtain ⟨fuel, rfl⟩ := Nat.exists_eq_succ_of_ne_zero (show fuel ≠ 0 by omega)
    rw [List.flatten_singleton] at hes hone ⊢
    unfold splitSpills
    refine (splitRecord_leads hblock hcap hx hspill (hfull rec List.mem_cons_self) hes hone).bind
      fun y d' hy => ?_
    have hend : y.1 = 0 := hy.1
    dsimp only
    rw [if_pos hend]
    exact leads_pure hy.2
  | cons rec' rest ih =>
    obtain ⟨fuel, rfl⟩ := Nat.exists_eq_succ_of_ne_zero (show fuel ≠ 0 by omega)
    rw [List.flatten_cons] at hes hone ⊢
    have hes' : ∀ e ∈ rec ++ es, e.Valid := by
      intro e he
      apply hes
      simp only [List.mem_append] at he ⊢
      tauto
    unfold splitSpills
    refine (splitRecord_leads hblock hcap hx hspill (hfull rec List.mem_cons_self) hes'
      fun e he => hone e (List.mem_append_left _ he)).bind fun y d' hy => ?_
    have hne : y.1 ≠ 0 := hy.1.1.ne'
    dsimp only
    rw [if_neg hne]
    refine (ih hy.2 hy.1 (fun r hr => hfull r (List.mem_cons_of_mem _ hr)) ?_
      (fun e he => hone e (List.mem_append_right _ he))
      (by rw [List.length_cons] at hfuel; omega)).mono ?_ fun _ _ h => h
    · intro e he
      apply hes
      simp only [List.mem_append] at he ⊢
      tauto
    · rintro z d₂ ⟨dat', hspilled, hw, hshared⟩
      refine ⟨dat', hspilled, hw, hshared.perm ?_⟩
      rw [← List.append_assoc]
      exact List.perm_append_comm.append_right es

/-- The entries of the bucket itself, shared out between what is left of it and the new one. -/
theorem shared_top {c : Chain (bucketCapacity blockSize)} {es2 : List Entry}
    (h1 : b1.Shows blockSize (c.top.filter fun e => !goes n2 buckets modulus e) 0)
    (h2 : b2.Shows blockSize es2 0) (hsorted : es2.Pairwise Entry.before)
    (hperm : es2.Perm (c.top.filter (goes n2 buckets modulus))) :
    Shared blockSize n2 buckets modulus dat c.top b1 b2 := by
  have hlen2 : es2.length ≤ bucketCapacity blockSize := by
    rw [hperm.length_eq]
    exact (List.length_filter_le _ _).trans c.top_le
  refine ⟨Chain.single (c.top.filter fun e => !goes n2 buckets modulus e)
    ((c.sorted _ List.mem_cons_self).filter _)
    ((List.length_filter_le _ _).trans c.top_le), Chain.single es2 hsorted hlen2,
    ⟨0, h1, rfl⟩, ⟨0, h2, rfl⟩, fun _ => rfl, fun _ => rfl, ?_, ?_⟩
  · rw [Chain.single_entries]
  · rw [Chain.single_entries]
    exact hperm

/-- The entries of a bucket that is split are in its bucket and in the new one, each in the bucket
of its hash. -/
theorem split_leads (hblock : blockSize < 2 ^ 16) (hcap : 0 < bucketCapacity blockSize)
    {c : Chain (bucketCapacity blockSize)} (hw : w.On .dat fs₀ base dat d.files)
    (h1 : Carries blockSize dat c b1) (h2 : b2.Shows blockSize [] 0) (hrooted : c.Rooted)
    (hvalid : ∀ e ∈ c.entries, e.Valid) (hone : ∀ e ∈ c.entries, OneOf n1 n2 buckets modulus e) :
    Leads (split blockSize b1 b2 n1 n2 buckets modulus w) d
      (Splitting blockSize n2 buckets modulus fs₀ base dat c.entries)
      (fun _ d' => Grown fs₀ base d'.files) := by
  have hspills := h1
  obtain ⟨s, hshow, hs⟩ := h1
  have hlt : s < 256 ^ 6 := Store.SpillAt.lt (.inl rfl) hs
  have hempty : Carries blockSize dat (Chain.empty _) b2 := ⟨0, h2, rfl⟩
  unfold split
  by_cases hzero : b1.size = 0
  · rw [if_pos hzero]
    have htop : c.top = [] := by
      rw [hshow.count] at hzero
      exact List.eq_nil_of_length_eq_zero hzero
    have hentries : c.entries = [] := by
      rw [Chain.entries, Chain.buckets, htop, hrooted htop]
      rfl
    refine leads_pure ⟨dat, Spilled.refl _ dat, hw, c, Chain.empty _, hspills, hempty, hrooted,
      fun _ => rfl, ?_, ?_⟩
    · rw [hentries]
      rfl
    · rw [hentries]
      rfl
  · rw [if_neg hzero]
    have htop : ∀ e ∈ c.top, e ∈ c.entries := fun e he => List.mem_append_left _ he
    have hsplit := splitTop_ends (l := []) hblock hcap hshow h2 hlt List.Pairwise.nil
      (by simpa using c.top_le) (by simpa using fun e he => hvalid e (htop e he))
      (show ∀ e ∈ c.top, OneOf n1 n2 buckets modulus e from fun e he => hone e (htop e he))
    rw [List.length_nil, ← hshow.count] at hsplit
    refine (leads_asserted hw hsplit).bind fun x d' hx => ?_
    obtain ⟨⟨hx1, es2, hx2, hsorted, hperm⟩, rfl⟩ := hx
    rw [List.nil_append] at hx1
    rw [List.append_nil] at hperm
    dsimp only
    rw [hx1.points]
    cases hchain : c.spilled with
    | nil =>
      rw [hchain] at hs
      have hnone : s = 0 := hs
      subst hnone
      rw [if_pos rfl]
      refine leads_pure ⟨dat, Spilled.refl _ dat, hw, (shared_top hx1 hx2 hsorted hperm).perm ?_⟩
      rw [Chain.entries, Chain.buckets, hchain, List.flatten_singleton]
    | cons rec rest =>
      rw [hchain] at hs
      rw [if_neg hs.1.ne']
      have hcount : (c.top.filter fun e => !goes n2 buckets modulus e).length < 256 ^ 2 :=
        (List.length_filter_le _ _).trans_lt (c.length_lt hblock hcap)
      refine (leads_asserted hw (hx1.setSpill hcount 0)).bind fun b1' d₂ hb1' => ?_
      obtain ⟨⟨hb1', -⟩, rfl⟩ := hb1'
      have hentries : c.entries = c.top ++ (rec :: rest).flatten := by
        rw [Chain.entries, Chain.buckets, hchain, List.flatten_cons]
      have hfuel := hs.length_le (hchain ▸ c.full)
      rw [List.length_cons, ← hw.position] at hfuel
      refine (splitSpills_leads hblock hcap ⟨dat, Spilled.refl _ dat, hw,
        shared_top hb1' hx2 hsorted hperm⟩ hs
        (hchain ▸ c.full) ?_ ?_ hfuel).mono ?_ fun _ _ h => h
      · intro e he
        apply hvalid
        rw [hentries]
        exact List.perm_append_comm.mem_iff.mp he
      · intro e he
        apply hone
        rw [hentries]
        exact List.mem_append_right _ he
      · rintro z d₂ ⟨dat', hspilled, hw', hdone⟩
        refine ⟨dat', hspilled, hw', hdone.perm ?_⟩
        rw [hentries]
        exact List.perm_append_comm

end Sharing

end Disk

end Metcalfe.Nudb
