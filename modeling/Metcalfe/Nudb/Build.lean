import Metcalfe.Nudb.Create
import Metcalfe.Nudb.Split

/-!
# The new buckets of a commit

The part of `basic_store::commit` that appends the values of a pool to the data file and builds
the new buckets in memory. First the records of the values are appended. Then their entries are
placed one after another: now and then the table grows by one bucket first, and a bucket is split.
The buckets that change are in the cache `c1`, the blocks of the key file they were read from in
the cache `c0`. The key file is only read.

`Drafting` is the invariant of the loop: what a reader finds, with `c1` over the key file, has the
entries that were placed so far, and `c0` has the old block of every old bucket that is in `c1`
(`build_leads`).
-/

namespace Metcalfe.Nudb

open BigEndian Durable Stateful Outcome LinearHash

/-- The variables of the loop. -/
structure Draft where
  c0 : Cache
  c1 : Cache
  buckets : Nat
  modulus : Nat
  frac : Nat
  w : Writer

namespace Disk

def load (blockSize n : Nat) (c1 c0 : Cache) : Act (Bucket × Cache × Cache) :=
  match c1.find blockSize n with
  | some b => pure (b, c1, c0)
  | none =>
    match c0.find blockSize n with
    | some b =>
      let (b, c1) := c1.insert blockSize n b
      pure (b, c1, c0)
    | none => do
      let tmp ← readBucket blockSize .key ((n + 1) * blockSize)
      let (_, c0) := c0.insert blockSize n tmp
      let (b, c1) := c1.insert blockSize n tmp
      pure (b, c1, c0)

/-- Appends the record of a value, and notes where it is. -/
def appendValue (keySize : Nat) (x : List Entry × Writer) (v : Value) :
    Act (List Entry × Writer) := do
  let offset := x.2.position
  let w ← x.2.prepare .dat (6 + keySize + v.data.length)
  let size ← lift .stop (writeField true 6 v.data.length)
  pure (x.1 ++ [⟨offset, v.data.length, v.hash⟩], w.put (size ++ (v.key ++ v.data)))

/-- Adds a bucket when enough keys were inserted since the last one. -/
def grow (blockSize thresh : Nat) (x : Draft) : Act Draft :=
  let frac := x.frac + 65536
  if frac ≥ thresh then do
    let modulus := if x.buckets = x.modulus then x.modulus * 2 else x.modulus
    let n1 := x.buckets - modulus / 2
    let n2 := x.buckets
    let buckets := x.buckets + 1
    let (b1, c1, c0) ← load blockSize n1 x.c1 x.c0
    let (b2, c1) := c1.create blockSize n2
    let (b1, b2, w) ← split blockSize b1 b2 n1 n2 buckets modulus x.w
    pure ⟨c0, (c1.store n1 b1).store n2 b2, buckets, modulus, frac - thresh, w⟩
  else pure { x with frac := frac }

/-- Places an entry in the bucket of its hash. -/
def enter (blockSize : Nat) (x : Draft) (e : Entry) : Act Draft := do
  let n := bucketIndex e.hash x.buckets x.modulus
  let (b, c1, c0) ← load blockSize n x.c1 x.c0
  let (b, w) ← place b x.w e
  pure { x with c0 := c0, c1 := c1.store n b, w := w }

/-- Do inserts, splits, and build view of original and modified buckets. -/
def build (blockSize keySize thresh bufSize buckets modulus frac : Nat) (values : List Value) :
    Act Draft := do
  let size ← size .dat
  let (es, w) ← values.foldlM (appendValue keySize) ([], ⟨size, [], bufSize⟩)
  let x ← es.foldlM (fun x e => do enter blockSize (← grow blockSize thresh x) e)
    ⟨∅, ∅, buckets, modulus, frac, w⟩
  let w ← x.w.flush .dat
  pure { x with w := w }

end Disk

/-! ## Buckets that are read -/

section Views

variable {cfg : Config} {dat dat' key : Bytes} {c1 : Cache} {n : Nat} {es : List Entry}

theorem Carries.ofBlob {c : Chain cfg.capacity} {b : Bucket} (h : Carries cfg.blockSize dat c b) :
    Carries cfg.blockSize dat c (Bucket.ofBlob cfg.blockSize b.p) := by
  obtain ⟨s, hb, hs⟩ := h
  exact ⟨s, hb.ofBlob (c.length_lt cfg.blockSize_lt cfg.capacity_pos)
    (Store.SpillAt.lt (.inl rfl) hs), hs⟩

theorem Config.Found.mono {c : Chain cfg.capacity} (h : cfg.Found dat key c1 n c)
    (hd : dat <+: dat') : cfg.Found dat' key c1 n c := by
  unfold Config.Found at h ⊢
  cases hlookup : c1.lookup n with
  | some p =>
    rw [hlookup] at h
    exact h.mono hd
  | none =>
    rw [hlookup] at h
    exact h.mono hd

theorem Config.Has.mono (h : cfg.Has dat key c1 n es) (hd : dat <+: dat') :
    cfg.Has dat' key c1 n es := by
  obtain ⟨c, hfound, hrooted, hperm⟩ := h
  exact ⟨c, hfound.mono hd, hrooted, hperm⟩

/-- Only the cache's own bucket counts. -/
theorem Config.Has.congr {c1' : Cache} (h : cfg.Has dat key c1 n es)
    (hc : c1'.lookup n = c1.lookup n) : cfg.Has dat key c1' n es := by
  unfold Config.Has Config.Found at h ⊢
  rwa [hc]

/-- A bucket that was changed in place. -/
theorem has_store {c : Chain cfg.capacity} {b : Bucket} (h : Carries cfg.blockSize dat c b)
    (hrooted : c.Rooted) (hperm : c.entries.Perm es) : cfg.Has dat key (c1.store n b) n es := by
  refine ⟨c, ?_, hrooted, hperm⟩
  unfold Config.Found Cache.store
  rw [AList.lookup_insert]
  exact h.ofBlob

/-- The bytes of a block without its padding. -/
theorem blob_cut {blockSize offset s : Nat} {f : Bytes} (hcap : 0 < bucketCapacity blockSize)
    (hlen : es.length ≤ bucketCapacity blockSize)
    (h : slice f offset blockSize = blob blockSize es s) :
    ∃ post, slice f offset (bucketSize (bucketCapacity blockSize)) = encode es s ++ post := by
  have hfit := bucketSize_capacity_le hcap
  have hcut := congrArg (fun p => slice p 0 (bucketSize (bucketCapacity blockSize))) h
  simp only [slice_slice (show 0 + bucketSize (bucketCapacity blockSize) ≤ blockSize by omega),
    Nat.add_zero] at hcut
  have hmono : bucketSize es.length ≤ bucketSize (bucketCapacity blockSize) := by
    have := Nat.mul_le_mul_right entrySize hlen
    unfold bucketSize
    omega
  rw [hcut, slice, List.drop_zero, blob, List.take_append, length_encode,
    List.take_of_length_le (by rw [length_encode]; exact hmono)]
  exact ⟨_, rfl⟩

/-- A block of the key file that is read is what it is a blob of. -/
theorem readBlock_leads {d : Disk} (hkey : d.files.bytes .key = key)
    (hle : (n + 2) * cfg.blockSize ≤ key.length)
    (hblob : ∃ (c : Chain cfg.capacity) (s : Nat), s < 256 ^ 6 ∧
      slice key ((n + 1) * cfg.blockSize) cfg.blockSize = blob cfg.blockSize c.top s) :
    Leads (Disk.readBucket cfg.blockSize .key ((n + 1) * cfg.blockSize)) d
      (fun b d' => d'.files = d.files ∧ ∀ (c : Chain cfg.capacity) (s : Nat), s < 256 ^ 6 →
        slice key ((n + 1) * cfg.blockSize) cfg.blockSize = blob cfg.blockSize c.top s →
        b.Shows cfg.blockSize c.top s)
      (Disk.Kept d) := by
  have hend : (n + 1) * cfg.blockSize + cfg.blockSize ≤ key.length := by
    rw [← Nat.succ_mul]
    exact hle
  have hin : bucketSize cfg.capacity ≤ cfg.blockSize := bucketSize_capacity_le cfg.capacity_pos
  have hread := Disk.read_leads (show (n + 1) * cfg.blockSize + bucketSize cfg.capacity ≤
    (d.files.bytes .key).length by rw [hkey]; omega)
  rw [hkey] at hread
  unfold Disk.readBucket
  refine hread.bind fun p d' hp => ?_
  have hshow : ∀ (c : Chain cfg.capacity) (s : Nat), s < 256 ^ 6 →
      slice key ((n + 1) * cfg.blockSize) cfg.blockSize = blob cfg.blockSize c.top s →
      (Bucket.ofBlob cfg.blockSize p).Shows cfg.blockSize c.top s := by
    intro c s hs hc
    obtain ⟨post, hpost⟩ := blob_cut cfg.capacity_pos c.top_le hc
    exact Bucket.shows_ofBlob (hp.1.trans hpost) (c.length_lt cfg.blockSize_lt cfg.capacity_pos) hs
  obtain ⟨c, s, hs, hc⟩ := hblob
  dsimp only
  rw [if_neg (by rw [(hshow c s hs hc).count]; exact not_lt.mpr c.top_le)]
  exact leads_pure ⟨hp.2, hshow⟩

end Views

/-! ## The shares of the buckets when one is added -/

section Shares

variable {buckets modulus : Nat} (es : List Entry)

theorem share_grow_of_ne (h : Sized buckets modulus) {n : Nat} (hn : n < buckets)
    (hne : n ≠ splitFrom buckets modulus) :
    share (buckets + 1) (nextModulus buckets modulus) n es = share buckets modulus n es := by
  apply List.filter_congr
  intro e _
  rw [decide_eq_decide]
  rcases bucketIndex_grow h e.hash with ⟨hnew, hold⟩ | hsame
  · rw [hnew, hold]
    constructor
    · intro h
      omega
    · intro h
      exact absurd h.symm hne
  · rw [hsame]

theorem share_grow_stays (h : Sized buckets modulus) :
    share (buckets + 1) (nextModulus buckets modulus) (splitFrom buckets modulus) es =
      (share buckets modulus (splitFrom buckets modulus) es).filter fun e =>
        !Disk.goes buckets (buckets + 1) (nextModulus buckets modulus) e := by
  have hlt := splitFrom_lt h
  rw [share, share, List.filter_filter]
  apply List.filter_congr
  intro e _
  rw [Bool.eq_iff_iff]
  simp only [Disk.goes, Bool.and_eq_true, Bool.not_eq_true', decide_eq_true_eq,
    decide_eq_false_iff_not]
  rcases bucketIndex_grow h e.hash with ⟨hnew, hold⟩ | hsame
  · omega
  · rw [hsame]
    omega

theorem share_grow_goes (h : Sized buckets modulus) :
    share (buckets + 1) (nextModulus buckets modulus) buckets es =
      (share buckets modulus (splitFrom buckets modulus) es).filter
        (Disk.goes buckets (buckets + 1) (nextModulus buckets modulus)) := by
  rw [share, share, List.filter_filter]
  apply List.filter_congr
  intro e _
  have hlt : bucketIndex e.hash buckets modulus < buckets := index_lt h e.hash
  rw [Bool.eq_iff_iff]
  simp only [Disk.goes, Bool.and_eq_true, decide_eq_true_eq]
  rcases bucketIndex_grow h e.hash with ⟨hnew, hold⟩ | hsame
  · exact ⟨fun _ => ⟨hnew, hold⟩, fun _ => hnew⟩
  · rw [hsame]
    omega

end Shares

/-! ## The invariant of the loop -/

/-- The blob is that of bucket `n` of the key file. -/
def Config.Copied (cfg : Config) (dat key : Bytes) (n : Nat) (p : Bytes) : Prop :=
  ∃ (c : Chain cfg.capacity) (s : Nat),
    slice key ((n + 1) * cfg.blockSize) cfg.blockSize = blob cfg.blockSize c.top s ∧
    SpillAt true dat s c.spilled ∧ (Bucket.ofBlob cfg.blockSize p).Shows cfg.blockSize c.top s

/-- The caches over a key file of `buckets₀` buckets, whose data file was `dat₀`. -/
structure Drafted (cfg : Config) (dat₀ key : Bytes) (buckets₀ : Nat) (dat : Bytes)
    (placed : List Entry) (x : Draft) : Prop where
  view : View cfg dat key x.c1 x.buckets x.modulus placed
  le : buckets₀ ≤ x.buckets
  fresh : ∀ n ∈ x.c1, n < x.buckets
  added : ∀ n, buckets₀ ≤ n → n < x.buckets → n ∈ x.c1
  logged : ∀ n, n ∈ x.c0 ↔ n ∈ x.c1 ∧ n < buckets₀
  copied : ∀ n p, x.c0.lookup n = some p → cfg.Copied dat₀ key n p

/-- A key file of `buckets` buckets. -/
structure Blocks (cfg : Config) (dat key : Bytes) (buckets : Nat) : Prop where
  length : key.length = (buckets + 1) * cfg.blockSize
  blob : ∀ n < buckets, ∃ (c : Chain cfg.capacity) (s : Nat),
    slice key ((n + 1) * cfg.blockSize) cfg.blockSize = blob cfg.blockSize c.top s ∧
    SpillAt true dat s c.spilled

section Loop

variable {cfg : Config} {dat₀ key dat : Bytes} {buckets₀ : Nat} {placed : List Entry} {x : Draft}
  {d : Disk} {n : Nat}

/-- What `load` returns: a handle of bucket `n`, which is now in the cache. -/
structure Loaded (cfg : Config) (dat₀ key : Bytes) (buckets₀ : Nat) (dat : Bytes)
    (placed : List Entry) (x : Draft) (n : Nat) (y : Bucket × Cache × Cache) : Prop where
  drafted : Drafted cfg dat₀ key buckets₀ dat placed { x with c1 := y.2.1, c0 := y.2.2 }
  mem : n ∈ y.2.1
  carries : ∃ c : Chain cfg.capacity, Carries cfg.blockSize dat c y.1 ∧ c.Rooted ∧
    c.entries.Perm (share x.buckets x.modulus n placed)

theorem load_leads (hx : Drafted cfg dat₀ key buckets₀ dat placed x)
    (hblocks : Blocks cfg dat₀ key buckets₀) (hkey : d.files.bytes .key = key)
    (hn : n < x.buckets) :
    Leads (Disk.load cfg.blockSize n x.c1 x.c0) d
      (fun y d' => d'.files = d.files ∧ Loaded cfg dat₀ key buckets₀ dat placed x n y)
      (Disk.Kept d) := by
  obtain ⟨c, hfound, hrooted, hperm⟩ := hx.view.has n hn
  unfold Disk.load Cache.find
  cases hlookup : x.c1.lookup n with
  | some p =>
    unfold Config.Found at hfound
    rw [hlookup] at hfound
    exact leads_pure ⟨rfl, hx, AList.lookup_isSome.mp (by rw [hlookup]; rfl), c, hfound, hrooted,
      hperm⟩
  | none =>
    have hnot : n ∉ x.c1 := AList.lookup_eq_none.mp hlookup
    have hlt : n < buckets₀ := by
      by_contra hge
      exact hnot (hx.added n (not_lt.mp hge) hn)
    have hnot0 : n ∉ x.c0 := fun h => hnot ((hx.logged n).mp h).1
    rw [AList.lookup_eq_none.mpr hnot0]
    unfold Config.Found at hfound
    rw [hlookup] at hfound
    obtain ⟨s, hblob, hs⟩ := hfound
    obtain ⟨c', s', hblob', hs'⟩ := hblocks.blob n hlt
    have hle : (n + 2) * cfg.blockSize ≤ key.length := by
      rw [hblocks.length]
      exact Nat.mul_le_mul_right _ (by omega)
    refine (readBlock_leads hkey hle
      ⟨c, s, Store.SpillAt.lt (.inl rfl) hs, hblob⟩).bind fun tmp d' htmp => ?_
    obtain ⟨hfiles, hshow⟩ := htmp
    rw [Cache.insert_of_notMem hnot0, Cache.insert_of_notMem hnot]
    have hcopy : ∀ (c : Chain cfg.capacity) (s : Nat), s < 256 ^ 6 →
        slice key ((n + 1) * cfg.blockSize) cfg.blockSize = blob cfg.blockSize c.top s →
        (Bucket.ofBlob cfg.blockSize tmp.write).Shows cfg.blockSize c.top s :=
      fun c s hs hc => (hshow c s hs hc).ofBlob_write
        (c.length_lt cfg.blockSize_lt cfg.capacity_pos) hs
    have hcarries : Carries cfg.blockSize dat c (Bucket.ofBlob cfg.blockSize tmp.write) :=
      ⟨s, hcopy c s (Store.SpillAt.lt (.inl rfl) hs) hblob, hs⟩
    refine leads_pure ⟨hfiles, ?_, ?_, c, hcarries, hrooted, hperm⟩
    · refine ⟨⟨hx.view.sized, ?_, hx.view.valid⟩, hx.le, ?_, ?_, ?_, ?_⟩
      · intro m hm
        by_cases hmn : m = n
        · subst hmn
          refine ⟨c, ?_, hrooted, hperm⟩
          unfold Config.Found
          rw [AList.lookup_insert]
          exact hcarries
        · exact (hx.view.has m hm).congr (AList.lookup_insert_ne hmn)
      · intro m hm
        rcases (AList.mem_insert _).mp hm with rfl | hm
        · exact hn
        · exact hx.fresh m hm
      · intro m hge hlt'
        exact (AList.mem_insert _).mpr (.inr (hx.added m hge hlt'))
      · intro m
        simp only [AList.mem_insert, hx.logged m]
        constructor
        · rintro (rfl | h)
          · exact ⟨.inl rfl, hlt⟩
          · exact ⟨.inr h.1, h.2⟩
        · rintro ⟨rfl | h, hm⟩
          · exact .inl rfl
          · exact .inr ⟨h, hm⟩
      · intro m p hp
        by_cases hmn : m = n
        · subst hmn
          rw [AList.lookup_insert, Option.some.injEq] at hp
          subst hp
          exact ⟨c', s', hblob', hs', hcopy c' s' (Store.SpillAt.lt (.inl rfl) hs') hblob'⟩
        · rw [AList.lookup_insert_ne hmn] at hp
          exact hx.copied m p hp
    · exact (AList.mem_insert _).mpr (.inl rfl)

/-- The key sets are as before when a bucket of the cache is changed in place. -/
theorem Drafted.mem_store {c1 : Cache} {b : Bucket} (hn : n ∈ c1) (m : Nat) :
    m ∈ c1.store n b ↔ m ∈ c1 := by
  rw [Cache.store, AList.mem_insert]
  constructor
  · rintro (rfl | h)
    · exact hn
    · exact h
  · exact .inr

/-- The loop after the entries `placed`: spill records were appended to `dat`. -/
def Drafting (cfg : Config) (fs₀ : Files) (dat₀ key : Bytes) (buckets₀ : Nat) (dat : Bytes)
    (placed : List Entry) (x : Draft) (d : Disk) : Prop :=
  ∃ dat', Spilled cfg.capacity dat dat' ∧ x.w.On .dat fs₀ dat₀ dat' d.files ∧
    Drafted cfg dat₀ key buckets₀ dat' placed x

variable {fs₀ : Files}

theorem enter_leads (hx : Drafting cfg fs₀ dat₀ key buckets₀ dat placed x d)
    (hblocks : Blocks cfg dat₀ key buckets₀) (hkey : fs₀.bytes .key = key) {e : Entry}
    (hsize : e.size < 2 ^ 32) (hhash : e.hash < 256 ^ 6) :
    Leads (Disk.enter cfg.blockSize x e) d
      (fun x' d' => Drafting cfg fs₀ dat₀ key buckets₀ dat (e :: placed) x' d' ∧
        x'.buckets = x.buckets)
      (fun _ d' => Grown fs₀ dat₀ d'.files) := by
  obtain ⟨dat', hspilled, hw, hdrafted⟩ := hx
  have hkey' : d.files.bytes .key = key := by
    rw [hw.growing.bytes_of_ne (by simp), hkey]
  unfold Disk.enter
  dsimp only
  have hn : bucketIndex e.hash x.buckets x.modulus < x.buckets := index_lt hdrafted.view.sized e.hash
  generalize hbucket : bucketIndex e.hash x.buckets x.modulus = n at hn ⊢
  refine ((load_leads hdrafted hblocks hkey' hn).mono (fun _ _ h => h) fun _ d' h => ?_).bind
    fun y d' hy => ?_
  · rw [h.2]
    exact ⟨dat', hw.growing⟩
  · obtain ⟨hfiles, hloaded⟩ := hy
    obtain ⟨c, hcarries, hrooted, hperm⟩ := hloaded.carries
    have hvalid : ∀ e ∈ c.entries, e.Valid := by
      intro e he
      exact hdrafted.view.valid e (List.mem_of_mem_filter (hperm.mem_iff.mp he))
    rw [← hfiles] at hw
    refine (Disk.place_leads cfg.blockSize_lt cfg.capacity_pos hw hcarries hvalid e).bind
      fun z d'' hz => ?_
    obtain ⟨dat'', hspilled', hw', hplaced, hfits⟩ := hz
    have hkeep := hloaded.drafted
    have hmem := Drafted.mem_store (b := z.1) hloaded.mem
    refine leads_pure ⟨⟨dat'', hspilled.trans hspilled', hw', ⟨hkeep.view.sized, ?_, ?_⟩, hkeep.le,
      ?_, ?_, ?_, hkeep.copied⟩, rfl⟩
    · intro m hm
      by_cases hmn : m = n
      · subst hmn
        apply has_store hplaced (c.rooted_place _ e)
        rw [share, List.filter_cons_of_pos (by simpa using hbucket)]
        exact (c.place_entries _ e).trans (hperm.cons e)
      · rw [share, List.filter_cons_of_neg (by simp only [decide_eq_true_eq]; omega)]
        exact ((hkeep.view.has m hm).congr (AList.lookup_insert_ne hmn)).mono hspilled'.isPrefix
    · intro e' he'
      rcases List.mem_cons.mp he' with rfl | he'
      · exact ⟨hfits, hsize, hhash⟩
      · exact hdrafted.view.valid e' he'
    · exact fun m hm => hkeep.fresh m ((hmem m).mp hm)
    · exact fun m hge hlt => (hmem m).mpr (hkeep.added m hge hlt)
    · intro m
      rw [hmem m]
      exact hkeep.logged m

/-- The entries of the bucket that is split go to it or to the new one. -/
theorem oneOf_of_share (h : Sized x.buckets x.modulus) {e : Entry}
    (he : e ∈ share x.buckets x.modulus (splitFrom x.buckets x.modulus) placed) :
    Disk.OneOf (splitFrom x.buckets x.modulus) x.buckets (x.buckets + 1)
      (nextModulus x.buckets x.modulus) e := by
  have hold : bucketIndex e.hash x.buckets x.modulus = splitFrom x.buckets x.modulus := by
    simpa [share] using (List.mem_filter.mp he).2
  rcases bucketIndex_grow h e.hash with ⟨hnew, -⟩ | hsame
  · exact .inr hnew
  · exact .inl (hsame.trans hold)

/-- The two buckets, as they are after the split. -/
structure Halves (cfg : Config) (dat : Bytes) (placed : List Entry) (x : Draft) (b1 b2 : Bucket) :
    Prop where
  stays : ∃ c : Chain cfg.capacity, Carries cfg.blockSize dat c b1 ∧ c.Rooted ∧ c.entries.Perm
    (share (x.buckets + 1) (nextModulus x.buckets x.modulus) (splitFrom x.buckets x.modulus) placed)
  goes : ∃ c : Chain cfg.capacity, Carries cfg.blockSize dat c b2 ∧ c.Rooted ∧ c.entries.Perm
    (share (x.buckets + 1) (nextModulus x.buckets x.modulus) x.buckets placed)

/-- The draft with one bucket more. -/
theorem Loaded.grown {dat' : Bytes} {y : Bucket × Cache × Cache}
    (h : Loaded cfg dat₀ key buckets₀ dat placed x (splitFrom x.buckets x.modulus) y)
    (hle : buckets₀ ≤ x.buckets) (hsized : Sized x.buckets x.modulus) (hd : dat <+: dat')
    {b1 b2 : Bucket} (hhalves : Halves cfg dat' placed x b1 b2) (p : Bytes) (frac : Nat)
    (w : Writer) :
    Drafted cfg dat₀ key buckets₀ dat' placed ⟨y.2.2,
      Cache.store (Cache.store (AList.insert x.buckets p y.2.1) (splitFrom x.buckets x.modulus) b1)
        x.buckets b2,
      x.buckets + 1, nextModulus x.buckets x.modulus, frac, w⟩ := by
  obtain ⟨c1, hc1, hr1, hp1⟩ := hhalves.stays
  obtain ⟨c2, hc2, hr2, hp2⟩ := hhalves.goes
  have hkeep := h.drafted
  have hmem : ∀ m, m ∈ Cache.store (Cache.store (AList.insert x.buckets p y.2.1)
      (splitFrom x.buckets x.modulus) b1) x.buckets b2 ↔ m = x.buckets ∨ m ∈ y.2.1 := by
    intro m
    rw [Drafted.mem_store, Drafted.mem_store, AList.mem_insert]
    · exact (AList.mem_insert _).mpr (.inr h.mem)
    · rw [Drafted.mem_store]
      · exact (AList.mem_insert _).mpr (.inl rfl)
      · exact (AList.mem_insert _).mpr (.inr h.mem)
  refine ⟨⟨hsized.next, fun m hm => ?_, hkeep.view.valid⟩, hle.trans (Nat.le_succ _),
    fun m hm => ?_, fun m hge hm => ?_, fun m => ?_, hkeep.copied⟩
  · by_cases hm2 : m = x.buckets
    · subst hm2
      exact has_store hc2 hr2 hp2
    by_cases hm1 : m = splitFrom x.buckets x.modulus
    · subst hm1
      exact Config.Has.congr (has_store hc1 hr1 hp1) (AList.lookup_insert_ne hm2)
    · have hm' : m < x.buckets + 1 := hm
      have hold : m < x.buckets := by omega
      rw [share_grow_of_ne placed hsized hold hm1]
      refine ((hkeep.view.has m hold).congr ?_).mono hd
      unfold Cache.store
      rw [AList.lookup_insert_ne hm2, AList.lookup_insert_ne hm1, AList.lookup_insert_ne hm2]
  · show m < x.buckets + 1
    rcases (hmem m).mp hm with rfl | hm
    · exact Nat.lt_succ_self _
    · exact (hkeep.fresh m hm).trans (Nat.lt_succ_self _)
  · apply (hmem m).mpr
    by_cases hm2 : m = x.buckets
    · exact .inl hm2
    · have hm' : m < x.buckets + 1 := hm
      exact .inr (hkeep.added m hge (show m < x.buckets by omega))
  · rw [hmem m, hkeep.logged m]
    constructor
    · rintro ⟨h, hm⟩
      exact ⟨.inr h, hm⟩
    · rintro ⟨rfl | h, hm⟩
      · exact absurd hm (not_lt.mpr hle)
      · exact ⟨h, hm⟩

theorem grow_leads (hx : Drafting cfg fs₀ dat₀ key buckets₀ dat placed x d)
    (hblocks : Blocks cfg dat₀ key buckets₀) (hkey : fs₀.bytes .key = key) (thresh : Nat) :
    Leads (Disk.grow cfg.blockSize thresh x) d
      (fun x' d' => Drafting cfg fs₀ dat₀ key buckets₀ dat placed x' d' ∧
        x'.buckets ≤ x.buckets + 1)
      (fun _ d' => Grown fs₀ dat₀ d'.files) := by
  obtain ⟨dat', hspilled, hw, hdrafted⟩ := hx
  have hkey' : d.files.bytes .key = key := by
    rw [hw.growing.bytes_of_ne (by simp), hkey]
  have hsized := hdrafted.view.sized
  unfold Disk.grow
  dsimp only
  split
  · have hmodulus : (if x.buckets = x.modulus then x.modulus * 2 else x.modulus) =
        nextModulus x.buckets x.modulus := rfl
    have hfrom : x.buckets - nextModulus x.buckets x.modulus / 2 =
        splitFrom x.buckets x.modulus := rfl
    rw [hmodulus, hfrom]
    refine ((load_leads hdrafted hblocks hkey' (splitFrom_lt hsized)).mono (fun _ _ h => h)
      fun _ d' h => ?_).bind fun y d' hy => ?_
    · rw [h.2]
      exact ⟨dat', hw.growing⟩
    obtain ⟨hfiles, hloaded⟩ := hy
    obtain ⟨c, hcarries, hrooted, hperm⟩ := hloaded.carries
    have hshare : ∀ e ∈ c.entries,
        e ∈ share x.buckets x.modulus (splitFrom x.buckets x.modulus) placed :=
      fun e he => hperm.mem_iff.mp he
    have hnew : x.buckets ∉ y.2.1 := fun h => lt_irrefl _ (hloaded.drafted.fresh _ h)
    have hempty : (Bucket.empty cfg.blockSize).Shows cfg.blockSize [] 0 :=
      Bucket.shows_empty (bucketSize_le_of_le cfg.capacity_pos (Nat.zero_le _))
    rw [← hfiles] at hw
    rw [Cache.create_of_notMem hnew]
    refine (Disk.split_leads cfg.blockSize_lt cfg.capacity_pos hw hcarries hempty hrooted
      (fun e he => hdrafted.view.valid e (List.mem_of_mem_filter (hshare e he)))
      fun e he => oneOf_of_share hsized (hshare e he)).bind fun z d'' hz => ?_
    obtain ⟨dat'', hspilled', hw', c1, c2, hc1, hc2, hr1, hr2, hp1, hp2⟩ := hz
    have hhalves : Halves cfg dat'' placed x z.1 z.2.1 := by
      refine ⟨⟨c1, hc1, hr1, ?_⟩, ⟨c2, hc2, hr2, ?_⟩⟩
      · rw [share_grow_stays placed hsized]
        exact hp1.trans (hperm.filter _)
      · rw [share_grow_goes placed hsized]
        exact hp2.trans (hperm.filter _)
    exact leads_pure ⟨⟨dat'', hspilled.trans hspilled', hw', hloaded.grown hdrafted.le hsized
      hspilled'.isPrefix hhalves _ _ _⟩, le_rfl⟩
  · exact leads_pure ⟨⟨dat', hspilled, hw, hdrafted.view, hdrafted.le, hdrafted.fresh, hdrafted.added,
      hdrafted.logged, hdrafted.copied⟩, Nat.le_succ _⟩

end Loop

/-! ## The whole loop -/

theorem View.perm {cfg : Config} {dat key : Bytes} {c1 : Cache} {buckets modulus : Nat}
    {es es' : List Entry} (h : View cfg dat key c1 buckets modulus es) (hperm : es.Perm es') :
    View cfg dat key c1 buckets modulus es' := by
  refine ⟨h.sized, fun n hn => ?_, fun e he => h.valid e (hperm.mem_iff.mpr he)⟩
  obtain ⟨c, hfound, hrooted, hp⟩ := h.has n hn
  exact ⟨c, hfound, hrooted, hp.trans (hperm.filter _)⟩

theorem View.mono {cfg : Config} {dat dat' key : Bytes} {c1 : Cache} {buckets modulus : Nat}
    {es : List Entry} (h : View cfg dat key c1 buckets modulus es) (hd : dat <+: dat') :
    View cfg dat' key c1 buckets modulus es :=
  ⟨h.sized, fun n hn => (h.has n hn).mono hd, h.valid⟩

/-- A value that was inserted into a pool. -/
structure Pooled (cfg : Config) (v : Value) : Prop where
  hash : v.hash = cfg.hashOf v.key
  storable : Storable cfg (v.key, v.data)

def Value.item (v : Value) : Item := .record v.key v.data

def Value.record (v : Value) : Bytes × Bytes := (v.key, v.data)

/-- What a commit has built of a database and the values of a pool. -/
structure Built (cfg : Config) (items : List Item) (key : Bytes) (buckets : Nat)
    (values : List Value) (items' : List Item) (x : Draft) : Prop where
  drafted : Drafted cfg (cfg.dat items) key buckets (cfg.dat items') (cfg.entries items') x
  stocked : Stocked cfg items'
  isPrefix : items <+: items'
  records : records items' = records items ++ values.map Value.record
  le : x.buckets ≤ buckets + values.length

section Whole

variable {cfg : Config} {items : List Item} {key : Bytes} {buckets modulus : Nat} {d : Disk}
  {fs₀ : Files} {values : List Value}

theorem Table.blocks (h : Table cfg items key buckets modulus) :
    Blocks cfg (cfg.dat items) key buckets := by
  refine ⟨h.length, fun n hn => ?_⟩
  obtain ⟨c, ⟨s, hblob, hs⟩, -, -⟩ := h.has n hn
  exact ⟨c, s, hblob, hs⟩

/-- The records are appended, and their entries noted. -/
theorem appendValues_leads {w : Writer} (hvalues : ∀ v ∈ values, Pooled cfg v)
    (hw : w.On .dat fs₀ (cfg.dat items) (cfg.dat items) d.files) :
    Leads (values.foldlM (Disk.appendValue cfg.keySize) ([], w)) d
      (fun x d' => x.2.On .dat fs₀ (cfg.dat items) (cfg.dat (items ++ values.map Value.item))
        d'.files ∧ x.1 = entriesFrom cfg.hashOf (cfg.dat items).length (values.map Value.item))
      (fun _ d' => Grown fs₀ (cfg.dat items) d'.files) := by
  refine leads_foldlM (I := fun (done : List Value) (x : List Entry × Writer) (d' : Disk) =>
    x.2.On .dat fs₀ (cfg.dat items) (cfg.dat (items ++ done.map Value.item)) d'.files ∧
      x.1 = entriesFrom cfg.hashOf (cfg.dat items).length (done.map Value.item)) ?_ ?_
  · rintro done v rest rfl ⟨es, w⟩ d' ⟨hw, hes⟩
    have hv := hvalues v (by simp)
    have hlt : v.data.length < 256 ^ 6 := hv.storable.lt.trans (by norm_num)
    unfold Disk.appendValue
    dsimp only at hw hes ⊢
    rw [hw.position, writeField_of_lt hlt]
    refine ((Writer.prepare_leads hw _).mono (fun _ _ h => h) fun _ _ h => ⟨_, h⟩).bind
      fun w' d'' hw' => leads_pure ⟨?_, ?_⟩
    · have hcat : cfg.dat (items ++ (done ++ [v]).map Value.item) =
          cfg.dat (items ++ done.map Value.item) ++
            (toBytes 6 v.data.length ++ (v.key ++ v.data)) := by
        rw [List.map_append, ← List.append_assoc, cfg.dat_append]
        simp [Value.item, Item.bytes]
      rw [hcat]
      exact hw'.put _
    · rw [List.map_append, entriesFrom_append, hes, cfg.dat_append, List.length_append]
      simp [Value.item, entriesFrom, hv.hash]
  · simpa [entriesFrom] using hw

theorem records_map_item (values : List Value) :
    Nudb.records (values.map Value.item) = values.map Value.record := by
  rw [Nudb.records, List.filterMap_map, ← List.filterMap_eq_map]
  rfl

/-- The size of a data file is bounded when the offset of its last record is. -/
theorem size_lt_of_fits (hold : (cfg.dat items).length < 2 ^ 49)
    (hvalues : ∀ v ∈ values, Pooled cfg v)
    (hfits : ∀ e ∈ entriesFrom cfg.hashOf (cfg.dat items).length (values.map Value.item),
      e.offset < 256 ^ 6) :
    (cfg.dat (items ++ values.map Value.item)).length < 2 ^ 49 := by
  rcases List.eq_nil_or_concat values with rfl | ⟨vs, v, rfl⟩
  · simpa using hold
  · have hv := (hvalues v (by simp)).storable
    have hkey : v.key.length = cfg.keySize := hv.key
    have hdata : v.data.length < 2 ^ 32 := hv.lt
    have hlast := hfits ⟨(cfg.dat (items ++ vs.map Value.item)).length, v.data.length,
        cfg.hashOf v.key⟩ (by
      rw [List.concat_eq_append, List.map_append, entriesFrom_append, cfg.dat_append,
        List.length_append]
      simp [Value.item, entriesFrom])
    have hlt := cfg.keySize_lt
    rw [List.concat_eq_append, List.map_append, ← List.append_assoc, cfg.dat_append,
      List.length_append, List.map_singleton, List.flatMap_singleton, Value.item, Item.bytes,
      List.length_append, List.length_append, length_toBytes, hkey]
    dsimp only at hlast
    omega

/-- The values of a pool can be added to a database. -/
structure Addable (cfg : Config) (items : List Item) (values : List Value) : Prop where
  pooled : ∀ v ∈ values, Pooled cfg v
  keys : ((records items ++ values.map Value.record).map Prod.fst).Nodup

theorem Addable.entries (hadd : Addable cfg items values) (offset : Nat) :
    ∀ e ∈ entriesFrom cfg.hashOf offset (values.map Value.item),
      e.size < 2 ^ 32 ∧ e.hash < 256 ^ 6 := by
  intro e he
  obtain ⟨r, hr, hsize, hhash⟩ := exists_of_mem_entriesFrom he
  rw [records_map_item] at hr
  obtain ⟨v, hv, rfl⟩ := List.mem_map.mp hr
  rw [hsize, hhash]
  exact ⟨(hadd.pooled v hv).storable.lt, cfg.hashOf_lt _⟩

/-- Nothing is placed yet, and the records are appended. -/
theorem Table.drafting (htable : Table cfg items key buckets modulus) {new : List Item}
    {w : Writer} (hw : w.On .dat fs₀ (cfg.dat items) (cfg.dat (items ++ new)) d.files)
    (frac : Nat) : Drafting cfg fs₀ (cfg.dat items) key buckets (cfg.dat (items ++ new))
      (cfg.entries items) (Draft.mk ∅ ∅ buckets modulus frac w) d := by
  refine ⟨_, Spilled.refl _ _, hw, ?_, le_rfl, ?_, ?_, ?_, ?_⟩
  · rw [cfg.dat_append]
    exact htable.toView.mono (List.prefix_append _ _)
  · exact fun n hn => absurd hn (AList.notMem_empty n)
  · exact fun n hge hlt => absurd hlt (not_lt.mpr hge)
  · exact fun n => ⟨fun hn => absurd hn (AList.notMem_empty n),
      fun hn => absurd hn.1 (AList.notMem_empty n)⟩
  · intro n p hp
    cases hp

/-- The loop over the entries. Those that are placed come in front of those of the database. -/
theorem loop_leads {dat₀ dat : Bytes} {placed : List Entry} (hblocks : Blocks cfg dat₀ key buckets)
    (hkey : fs₀.bytes .key = key) (thresh : Nat) {es : List Entry}
    (hnew : ∀ e ∈ es, e.size < 2 ^ 32 ∧ e.hash < 256 ^ 6) {x : Draft}
    (hx : Drafting cfg fs₀ dat₀ key buckets dat placed x d) :
    Leads (es.foldlM (fun x e => do
        Disk.enter cfg.blockSize (← Disk.grow cfg.blockSize thresh x) e) x) d
      (fun x' d' => Drafting cfg fs₀ dat₀ key buckets dat (es.reverse ++ placed) x' d' ∧
        x'.buckets ≤ x.buckets + es.length)
      (fun _ d' => Grown fs₀ dat₀ d'.files) := by
  refine leads_foldlM (I := fun (done : List Entry) (x' : Draft) (d' : Disk) =>
    Drafting cfg fs₀ dat₀ key buckets dat (done.reverse ++ placed) x' d' ∧
      x'.buckets ≤ x.buckets + done.length) ?_ ⟨hx, le_rfl⟩
  rintro done e rest rfl x' d' ⟨hx', hle⟩
  refine (grow_leads hx' hblocks hkey thresh).bind fun x'' d'' hx'' => ?_
  obtain ⟨hsize, hhash⟩ := hnew e (by simp)
  refine (enter_leads hx''.1 hblocks hkey hsize hhash).mono (fun x₃ d₃ h => ?_) fun _ _ h => h
  rw [List.reverse_append, List.reverse_singleton, List.length_append, List.length_singleton, h.2]
  exact ⟨h.1, by have := hx''.2; omega⟩

theorem records_append (l l' : List Item) : Nudb.records (l ++ l') =
    Nudb.records l ++ Nudb.records l' :=
  List.filterMap_append

/-- The loop has built the database with the records and the spill records that it has written. -/
theorem built_of_drafted (htable : Table cfg items key buckets modulus)
    (hadd : Addable cfg items values) {spills : List Item} (hspills : Spills cfg.capacity spills)
    (hbound : spills = [] ∨ (cfg.dat (items ++ values.map Value.item ++ spills)).length < 2 ^ 49)
    {x : Draft} (hdrafted : Drafted cfg (cfg.dat items) key buckets
      (cfg.dat (items ++ values.map Value.item ++ spills))
      ((entriesFrom cfg.hashOf (cfg.dat items).length (values.map Value.item)).reverse ++
        cfg.entries items) x) (hle : x.buckets ≤ buckets + values.length) :
    Built cfg items key buckets values (items ++ values.map Value.item ++ spills) x := by
  have hperm : ((entriesFrom cfg.hashOf (cfg.dat items).length (values.map Value.item)).reverse ++
      cfg.entries items).Perm (cfg.entries (items ++ values.map Value.item ++ spills)) := by
    have hnone : entriesFrom cfg.hashOf (cfg.dat (items ++ values.map Value.item)).length spills =
        [] := entriesFrom_eq_nil hspills.records_eq
    rw [cfg.entries_append, hnone, List.append_nil, cfg.entries_append]
    exact ((List.reverse_perm _).append_right _).trans List.perm_append_comm
  have hrecords : records (items ++ values.map Value.item ++ spills) =
      records items ++ values.map Value.record := by
    rw [records_append, records_append, hspills.records_eq, List.append_nil, records_map_item]
  have hfits : ∀ e ∈ cfg.entries (items ++ values.map Value.item ++ spills), e.offset < 256 ^ 6 :=
    fun e he => (hdrafted.view.valid e (hperm.mem_iff.mpr he)).offset
  have hsize : (cfg.dat (items ++ values.map Value.item ++ spills)).length < 2 ^ 49 := by
    rcases hbound with rfl | hbound
    · rw [List.append_nil]
      refine size_lt_of_fits htable.size hadd.pooled fun e he => ?_
      exact (hdrafted.view.valid e (List.mem_append_left _ (List.mem_reverse.mpr he))).offset
    · exact hbound
  refine ⟨⟨hdrafted.view.perm hperm, hdrafted.le, hdrafted.fresh, hdrafted.added, hdrafted.logged,
    hdrafted.copied⟩, ⟨hfits, fun r hr => ?_, ?_, fun es next hmem => ?_, hsize⟩, ?_, hrecords, hle⟩
  · rw [hrecords] at hr
    rcases List.mem_append.mp hr with hr | hr
    · exact htable.storable r hr
    · obtain ⟨v, hv, rfl⟩ := List.mem_map.mp hr
      exact (hadd.pooled v hv).storable
  · rw [hrecords]
    exact hadd.keys
  · rw [List.append_assoc, List.mem_append, List.mem_append] at hmem
    rcases hmem with hmem | hmem | hmem
    · exact htable.spills es next hmem
    · obtain ⟨v, -, hv⟩ := List.mem_map.mp hmem
      cases hv
    · obtain ⟨_, _, heq, hlen⟩ := hspills _ hmem
      cases heq
      exact hlen
  · rw [List.append_assoc]
    exact List.prefix_append _ _

theorem build_leads (htable : Table cfg items key buckets modulus)
    (hadd : Addable cfg items values) (hdat : d.files .dat = some (Media.clean (cfg.dat items)))
    (hkey : d.files.bytes .key = key) (thresh bufSize frac : Nat) :
    Leads (Disk.build cfg.blockSize cfg.keySize thresh bufSize buckets modulus frac values) d
      (fun x d' => ∃ items', Built cfg items key buckets values items' x ∧
        Growing .dat d.files (cfg.dat items) (cfg.dat items') d'.files ∧
        d'.files.bytes .dat = cfg.dat items')
      (fun _ d' => Grown d.files (cfg.dat items) d'.files) := by
  have hbytes : d.files.bytes .dat = cfg.dat items := by
    rw [Files.bytes_of_eq_some hdat]
    rfl
  have hgrowing := Growing.refl hdat
  unfold Disk.build
  refine ((Disk.size_leads d .dat).mono (fun _ _ h => h) fun _ d' h => ?_).bind
    fun size d₁ hsize => ?_
  · rw [h.2]
    exact ⟨_, hgrowing⟩
  obtain ⟨rfl, hfiles⟩ := hsize
  have hon : (Writer.mk (d.files.bytes .dat).length [] bufSize).On .dat d.files (cfg.dat items)
      (cfg.dat items) d₁.files := by
    rw [hfiles]
    exact ⟨hgrowing, rfl, by rw [hbytes]; exact List.append_nil _⟩
  refine (appendValues_leads hadd.pooled hon).bind fun y d₂ hy => ?_
  obtain ⟨es, w⟩ := y
  obtain ⟨hw, rfl⟩ := hy
  refine (loop_leads htable.blocks hkey thresh (hadd.entries _)
    (htable.drafting hw frac)).bind fun x d₃ hx => ?_
  obtain ⟨⟨dat', ⟨spills, hspills, rfl, hbound⟩, hw', hdrafted⟩, hle⟩ := hx
  rw [← cfg.dat_append] at hw' hdrafted hbound
  rw [length_entriesFrom, records_map_item, List.length_map] at hle
  refine ((Writer.flush_leads hw').mono (fun _ _ h => h) fun _ _ h => ⟨_, h⟩).bind
    fun w' d₄ hflush => ?_
  have hbuilt := built_of_drafted htable hadd hspills hbound hdrafted hle
  exact leads_pure ⟨_, ⟨⟨hbuilt.drafted.view, hbuilt.drafted.le, hbuilt.drafted.fresh,
    hbuilt.drafted.added, hbuilt.drafted.logged, hbuilt.drafted.copied⟩, hbuilt.stocked,
    hbuilt.isPrefix, hbuilt.records, hbuilt.le⟩, hflush.1.growing, hflush.2⟩

theorem addable_tiny : Addable Config.tiny tinyItems tinyPool.values := by
  refine ⟨fun v hv => ?_, by simp [tinyPool, tinyItems, records, Item.record?, Value.record]⟩
  rw [List.mem_singleton.mp hv]
  exact ⟨rfl, rfl, by norm_num, by norm_num⟩

end Whole

end Metcalfe.Nudb
