import Metcalfe.Nudb.Commit

/-!
# The end of a commit

The new buckets are written to the key file, in any order, over the old ones and behind them; then
the data file and the key file are synced and the log is cut off. Until the cut the log restores
the old database, from then on the files are the new one.

A commit that returns leaves a database that has the records of before and those of the pool, at
rest. One that stops, at whichever call, leaves files that stand for the database with the old
records, or for one with the new records too (`commit_leads`).
-/

namespace Metcalfe.Nudb

open BigEndian Durable Stateful Outcome

/-! ## The blocks of the key file -/

/-- A key file with the blocks of `done` written to it, of at most `total` buckets. -/
structure Written (cfg : Config) (key : Bytes) (total : Nat) (done : List (Nat × Bytes))
    (b : Bytes) : Prop where
  header : slice b 0 cfg.blockSize = cfg.headerBlock
  ge : key.length ≤ b.length
  le : b.length ≤ (total + 1) * cfg.blockSize
  blocks : ∀ e ∈ done, (e.1 + 2) * cfg.blockSize ≤ b.length ∧
    slice b ((e.1 + 1) * cfg.blockSize) cfg.blockSize = (Bucket.ofBlob cfg.blockSize e.2).blockBytes
  rest : ∀ n, (n + 2) * cfg.blockSize ≤ key.length → n ∉ done.map Prod.fst →
    slice b ((n + 1) * cfg.blockSize) cfg.blockSize = slice key ((n + 1) * cfg.blockSize) cfg.blockSize

section Keys

variable {cfg : Config} {dat key log torn : Bytes} {buckets total : Nat} {rs : List LogRecord}
  {done new : List (Nat × Bytes)} {b : Bytes} {d : Disk}

/-- Two blocks do not meet. -/
theorem blocks_disjoint {blockSize n m : Nat} (h : n ≠ m) :
    (n + 1) * blockSize + blockSize ≤ (m + 1) * blockSize ∨
      (m + 1) * blockSize + blockSize ≤ (n + 1) * blockSize := by
  rw [← Nat.succ_mul, ← Nat.succ_mul]
  rcases lt_or_gt_of_ne h with h | h
  · exact .inl (Nat.mul_le_mul_right _ (by omega))
  · exact .inr (Nat.mul_le_mul_right _ (by omega))

theorem Written.write (h : Written cfg key total done b) {e : Nat × Bytes}
    (hlen : (Bucket.ofBlob cfg.blockSize e.2).blockBytes.length = cfg.blockSize)
    (he : e.1 < total) (hnew : e.1 ∉ done.map Prod.fst) (hkey : cfg.blockSize ≤ key.length) :
    Written cfg key total (done ++ [e]) (splice b ((e.1 + 1) * cfg.blockSize)
      (Bucket.ofBlob cfg.blockSize e.2).blockBytes) := by
  have hge := h.ge
  have hlength := length_splice b ((e.1 + 1) * cfg.blockSize)
    (Bucket.ofBlob cfg.blockSize e.2).blockBytes
  rw [hlen, ← Nat.succ_mul] at hlength
  have hother : ∀ n, n ≠ e.1 → (n + 2) * cfg.blockSize ≤ b.length →
      slice (splice b ((e.1 + 1) * cfg.blockSize) (Bucket.ofBlob cfg.blockSize e.2).blockBytes)
        ((n + 1) * cfg.blockSize) cfg.blockSize = slice b ((n + 1) * cfg.blockSize) cfg.blockSize := by
    intro n hne hle
    apply Change.slice_splice_of_disjoint
    · rwa [← Nat.succ_mul]
    · rw [hlen]
      exact blocks_disjoint hne
  refine ⟨?_, by rw [hlength]; exact hge.trans (le_max_left _ _), ?_, ?_, ?_⟩
  · rw [← h.header]
    apply Change.slice_splice_of_disjoint (by omega)
    exact .inl (by rw [Nat.zero_add]; exact Nat.le_mul_of_pos_left _ (Nat.succ_pos _))
  · rw [hlength]
    exact max_le h.le (Nat.mul_le_mul_right _ (by omega))
  · intro e' he'
    rw [hlength]
    rcases List.mem_append.mp he' with he' | he'
    · obtain ⟨hle, hblock⟩ := h.blocks e' he'
      have hne : e'.1 ≠ e.1 := by
        intro heq
        exact hnew (heq ▸ List.mem_map_of_mem he')
      exact ⟨hle.trans (le_max_left _ _), by rw [hother _ hne hle, hblock]⟩
    · rw [List.mem_singleton.mp he']
      refine ⟨le_max_right _ _, ?_⟩
      conv_lhs => rw [← hlen]
      rw [hlen]
      have := slice_splice b ((e.1 + 1) * cfg.blockSize)
        (Bucket.ofBlob cfg.blockSize e.2).blockBytes
      rwa [hlen] at this
  · intro n hle hn
    rw [List.map_append, List.mem_append, not_or] at hn
    have hne : n ≠ e.1 := fun heq => hn.2 (by simp [heq])
    rw [hother n hne (hle.trans hge), h.rest n hle hn.1]

/-- The new buckets are written; the old ones can be put back. -/
theorem writeKeys_leads (hundo : Undoing cfg dat key buckets rs torn log d.files)
    (hkey : d.files .key = some (Media.clean key)) (hlength : key.length = (buckets + 1) * cfg.blockSize)
    (hheader : key.take cfg.blockSize = cfg.headerBlock) (htotal : buckets ≤ total)
    (hnew : ∀ e ∈ new, (Bucket.ofBlob cfg.blockSize e.2).blockBytes.length = cfg.blockSize ∧
      e.1 < total ∧ (e.1 < buckets → ∃ r ∈ rs, r.index = e.1))
    (hnodup : (new.map Prod.fst).Nodup) :
    Leads (Disk.writeKeys cfg.blockSize new) d
      (fun _ d' => ∃ m : Media, d'.files = d.files.put .key m ∧ m.AtLeast key.length ∧
        m.Keeps (Outside cfg.blockSize rs) key ∧ Written cfg key total new m.bytes)
      (fun _ d' => Safe cfg dat key buckets d'.files) := by
  have hblock : cfg.blockSize ≤ key.length := by
    rw [hlength]
    exact Nat.le_mul_of_pos_left _ (Nat.succ_pos _)
  unfold Disk.writeKeys
  refine leads_foldlM (I := fun (done : List (Nat × Bytes)) (_ : Unit) (d' : Disk) =>
    ∃ m : Media, d'.files = d.files.put .key m ∧ m.AtLeast key.length ∧
      m.Keeps (Outside cfg.blockSize rs) key ∧ Written cfg key total done m.bytes) ?_ ?_
  · rintro done e rest hl - d' ⟨m, hfiles, hge, hkeeps, hwritten⟩
    obtain ⟨hlen, he, hlogged⟩ := hnew e (by rw [hl]; simp)
    rw [hl, List.map_append, List.map_cons, List.nodup_append] at hnodup
    have hfresh : e.1 ∉ done.map Prod.fst :=
      fun hmem => hnodup.2.2 _ hmem _ List.mem_cons_self rfl
    have hne : (Bucket.ofBlob cfg.blockSize e.2).blockBytes ≠ [] := by
      intro hnil
      rw [hnil] at hlen
      have := cfg.blockSize_pos
      rw [List.length_nil] at hlen
      omega
    -- A block has a record, or is behind the old ones.
    have hspares : ∀ data : Bytes, data.length ≤ cfg.blockSize → ∀ i < key.length,
        Outside cfg.blockSize rs i → (Change.write ((e.1 + 1) * cfg.blockSize) data).Spares i := by
      intro data hdata i hi hout
      by_cases hold : e.1 < buckets
      · obtain ⟨r, hr, hindex⟩ := hlogged hold
        rw [← hindex]
        exact spares_write hdata (hout r hr)
      · refine .inl (lt_of_lt_of_le hi ?_)
        rw [hlength]
        exact Nat.mul_le_mul_right _ (by omega)
    refine (Disk.write_leads d' .key _ hne).mono (fun _ d'' h => ?_) fun _ d'' h => ?_
    · rw [hfiles, Files.media_put, Files.put_put] at h
      refine ⟨_, h, hge.change trivial, hkeeps.change (hspares _ hlen.le), ?_⟩
      rw [Media.bytes_change]
      exact hwritten.write hlen he hfresh hblock
    · obtain ⟨-, k, h⟩ := h
      rw [hfiles, Files.media_put, Files.put_put] at h
      rw [h]
      refine (hundo.put_key (hge.change (c := .write _ _) trivial) (hkeeps.change (hspares _ ?_))).safe
      exact (List.length_take_le' _ _).trans hlen.le
  · refine ⟨Media.clean key, ?_, Media.atLeast_clean, Media.keeps_clean, ?_, le_rfl, ?_, by simp,
      fun _ _ _ => rfl⟩
    · have hput := Files.put_media (show (d.files .key).isSome = true by rw [hkey]; rfl)
      rw [Files.media_of_eq_some hkey] at hput
      exact hput.symm
    · simpa [slice] using hheader
    · rw [Media.bytes_clean, hlength]
      exact Nat.mul_le_mul_right _ (by omega)

/-- Both files are synced, and then the log is cut off. -/
theorem finalize_leads {m m' : Media} {dat' key' : Bytes} {n : Nat}
    (hundo : Undoing cfg dat key buckets rs torn log d.files) (hdat : d.files .dat = some m)
    (hdat' : m.bytes = dat') (hpre : dat <+: dat') (hkey : d.files .key = some m')
    (hkey' : m'.bytes = key') (hle : key.length ≤ key'.length)
    (hkeeps : m'.Keeps (Outside cfg.blockSize rs) key) :
    Leads Disk.finalize d (fun _ d' => Resting dat' key' d'.files)
      (fun _ d' => ∀ fs', Settles d'.files fs' →
        Restores cfg dat key buckets fs' ∨ Restores cfg dat' key' n fs') := by
  unfold Disk.finalize
  refine ((Disk.sync_leads d .dat).mono (fun _ _ h => h) fun _ d' h fs' hs => ?_).bind
    fun _ d₁ h₁ => ?_
  · rw [h.2] at hs
    exact .inl (hundo.safe fs' hs)
  rw [Files.media_of_eq_some hdat, Media.sync, hdat'] at h₁
  have hundo₁ := hundo.put_dat (Media.keeps_of_isPrefix hpre)
  rw [← h₁] at hundo₁
  have hkey₁ : d₁.files .key = some m' := by
    rw [h₁, Files.put, Function.update_of_ne (by simp)]
    exact hkey
  refine ((Disk.sync_leads d₁ .key).mono (fun _ _ h => h) fun _ d' h fs' hs => ?_).bind
    fun _ d₂ h₂ => ?_
  · rw [h.2] at hs
    exact .inl (hundo₁.safe fs' hs)
  have hkept := hkeeps.sync
  rw [Files.media_of_eq_some hkey₁, Media.sync, hkey'] at h₂
  rw [Media.sync, hkey'] at hkept
  have hundo₂ := hundo₁.put_key (m := Media.clean key') ⟨hle, by simp [Media.clean]⟩ hkept
  rw [← h₂] at hundo₂
  have hdat₂ : d₂.files .dat = some (Media.clean dat') := by
    rw [h₂, h₁]
    rfl
  have hkey₂ : d₂.files .key = some (Media.clean key') := by
    rw [h₂]
    exact Function.update_self _ _ _
  refine ((Disk.trunc_leads d₂ .log 0).mono (fun _ _ h => h) fun _ d' h fs' hs => ?_).bind
    fun _ d₃ h₃ => ?_
  · rw [h.2] at hs
    exact .inl (hundo₂.safe fs' hs)
  rw [Files.media_of_eq_some hundo₂.log] at h₃
  have hother : ∀ m, (d₂.files.put .log m) .dat = some (Media.clean dat') ∧
      (d₂.files.put .log m) .key = some (Media.clean key') := by
    intro m
    exact ⟨(Function.update_of_ne (by simp) _ _).trans hdat₂,
      (Function.update_of_ne (by simp) _ _).trans hkey₂⟩
  refine (Disk.sync_leads d₃ .log).mono (fun _ d₄ h₄ => ?_) fun _ d' h fs' hs => ?_
  · rw [h₃, Files.media_put, Files.put_put, Media.sync, Media.bytes_change, Media.bytes_clean] at h₄
    have hnil : (Change.trunc 0).apply log = [] := by simp [Change.apply]
    rw [h₄, hnil]
    exact ⟨(hother _).1, (hother _).2, Function.update_self _ _ _⟩
  · rw [h.2, h₃] at hs
    exact restores_of_trunc hundo₂.logs (hother _).1 (hother _).2 hpre hle hkept
      (Function.update_self _ _ _) hs

end Keys

/-! ## A whole commit -/

section Whole

variable {cfg : Config} {items items' : List Item} {values : List Value} {dat key b : Bytes}
  {buckets modulus n : Nat} {p : Bytes} {es : List Entry} {c1 : Cache} {x : Draft} {d : Disk}

/-- What is written of a bucket that is in the cache. -/
theorem View.block (h : View cfg dat key c1 buckets modulus es) (hn : n < buckets)
    (hp : c1.lookup n = some p) : ∃ c : Chain cfg.capacity,
      Holds true cfg.blockSize dat c (Bucket.ofBlob cfg.blockSize p).blockBytes ∧ c.Rooted ∧
        c.entries.Perm (share buckets modulus n es) := by
  obtain ⟨c, hfound, hrooted, hperm⟩ := h.has n hn
  unfold Config.Found at hfound
  rw [hp] at hfound
  obtain ⟨s, hshows, hs⟩ := hfound
  refine ⟨c, ⟨s, ?_, hs⟩, hrooted, hperm⟩
  exact hshows.blockBytes (bucketSize_le_of_le cfg.capacity_pos c.top_le)

theorem View.length_block (h : View cfg dat key c1 buckets modulus es) (hn : n < buckets)
    (hp : c1.lookup n = some p) :
    (Bucket.ofBlob cfg.blockSize p).blockBytes.length = cfg.blockSize := by
  obtain ⟨c, ⟨s, hblob, -⟩, -, -⟩ := h.block hn hp
  rw [hblob]
  exact length_blob (bucketSize_le_of_le cfg.capacity_pos c.top_le) s

/-- The key file, when all new buckets are written. -/
theorem Built.table (h : Built cfg items key buckets values items' x)
    (htable : Table cfg items key buckets modulus) (hbounded : x.buckets ≤ 2 ^ 32)
    {order : Cache.Order} (hwritten : Written cfg key x.buckets (order.visit x.c1) b) :
    Table cfg items' b x.buckets x.modulus := by
  have hview := h.drafted.view
  have hmem : ∀ m, m ∈ (order.visit x.c1).map Prod.fst ↔ m ∈ x.c1 := by
    intro m
    rw [← AList.lookup_isSome, Option.isSome_iff_exists, List.mem_map]
    constructor
    · rintro ⟨⟨m, p⟩, hmp, rfl⟩
      exact ⟨p, Cache.Order.mem_visit.mp hmp⟩
    · rintro ⟨p, hp⟩
      exact ⟨(m, p), Cache.Order.mem_visit.mpr hp, rfl⟩
  have hpos := hview.sized.pos
  refine ⟨h.stocked, ⟨hview.sized, fun m hm => ?_, hview.valid⟩, ?_, ?_, hbounded⟩
  · cases hp : x.c1.lookup m with
    | some p =>
      obtain ⟨c, hholds, hrooted, hperm⟩ := hview.block hm hp
      have hblock := (hwritten.blocks (m, p) (Cache.Order.mem_visit.mpr hp)).2
      refine ⟨c, ?_, hrooted, hperm⟩
      show Holds true cfg.blockSize _ c (slice b ((m + 1) * cfg.blockSize) cfg.blockSize)
      rwa [hblock]
    | none =>
      have hnot : m ∉ x.c1 := AList.lookup_eq_none.mp hp
      obtain ⟨c, hfound, hrooted, hperm⟩ := hview.has m hm
      unfold Config.Found at hfound
      rw [hp] at hfound
      have hold : m < buckets := by
        by_contra hge
        exact hnot (h.drafted.added m (not_lt.mp hge) hm)
      refine ⟨c, ?_, hrooted, hperm⟩
      show Holds true cfg.blockSize _ c (slice b ((m + 1) * cfg.blockSize) cfg.blockSize)
      rwa [hwritten.rest m ?_ (mt (hmem m).mp hnot)]
      rw [htable.length]
      exact Nat.mul_le_mul_right _ (by omega)
  · have := hwritten.header
    rwa [slice, List.drop_zero] at this
  · apply le_antisymm hwritten.le
    by_cases hlast : x.buckets - 1 ∈ x.c1
    · obtain ⟨⟨m, p⟩, hmp, heq⟩ := List.mem_map.mp ((hmem _).mpr hlast)
      have hle := (hwritten.blocks _ hmp).1
      rwa [heq, show x.buckets - 1 + 2 = x.buckets + 1 by omega] at hle
    · have hle : x.buckets ≤ buckets := by
        by_contra hgt
        exact hlast (h.drafted.added _ (by omega) (by omega))
      refine le_trans ?_ hwritten.ge
      rw [htable.length]
      exact Nat.mul_le_mul_right _ (by omega)

/-- What a commit leaves when it stops: a database without the new records, or with them. -/
def Either (cfg : Config) (recs new : List (Bytes × Bytes)) (fs : Files) : Prop :=
  ∀ fs', Settles fs fs' → Stands cfg recs fs' ∨ Stands cfg (recs ++ new) fs'

theorem Safe.either {fs : Files} (h : Safe cfg (cfg.dat items) key buckets fs)
    (htable : Table cfg items key buckets modulus) (new : List (Bytes × Bytes)) :
    Either cfg (records items) new fs :=
  fun fs' hs => .inl ⟨items, key, _, _, htable, rfl, h fs' hs⟩

/-- The data file has the new items, and what it had is certain. -/
def Extended (dat dat' : Bytes) (fs : Files) : Prop :=
  ∃ m : Media, fs .dat = some m ∧ m.bytes = dat' ∧ m.Keeps (fun _ => True) dat

/-- The new buckets are built, and the log has its header. -/
structure Prepared (cfg : Config) (items : List Item) (key : Bytes) (buckets : Nat)
    (values : List Value) (items' : List Item) (x : Draft) (fs : Files) : Prop where
  built : Built cfg items key buckets values items' x
  log : fs .log = some (Media.clean
    (writeLogFileHeader (cfg.logFileHeader key.length (cfg.dat items).length)))
  dat : Extended (cfg.dat items) (cfg.dat items') fs
  key : fs .key = some (Media.clean key)

/-- The log has the old blocks of the buckets that are going to change. -/
structure Secured (cfg : Config) (items : List Item) (key : Bytes) (buckets : Nat)
    (values : List Value) (items' : List Item) (x : Draft) (fs : Files) : Prop where
  built : Built cfg items key buckets values items' x
  undo : ∃ rs log, Undoing cfg (cfg.dat items) key buckets rs [] log fs ∧
    ∀ n ∈ x.c0, ∃ r ∈ rs, r.index = n
  dat : Extended (cfg.dat items) (cfg.dat items') fs
  key : fs .key = some (Media.clean key)

theorem Prepared.safe {fs : Files} (h : Prepared cfg items key buckets values items' x fs) :
    Safe cfg (cfg.dat items) key buckets fs := by
  obtain ⟨m, hm, -, hkeeps⟩ := h.dat
  exact fun fs' hs => restores_of_records hm hkeeps h.key (List.forall_mem_nil _)
    ((Growing.refl h.log).mono (List.prefix_append _ _)) hs

theorem Secured.safe {fs : Files} (h : Secured cfg items key buckets values items' x fs) :
    Safe cfg (cfg.dat items) key buckets fs := by
  obtain ⟨rs, log, hundo, -⟩ := h.undo
  exact hundo.safe

theorem prepare_leads {st : Live} (htable : Table cfg items key st.buckets st.modulus)
    (hrest : Resting (cfg.dat items) key d.files) (hkh : st.kh = cfg.keyFileHeader n)
    (hhasher : st.hasher = cfg.hasher) (hadd : Addable cfg items st.p0.values) :
    Leads st.prepare d
      (fun x d' => ∃ items', Prepared cfg items key st.buckets st.p0.values items' x d'.files)
      (fun _ d' => Safe cfg (cfg.dat items) key st.buckets d'.files) := by
  have hblockSize : st.kh.blockSize = cfg.blockSize := by
    rw [hkh]
    rfl
  have hkeySize : st.kh.keySize = cfg.keySize := by
    rw [hkh]
    rfl
  unfold Live.prepare
  refine (writeLogHeader_leads hkh hhasher hrest).bind fun _ d₁ h₁ => ?_
  have hdat₁ : d₁.files .dat = some (Media.clean (cfg.dat items)) := by
    rw [h₁]
    exact hrest.dat
  have hkey₁ : d₁.files .key = some (Media.clean key) := by
    rw [h₁]
    exact hrest.key
  have hlog₁ : d₁.files .log = some (Media.clean
      (writeLogFileHeader (cfg.logFileHeader key.length (cfg.dat items).length))) := by
    rw [h₁]
    exact Function.update_self _ _ _
  have hkeyBytes : d₁.files.bytes .key = key := by
    rw [Files.bytes_of_eq_some hkey₁]
    rfl
  rw [hblockSize, hkeySize]
  refine (build_leads htable hadd hdat₁ hkeyBytes _ _ _).mono (fun x d₂ hx => ?_)
    fun _ d' h => safe_of_grown hkey₁ hlog₁ h
  obtain ⟨items', hbuilt, ⟨m, hd₂, hsynced, happends, -⟩, hbytes⟩ := hx
  rw [hd₂] at hbytes ⊢
  refine ⟨items', hbuilt, hlog₁, ⟨m, Function.update_self _ _ _, ?_, ?_⟩, hkey₁⟩
  · rwa [Files.bytes, Files.media_put] at hbytes
  · rw [← hsynced] at happends ⊢
    exact happends.keeps

theorem secure_leads (h : Prepared cfg items key buckets values items' x d.files)
    (order : Cache.Order) : Leads (Disk.writeLog cfg.blockSize (order.visit x.c0)) d
      (fun _ d' => Secured cfg items key buckets values items' x d'.files)
      (fun _ d' => Safe cfg (cfg.dat items) key buckets d'.files) := by
  obtain ⟨m, hdat, hmbytes, hkeeps⟩ := h.dat
  have hkey := h.key
  -- A record for each of the old blocks.
  have hcopy : ∀ e ∈ order.visit x.c0, ∃ r : LogRecord, r.Of cfg (cfg.dat items) key buckets ∧
      r.index = e.1 ∧ r.bytes = toBytes 8 e.1 ++ (Bucket.ofBlob cfg.blockSize e.2).write := by
    rintro ⟨n, p⟩ he
    have hp := Cache.Order.mem_visit.mp he
    have hmem : n ∈ x.c0 := AList.lookup_isSome.mp (by rw [hp]; rfl)
    exact exists_record (h.built.drafted.copied n p hp) ((h.built.drafted.logged n).mp hmem).2
  choose! recordOf hof hindex hrecord using hcopy
  have hrecords : ∀ r ∈ (order.visit x.c0).map recordOf, r.Of cfg (cfg.dat items) key buckets := by
    intro r hr
    obtain ⟨e, he, rfl⟩ := List.mem_map.mp hr
    exact hof e he
  refine (writeLog_leads hrecord h.log).mono (fun _ d' hd' => ?_) fun _ d' hgrown fs' hs => ?_
  · rw [hd']
    refine ⟨h.built, ⟨(order.visit x.c0).map recordOf, _, ⟨⟨by rw [List.append_nil], hrecords,
      .inl rfl⟩, Function.update_self _ _ _, ⟨m, hdat, hkeeps⟩,
      ⟨_, hkey, Media.atLeast_clean, Media.keeps_clean⟩⟩, fun n hn => ?_⟩,
      ⟨m, hdat, hmbytes, hkeeps⟩, hkey⟩
    obtain ⟨p, hp⟩ := Option.isSome_iff_exists.mp (AList.lookup_isSome.mpr hn)
    have hvisit := Cache.Order.mem_visit (o := order).mpr hp
    exact ⟨recordOf (n, p), List.mem_map_of_mem hvisit, hindex _ hvisit⟩
  · obtain ⟨m', hput, -⟩ := id hgrown
    refine restores_of_records ?_ hkeeps ?_ hrecords hgrown hs
    · rw [hput]
      exact hdat
    · rw [hput]
      exact hkey

/-- The new database, at rest. -/
def Finished (cfg : Config) (items' : List Item) (buckets modulus : Nat) (fs : Files) : Prop :=
  ∃ key, Table cfg items' key buckets modulus ∧ Resting (cfg.dat items') key fs

theorem overwrite_leads {st : Live} (h : Secured cfg items key buckets values items' x d.files)
    (htable : Table cfg items key buckets modulus) (hbounded : x.buckets ≤ 2 ^ 32)
    (hblockSize : st.kh.blockSize = cfg.blockSize) (hc1 : st.c1 = x.c1) (order : Cache.Order) :
    Leads (st.overwrite order) d
      (fun _ d' => Finished cfg items' x.buckets x.modulus d'.files)
      (fun _ d' => Either cfg (records items) (values.map Value.record) d'.files) := by
  obtain ⟨m, hdat, hmbytes, -⟩ := h.dat
  obtain ⟨rs, log, hundo, hlogged⟩ := h.undo
  have hbuilt := h.built
  have hnew : ∀ e ∈ order.visit x.c1,
      (Bucket.ofBlob cfg.blockSize e.2).blockBytes.length = cfg.blockSize ∧ e.1 < x.buckets ∧
        (e.1 < buckets → ∃ r ∈ rs, r.index = e.1) := by
    rintro ⟨n, p⟩ he
    have hp := Cache.Order.mem_visit.mp he
    have hmem : n ∈ x.c1 := AList.lookup_isSome.mp (by rw [hp]; rfl)
    have hlt := hbuilt.drafted.fresh n hmem
    exact ⟨hbuilt.drafted.view.length_block hlt hp, hlt,
      fun hn => hlogged n ((hbuilt.drafted.logged n).mpr ⟨hmem, hn⟩)⟩
  have hpre : cfg.dat items <+: cfg.dat items' := by
    obtain ⟨t, ht⟩ := hbuilt.isPrefix
    rw [← ht, cfg.dat_append]
    exact List.prefix_append _ _
  unfold Live.overwrite
  rw [hblockSize, hc1]
  refine ((writeKeys_leads hundo h.key htable.length htable.header hbuilt.drafted.le hnew
    (order.nodup_visit _)).mono (fun _ _ h => h) fun _ d' h => h.either htable _).bind
    fun _ d₁ h₁ => ?_
  obtain ⟨m', hd₁, hge, hkeeps, hwritten⟩ := h₁
  have htable' := hbuilt.table htable hbounded hwritten
  have hundo' := hundo.put_key hge hkeeps
  rw [← hd₁] at hundo'
  have hdat₁ : d₁.files .dat = some m := by
    rw [hd₁]
    exact hdat
  have hkey₁ : d₁.files .key = some m' := by
    rw [hd₁]
    exact Function.update_self _ _ _
  refine (finalize_leads (n := x.buckets) hundo' hdat₁ hmbytes hpre hkey₁ rfl
    hge.le_bytes hkeeps).mono (fun _ d₂ h₂ => ⟨_, htable', h₂⟩) fun _ d' h fs' hs => ?_
  rcases h fs' hs with h | h
  · exact .inl ⟨items, key, _, _, htable, rfl, h⟩
  · exact .inr ⟨items', _, _, _, htable', hbuilt.records, h⟩

/-- What a commit leaves when it returns. -/
structure Committed (cfg : Config) (items : List Item) (st st' : Live) (fs : Files) : Prop where
  finished : ∃ items', Finished cfg items' st'.buckets st'.modulus fs ∧ items <+: items' ∧
    records items' = records items ++ st.p1.values.map Value.record
  eq : st' = { st with p0 := Pool.empty, p1 := st.p0, c1 := ∅, frac := st'.frac,
                       buckets := st'.buckets, modulus := st'.modulus }
  le : st'.buckets ≤ st.buckets + st.p1.values.length

theorem commit_leads {st : Live} (htable : Table cfg items key st.buckets st.modulus)
    (hrest : Resting (cfg.dat items) key d.files) (hkh : st.kh = cfg.keyFileHeader n)
    (hhasher : st.hasher = cfg.hasher) (hadd : Addable cfg items st.p1.values)
    (hbounded : st.buckets + st.p1.values.length ≤ 2 ^ 32) (order : Cache.Order) :
    Leads (st.commit order) d (fun st' d' => Committed cfg items st st' d'.files)
      (fun _ d' => Either cfg (records items) (st.p1.values.map Value.record) d'.files) := by
  have hblockSize : st.kh.blockSize = cfg.blockSize := by
    rw [hkh]
    rfl
  unfold Live.commit
  dsimp only
  have hprepare : Leads st.begin_.prepare d _ _ := prepare_leads htable hrest hkh hhasher hadd
  refine (hprepare.mono (fun _ _ h => h) fun _ d' h => h.either htable _).bind fun x d₁ hx => ?_
  obtain ⟨items', hprepared⟩ := hx
  have hbuilt := hprepared.built
  have hkept : (st.begin_.publish x).kh.blockSize = cfg.blockSize := hblockSize
  rw [hkept]
  refine ((secure_leads hprepared order).mono (fun _ _ h => h)
    fun _ d' h => h.either htable _).bind fun _ d₂ h₂ => ?_
  have hover : Leads ((st.begin_.publish x).overwrite order) d₂ _ _ :=
    overwrite_leads h₂ htable (hbuilt.le.trans hbounded) hkept rfl order
  exact hover.bind fun _ d₃ h₃ => leads_pure ⟨⟨items', h₃, hbuilt.isPrefix, hbuilt.records⟩, rfl,
    hbuilt.le⟩

/-- The small database, with a value that was inserted. -/
def tinyLive : Live where
  hasher := Config.tiny.hasher
  kh := Config.tiny.keyFileHeader 1
  p0 := Pool.empty
  p1 := tinyPool
  c1 := ∅
  frac := 32768
  thresh := 65536
  buckets := 1
  modulus := 1

theorem resting_tiny : Resting (Config.tiny.dat tinyItems) tinyKey
    (tinyFiles (some (Media.clean []))) := ⟨rfl, rfl, rfl⟩

end Whole

end Metcalfe.Nudb
