import Metcalfe.Nudb.Cache
import Metcalfe.Nudb.Growth
import Metcalfe.Nudb.Store

/-!
# What the files of a database hold

After its header the data file is a sequence of items: data records, and spill records, which a
size of zero tells from them. The data records are what the database holds; `entriesFrom` gives the
entry that points to each of them.

A reader finds a bucket in a cache or else in the key file. `View` says that the buckets it finds,
with their spill records, have given entries, each in the bucket of its hash. `Table` is a whole
database with nothing in memory, whose entries are those of all the data records.
-/

namespace Metcalfe.Nudb

open BigEndian Outcome LinearHash

/-- What is fixed when a database is created. -/
structure Config where
  hasher : Hasher
  uid : UInt64
  appnum : UInt64
  salt : UInt64
  keySize : Nat
  blockSize : Nat
  loadFactor : Nat
  keySize_pos : 0 < keySize
  keySize_lt : keySize < 2 ^ 16
  blockSize_lt : blockSize < 2 ^ 16
  capacity_pos : 0 < bucketCapacity blockSize
  loadFactor_pos : 0 < loadFactor
  loadFactor_lt : loadFactor < 2 ^ 16

namespace Config

abbrev capacity (cfg : Config) : Nat := bucketCapacity cfg.blockSize

def datFileHeader (cfg : Config) : DatFileHeader :=
  ⟨ascii "nudb.dat", currentVersion, cfg.uid, cfg.appnum, cfg.keySize⟩

/-- The header with the values that a reader derives from the number of buckets. -/
def keyFileHeader (cfg : Config) (buckets : Nat) : KeyFileHeader where
  type := ascii "nudb.key"
  version := currentVersion
  uid := cfg.uid
  appnum := cfg.appnum
  keySize := cfg.keySize
  salt := cfg.salt
  pepper := pepper cfg.hasher cfg.salt
  blockSize := cfg.blockSize
  loadFactor := cfg.loadFactor
  capacity := cfg.capacity
  buckets := buckets
  modulus := ceilPow2 buckets

/-- The first block of the key file. -/
def headerBlock (cfg : Config) : Bytes :=
  writeKeyFileHeader (cfg.keyFileHeader 0) ++ List.replicate (cfg.blockSize - keyFileHeaderSize) 0

def hashOf (cfg : Config) (key : Bytes) : Nat := hash cfg.hasher key cfg.salt

variable (cfg : Config)

theorem length_headerBlock : cfg.headerBlock.length = cfg.blockSize := by
  have := keyFileHeaderSize_le cfg.capacity_pos
  rw [headerBlock, List.length_append, length_writeKeyFileHeader, List.length_replicate]
  omega

theorem blockSize_pos : 0 < cfg.blockSize := by
  have := keyFileHeaderSize_le cfg.capacity_pos
  unfold keyFileHeaderSize at this
  omega

theorem hashOf_lt (key : Bytes) : cfg.hashOf key < 256 ^ 6 := makeHash_lt _

end Config

/-! ## The items of a data file -/

inductive Item
  | record (key value : Bytes)
  | spill (es : List Entry) (next : Nat)
  deriving DecidableEq, Repr

namespace Item

def bytes : Item → Bytes
  | record key value => toBytes 6 value.length ++ (key ++ value)
  | spill es next => (toBytes 6 0 ++ toBytes 2 (bucketSize es.length)) ++ encode es next

def record? : Item → Option (Bytes × Bytes)
  | record key value => some (key, value)
  | spill _ _ => none

end Item

/-- The data records. -/
def records (items : List Item) : List (Bytes × Bytes) := items.filterMap Item.record?

/-- The entries that point to the data records of a file, from position `offset` on. -/
def entriesFrom (hashOf : Bytes → Nat) : Nat → List Item → List Entry
  | _, [] => []
  | offset, .record key value :: items => ⟨offset, value.length, hashOf key⟩ ::
      entriesFrom hashOf (offset + (Item.record key value).bytes.length) items
  | offset, .spill es next :: items =>
      entriesFrom hashOf (offset + (Item.spill es next).bytes.length) items

theorem entriesFrom_append (hashOf : Bytes → Nat) (offset : Nat) (items items' : List Item) :
    entriesFrom hashOf offset (items ++ items') = entriesFrom hashOf offset items ++
      entriesFrom hashOf (offset + (items.flatMap Item.bytes).length) items' := by
  induction items generalizing offset with
  | nil => simp [entriesFrom]
  | cons item items ih =>
    cases item with
    | record key value =>
      simp only [List.cons_append, entriesFrom, ih, List.flatMap_cons, List.length_append]
      rw [Nat.add_assoc]
    | spill es next =>
      simp only [List.cons_append, entriesFrom, ih, List.flatMap_cons, List.length_append]
      rw [Nat.add_assoc]

theorem entriesFrom_eq_nil {hashOf : Bytes → Nat} {offset : Nat} {items : List Item}
    (h : records items = []) : entriesFrom hashOf offset items = [] := by
  induction items generalizing offset with
  | nil => rfl
  | cons item items ih =>
    cases item with
    | record key value => simp [records, Item.record?] at h
    | spill es next => exact ih (by simpa [records, Item.record?] using h)

theorem length_entriesFrom (hashOf : Bytes → Nat) (offset : Nat) (items : List Item) :
    (entriesFrom hashOf offset items).length = (records items).length := by
  induction items generalizing offset with
  | nil => rfl
  | cons item items ih =>
    cases item with
    | record key value => simp [entriesFrom, records, Item.record?, ih]
    | spill es next => exact ih _

/-- What an entry has of its record. -/
theorem exists_of_mem_entriesFrom {hashOf : Bytes → Nat} {offset : Nat} {items : List Item}
    {e : Entry} (h : e ∈ entriesFrom hashOf offset items) :
    ∃ r ∈ records items, e.size = r.2.length ∧ e.hash = hashOf r.1 := by
  induction items generalizing offset with
  | nil => simp [entriesFrom] at h
  | cons item items ih =>
    cases item with
    | record key value =>
      rw [entriesFrom, List.mem_cons] at h
      rcases h with rfl | h
      · exact ⟨(key, value), by simp [records, Item.record?], rfl, rfl⟩
      · obtain ⟨r, hr, he⟩ := ih h
        exact ⟨r, List.mem_cons_of_mem _ hr, he⟩
    | spill es next => exact ih h

/-- Spill records of full buckets. -/
def Spills (cap : Nat) (items : List Item) : Prop :=
  ∀ item ∈ items, ∃ es next, item = .spill es next ∧ es.length = cap

theorem Spills.records_eq {cap : Nat} {items : List Item} (h : Spills cap items) :
    records items = [] := by
  rw [records, List.filterMap_eq_nil_iff]
  intro item hitem
  obtain ⟨es, next, rfl, -⟩ := h item hitem
  rfl

/-- A key and a value that a database takes. -/
structure Storable (cfg : Config) (r : Bytes × Bytes) : Prop where
  key : r.1.length = cfg.keySize
  pos : 0 < r.2.length
  lt : r.2.length < 2 ^ 32

section Entries

variable {cfg : Config} {st : Store} {items : List Item}

/-- The entries point to the records, and the records lie in the file. -/
theorem entriesFrom_read (hsize : st.kh.keySize = cfg.keySize) {pre post : Bytes}
    (hrec : ∀ r ∈ records items, Storable cfg r)
    (hdat : st.dat = pre ++ (items.flatMap Item.bytes ++ post)) :
    (entriesFrom cfg.hashOf pre.length items).map (fun e => (st.keyAt e, st.valueAt e)) =
        records items ∧
      ∀ e ∈ entriesFrom cfg.hashOf pre.length items,
        e.hash = cfg.hashOf (st.keyAt e) ∧ e.size < 2 ^ 32 ∧
          e.offset + 6 + (st.kh.keySize + e.size) ≤ st.dat.length := by
  induction items generalizing pre with
  | nil => simp [entriesFrom, records]
  | cons item items ih =>
    have hnext : st.dat = (pre ++ item.bytes) ++ (items.flatMap Item.bytes ++ post) := by
      rw [hdat, List.flatMap_cons]
      simp only [List.append_assoc]
    cases item with
    | spill es next =>
      have hrest := ih (fun r hr => hrec r hr) hnext
      rw [List.length_append] at hrest
      exact hrest
    | record key value =>
      have hw : Storable cfg (key, value) := hrec _ List.mem_cons_self
      have hkey : key.length = cfg.keySize := hw.key
      have hrest := ih (fun r hr => hrec r (List.mem_cons_of_mem _ hr)) hnext
      rw [List.length_append] at hrest
      -- The file around the key and around the value of this record.
      have hat : st.dat = (pre ++ toBytes 6 value.length) ++ (key ++ (value ++
          (items.flatMap Item.bytes ++ post))) := by
        rw [hnext, Item.bytes]
        simp only [List.append_assoc]
      have hfront : (pre ++ toBytes 6 value.length).length = pre.length + 6 := by simp
      have hkeyAt : st.keyAt ⟨pre.length, value.length, cfg.hashOf key⟩ = key := by
        rw [Store.keyAt, hat, hsize]
        exact slice_middle hfront hkey
      have hvalueAt : st.valueAt ⟨pre.length, value.length, cfg.hashOf key⟩ = value := by
        rw [Store.valueAt, hat, hsize, ← List.append_assoc]
        apply slice_middle _ rfl
        rw [List.length_append, hfront, hkey]
      constructor
      · rw [entriesFrom, List.map_cons, hkeyAt, hvalueAt, hrest.1]
        rfl
      · intro e he
        rcases List.mem_cons.mp he with rfl | he
        · refine ⟨by rw [hkeyAt], hw.lt, ?_⟩
          rw [hat, hsize]
          simp only [List.length_append, length_toBytes, hkey]
          omega
        · exact hrest.2 e he

end Entries

/-! ## The length of a chain -/

theorem encode_inj {es es' : List Entry} {s s' : Nat} (h : encode es s = encode es' s')
    (hs : s < 256 ^ 6) (hs' : s' < 256 ^ 6) : s = s' := by
  have hfield : ∀ (es : List Entry) (s : Nat), s < 256 ^ 6 →
      ofBytes (slice (encode es s) 2 6) = s := by
    intro es s hs
    rw [encode, List.append_assoc, slice_middle (length_toBytes 2 _) (length_toBytes 6 _),
      ofBytes_toBytes_of_lt hs]
  rw [← hfield es s hs, h, hfield es' s' hs']

/-- A pointer has one chain. -/
theorem SpillAt.length_eq {dat : Bytes} {cap s : Nat} {l l' : List (List Entry)}
    (h : SpillAt true dat s l) (h' : SpillAt true dat s l') (hl : ∀ es ∈ l, es.length = cap)
    (hl' : ∀ es ∈ l', es.length = cap) : l.length = l'.length := by
  induction l generalizing s l' with
  | nil =>
    cases l' with
    | nil => rfl
    | cons es' l' => exact absurd h h'.1.ne'
  | cons es l ih =>
    cases l' with
    | nil => exact absurd h' h.1.ne'
    | cons es' l' =>
      obtain ⟨-, -, -, next, hslice, hnext⟩ := h
      obtain ⟨-, -, -, next', hslice', hnext'⟩ := h'
      rw [hl es List.mem_cons_self] at hslice
      rw [hl' es' List.mem_cons_self, hslice] at hslice'
      obtain rfl := encode_inj hslice' (Store.SpillAt.lt (.inl rfl) hnext)
        (Store.SpillAt.lt (.inl rfl) hnext')
      rw [List.length_cons, List.length_cons, ih hnext hnext'
        (fun x hx => hl x (List.mem_cons_of_mem _ hx))
        fun x hx => hl' x (List.mem_cons_of_mem _ hx)]

/-- The records of a chain are at different positions of the file. -/
theorem SpillAt.exists_nodup {dat : Bytes} {cap s : Nat} {l : List (List Entry)}
    (h : SpillAt true dat s l) (hl : ∀ es ∈ l, es.length = cap) :
    ∃ ps : List Nat, ps.length = l.length ∧ ps.Nodup ∧ ∀ p ∈ ps, p < dat.length ∧
      ∃ l', l'.length ≤ l.length ∧ (∀ es ∈ l', es.length = cap) ∧ SpillAt true dat p l' := by
  induction l generalizing s with
  | nil => exact ⟨[], rfl, List.nodup_nil, by simp⟩
  | cons es l ih =>
    have hrest : ∀ x ∈ l, x.length = cap := fun x hx => hl x (List.mem_cons_of_mem _ hx)
    have hat := h
    obtain ⟨-, -, hle, next, -, hnext⟩ := h
    obtain ⟨ps, hlen, hnodup, hps⟩ := ih hnext hrest
    refine ⟨s :: ps, by simp [hlen], List.nodup_cons.mpr ⟨?_, hnodup⟩, ?_⟩
    · intro hmem
      obtain ⟨-, l', hle', hl', hspill⟩ := hps s hmem
      have := hat.length_eq hspill hl hl'
      rw [List.length_cons] at this
      omega
    · intro p hp
      rcases List.mem_cons.mp hp with rfl | hp
      · have hpos : 0 < bucketSize es.length := by
          unfold bucketSize
          omega
        exact ⟨by omega, es :: l, le_rfl, hl, hat⟩
      · obtain ⟨hlt, l', hle', hl', hspill⟩ := hps p hp
        exact ⟨hlt, l', by rw [List.length_cons]; omega, hl', hspill⟩

theorem SpillAt.length_le {dat : Bytes} {cap s : Nat} {l : List (List Entry)}
    (h : SpillAt true dat s l) (hl : ∀ es ∈ l, es.length = cap) : l.length ≤ dat.length := by
  obtain ⟨ps, hlen, hnodup, hps⟩ := h.exists_nodup hl
  have hsub : ps ⊆ List.range dat.length := fun p hp => List.mem_range.mpr (hps p hp).1
  rw [← hlen]
  simpa using hnodup.length_le_of_subset hsub

/-! ## A whole database -/

namespace Config

variable (cfg : Config)

/-- The data file with these items. -/
def dat (items : List Item) : Bytes :=
  writeDatFileHeader cfg.datFileHeader ++ items.flatMap Item.bytes

def entries (items : List Item) : List Entry := entriesFrom cfg.hashOf datFileHeaderSize items

/-- The store that is opened on these files. -/
def store (dat key : Bytes) (buckets modulus : Nat) : Store :=
  ⟨cfg.hasher, dat, key, cfg.keyFileHeader buckets, buckets, modulus⟩

theorem dat_append (items items' : List Item) :
    cfg.dat (items ++ items') = cfg.dat items ++ items'.flatMap Item.bytes := by
  rw [dat, dat, List.flatMap_append, List.append_assoc]

theorem length_dat (items : List Item) :
    (cfg.dat items).length = datFileHeaderSize + (items.flatMap Item.bytes).length := by
  rw [dat, List.length_append, length_writeDatFileHeader]

theorem entries_append (items items' : List Item) : cfg.entries (items ++ items') =
    cfg.entries items ++ entriesFrom cfg.hashOf (cfg.dat items).length items' := by
  rw [entries, entriesFrom_append, length_dat]
  rfl

end Config

/-- The entries of bucket `n` among the entries of a database. -/
def share (buckets modulus n : Nat) (es : List Entry) : List Entry :=
  es.filter fun e => bucketIndex e.hash buckets modulus = n

/-- A chain that has spill records has entries in front of them. -/
def Chain.Rooted {cap : Nat} (c : Chain cap) : Prop := c.top = [] → c.spilled = []

/-- A handle and a data file that represent a chain. -/
def Carries (blockSize : Nat) (dat : Bytes) (c : Chain (bucketCapacity blockSize)) (b : Bucket) :
    Prop :=
  ∃ s, b.Shows blockSize c.top s ∧ SpillAt true dat s c.spilled

theorem Carries.mono {blockSize : Nat} {dat dat' : Bytes} {c : Chain (bucketCapacity blockSize)}
    {b : Bucket} (h : Carries blockSize dat c b) (hd : dat <+: dat') :
    Carries blockSize dat' c b := by
  obtain ⟨s, hb, hs⟩ := h
  exact ⟨s, hb, hs.mono hd⟩

/-- Bucket `n` is in the cache, or else in the key file. -/
def Config.Found (cfg : Config) (dat key : Bytes) (c1 : Cache) (n : Nat) (c : Chain cfg.capacity) :
    Prop :=
  match c1.lookup n with
  | some p => Carries cfg.blockSize dat c (Bucket.ofBlob cfg.blockSize p)
  | none => Holds true cfg.blockSize dat c (slice key ((n + 1) * cfg.blockSize) cfg.blockSize)

/-- Bucket `n` and its spill records have the entries `es`. -/
def Config.Has (cfg : Config) (dat key : Bytes) (c1 : Cache) (n : Nat) (es : List Entry) : Prop :=
  ∃ c : Chain cfg.capacity, cfg.Found dat key c1 n c ∧ c.Rooted ∧ c.entries.Perm es

/-- The buckets, as a reader finds them, have the entries `placed`. -/
structure View (cfg : Config) (dat key : Bytes) (c1 : Cache) (buckets modulus : Nat)
    (placed : List Entry) : Prop where
  sized : Sized buckets modulus
  has : ∀ n < buckets, cfg.Has dat key c1 n (share buckets modulus n placed)
  valid : ∀ e ∈ placed, e.Valid

/-- The records of a data file. -/
structure Stocked (cfg : Config) (items : List Item) : Prop where
  fits : ∀ e ∈ cfg.entries items, e.offset < 256 ^ 6
  storable : ∀ r ∈ records items, Storable cfg r
  keys : ((records items).map Prod.fst).Nodup
  spills : ∀ es next, .spill es next ∈ items → es.length = cfg.capacity
  size : (cfg.dat items).length < 2 ^ 49

/-- A whole database: its data file and its key file. -/
structure Table (cfg : Config) (items : List Item) (key : Bytes) (buckets modulus : Nat) : Prop
    extends Stocked cfg items,
      View cfg (cfg.dat items) key ∅ buckets modulus (cfg.entries items) where
  header : key.take cfg.blockSize = cfg.headerBlock
  length : key.length = (buckets + 1) * cfg.blockSize
  bounded : buckets ≤ 2 ^ 32

end Metcalfe.Nudb
