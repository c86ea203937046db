import Metcalfe.Nudb.Build

/-!
# Looking a key up while the data file grows

`fetch` and `exists` of a store that is open go through a bucket and its spill records and read the
data file once for each entry that has the hash of the key. Between two reads the thread that
commits may append to the file. `Walk` is where such a lookup stands, `Walk.next` one step of it.

`Seeks` says what a lookup that is under way is going to find. Appending to the data file does not
change it (`Seeks.mono`), and a lookup that ends has found it (`Seeks.next_ends`); what a lookup
starts with is what the database holds for the key (`View.lookup`).
-/

namespace Metcalfe.Nudb

open BigEndian Outcome LinearHash

/-- A loaded bucket, and the position in it. -/
structure Walk where
  b : Bucket
  i : Nat

namespace Walk

/-- Where a lookup of hash `h` starts in a bucket. -/
def start (h : Nat) (b : Bucket) : Walk := ⟨b, b.lowerBound h⟩

/-- One round of the loops of `fetch` and `exists`: the lookup goes on, or it ends with the rest of
a record or with nothing. `fetch` reads the value of a record too, `exists` only the key. -/
def next (blockSize keySize : Nat) (value : Bool) (h : Nat) (key dat : Bytes) (w : Walk) :
    Except Stop (Walk ⊕ Option Bytes) :=
  if w.i < w.b.size ∧ (w.b.at_ w.i).hash = h then do
    let item := w.b.at_ w.i
    let buf ← readAt dat (item.offset + 6) (keySize + if value then item.size else 0)
    if buf.take keySize = key then pure (.inr (some (buf.drop keySize)))
    else pure (.inl { w with i := w.i + 1 })
  else if w.b.spill = 0 then pure (.inr none)
  else do
    let b ← Bucket.read blockSize dat w.b.spill
    pure (.inl (start h b))

end Walk

/-! ## A file that grows -/

section Growing

variable {f f' s : Bytes} {offset n : Nat}

theorem readAt_mono (h : readAt f offset n = .ok s) (hf : f <+: f') :
    readAt f' offset n = .ok s := by
  obtain ⟨t, rfl⟩ := hf
  unfold readAt at h ⊢
  split at h
  · cases h
  · rename_i hin
    rw [Except.ok.injEq] at h
    rw [if_neg (by rw [List.length_append]; omega), ← h]
    by_cases hn : 0 < n
    · rw [slice_append_of_le (by omega)]
    · obtain rfl : n = 0 := by omega
      simp [slice]

theorem Bucket.read_mono {blockSize : Nat} {b : Bucket} (h : Bucket.read blockSize f offset = .ok b)
    (hf : f <+: f') : Bucket.read blockSize f' offset = .ok b := by
  obtain ⟨p, hp, hb⟩ := bind_eq_ok.mp h
  exact bind_eq_ok.mpr ⟨p, readAt_mono hp hf, hb⟩

theorem Walk.next_mono {blockSize keySize h : Nat} {value : Bool} {key : Bytes} {w : Walk}
    {y : Walk ⊕ Option Bytes} (hw : w.next blockSize keySize value h key f = .ok y)
    (hf : f <+: f') : w.next blockSize keySize value h key f' = .ok y := by
  unfold Walk.next at hw ⊢
  split at hw
  · rename_i hcond
    rw [if_pos hcond]
    obtain ⟨buf, hbuf, hy⟩ := bind_eq_ok.mp hw
    exact bind_eq_ok.mpr ⟨buf, readAt_mono hbuf hf, hy⟩
  · rename_i hcond
    rw [if_neg hcond]
    split at hw
    · rename_i hspill
      rw [if_pos hspill]
      exact hw
    · rename_i hspill
      rw [if_neg hspill]
      obtain ⟨b, hb, hy⟩ := bind_eq_ok.mp hw
      exact bind_eq_ok.mpr ⟨b, Bucket.read_mono hb hf, hy⟩

end Growing

/-- The reader of a data file. -/
def Config.reader (cfg : Config) (dat : Bytes) : Store := cfg.store dat [] 0 0

section Reading

variable {cfg : Config} {dat dat' key : Bytes} {e : Entry} {es : List Entry} {n s : Nat}
  {target : Option Bytes}

theorem Sound.mono (h : (cfg.reader dat).Sound e) (hd : dat <+: dat') :
    (cfg.reader dat').Sound e ∧ (cfg.reader dat').keyAt e = (cfg.reader dat).keyAt e ∧
      (cfg.reader dat').valueAt e = (cfg.reader dat).valueAt e := by
  obtain ⟨t, rfl⟩ := hd
  have hin : e.offset + 6 + (cfg.keySize + e.size) ≤ dat.length := h.inside
  refine ⟨⟨h.valid, ?_⟩, ?_, ?_⟩
  · show e.offset + 6 + (cfg.keySize + e.size) ≤ (dat ++ t).length
    rw [List.length_append]
    omega
  · exact slice_append_of_le (show e.offset + 6 + cfg.keySize ≤ dat.length by omega)
  · exact slice_append_of_le (show e.offset + 6 + cfg.keySize + e.size ≤ dat.length by omega)

/-- What is found for `key` among the entries. -/
def Config.found (cfg : Config) (dat key : Bytes) (es : List Entry) : Option Bytes :=
  (es.find? ((cfg.reader dat).hit (cfg.hashOf key) key)).map (cfg.reader dat).valueAt

theorem found_mono (h : ∀ e ∈ es, (cfg.reader dat).Sound e) (hd : dat <+: dat') :
    cfg.found dat' key es = cfg.found dat key es := by
  unfold Config.found
  induction es with
  | nil => rfl
  | cons e es ih =>
    obtain ⟨-, hkey, hvalue⟩ := Sound.mono (h e List.mem_cons_self) hd
    have hhit : (cfg.reader dat').hit (cfg.hashOf key) key e =
        (cfg.reader dat).hit (cfg.hashOf key) key e := by
      rw [Store.hit, Store.hit, hkey]
    have hrest := ih fun e' he' => h e' (List.mem_cons_of_mem _ he')
    rw [List.find?_cons, List.find?_cons, hhit]
    cases (cfg.reader dat).hit (cfg.hashOf key) key e with
    | true => rw [Option.map_some, Option.map_some, hvalue]
    | false => exact hrest

/-- A lookup stands in a bucket with the entries `es`, in front of the spill records. -/
structure Walk.At (cfg : Config) (dat key : Bytes) (w : Walk) (es : List Entry) (s : Nat)
    (spilled : List (List Entry)) : Prop where
  bucket : w.b.Shows cfg.blockSize es s
  spill : SpillAt true dat s spilled
  sorted : ∀ l ∈ es :: spilled, l.Pairwise Entry.before
  full : ∀ l ∈ spilled, l.length = cfg.capacity
  sound : ∀ l ∈ es :: spilled, ∀ e ∈ l, (cfg.reader dat).Sound e
  ge : ∀ e ∈ es.drop w.i, cfg.hashOf key ≤ e.hash

/-- The rounds that are left, at most: one for each entry and one for each spill record. -/
def roundsLeft (es : List Entry) (spilled : List (List Entry)) : Nat :=
  es.length + (spilled.map fun l => l.length + 1).sum

/-- The entries that are left of the bucket and the spill records have `target` for the key, and
at most `n` rounds are left after the next. -/
def SeeksIn (cfg : Config) (dat key : Bytes) (target : Option Bytes) (n : Nat) (w : Walk) : Prop :=
  ∃ es s spilled, w.At cfg dat key es s spilled ∧
    cfg.found dat key (es.drop w.i ++ spilled.flatten) = target ∧
    roundsLeft (es.drop w.i) spilled ≤ n

def Seeks (cfg : Config) (dat key : Bytes) (target : Option Bytes) (w : Walk) : Prop :=
  ∃ n, SeeksIn cfg dat key target n w

theorem Seeks.mono {w : Walk} (h : Seeks cfg dat key target w) (hd : dat <+: dat') :
    Seeks cfg dat' key target w := by
  obtain ⟨n, es, s, spilled, hat, hfound, hleft⟩ := h
  refine ⟨n, es, s, spilled, ⟨hat.bucket, hat.spill.mono hd, hat.sorted, hat.full, ?_, hat.ge⟩, ?_,
    hleft⟩
  · exact fun l hl e he => (Sound.mono (hat.sound l hl e he) hd).1
  · rw [found_mono _ hd, hfound]
    intro e he
    rcases List.mem_append.mp he with he | he
    · exact hat.sound es List.mem_cons_self e (List.mem_of_mem_drop he)
    · obtain ⟨l, hl, hel⟩ := List.mem_flatten.mp he
      exact hat.sound l (List.mem_cons_of_mem _ hl) e hel

theorem Seeks.sizeAt_lt {w : Walk} (h : Seeks cfg dat key target w) (hi : w.i < w.b.size) :
    w.b.sizeAt w.i < 2 ^ 32 := by
  obtain ⟨n, es, s, spilled, hat, -, -⟩ := h
  exact hat.bucket.sizeAt_lt hi fun e he => (hat.sound es List.mem_cons_self e he).valid

theorem found_append {es' : List Entry}
    (h : ∀ e ∈ es, (cfg.reader dat).hit (cfg.hashOf key) key e = false) :
    cfg.found dat key (es ++ es') = cfg.found dat key es' := by
  unfold Config.found
  rw [List.find?_append, List.find?_eq_none.mpr fun e he => by simp [h e he], Option.none_or]

/-- A lookup that starts in a bucket. -/
theorem seeks_start {b : Bucket} {spilled : List (List Entry)} (hshows : b.Shows cfg.blockSize es s)
    (hspill : SpillAt true dat s spilled) (hsorted : ∀ l ∈ es :: spilled, l.Pairwise Entry.before)
    (hfull : ∀ l ∈ spilled, l.length = cfg.capacity)
    (hsound : ∀ l ∈ es :: spilled, ∀ e ∈ l, (cfg.reader dat).Sound e)
    (hfound : cfg.found dat key (es :: spilled).flatten = target) :
    SeeksIn cfg dat key target (roundsLeft es spilled) (Walk.start (cfg.hashOf key) b) := by
  obtain ⟨post, hp⟩ := hshows.blob
  obtain ⟨-, hleft, hright⟩ := Bucket.lowerBound_encode hp hshows.count
    (hsorted es List.mem_cons_self)
    (fun e he => (hsound es List.mem_cons_self e he).valid.hash) (cfg.hashOf key)
  refine ⟨es, s, spilled, ⟨hshows, hspill, hsorted, hfull, hsound, hright⟩, ?_, ?_⟩
  · rw [← hfound, List.flatten_cons]
    conv_rhs => rw [← List.take_append_drop (b.lowerBound (cfg.hashOf key)) es, List.append_assoc]
    symm
    apply found_append
    intro e he
    have := hleft e he
    simp [Store.hit]
    omega
  · rw [roundsLeft, roundsLeft, List.length_drop]
    omega

/-- A round in which the record of an entry is read. -/
theorem Walk.At.next_of_hash {w : Walk} {spilled : List (List Entry)}
    (hat : w.At cfg dat key es s spilled) (hlt : w.i < es.length)
    (hhash : es[w.i].hash = cfg.hashOf key) (value : Bool) :
    w.next cfg.blockSize cfg.keySize value (cfg.hashOf key) key dat =
      if (cfg.reader dat).keyAt es[w.i] = key then
        .ok (.inr (some (if value then (cfg.reader dat).valueAt es[w.i] else [])))
      else .ok (.inl { w with i := w.i + 1 }) := by
  have he := hat.sound es List.mem_cons_self es[w.i] (List.getElem_mem hlt)
  have hitem : w.b.at_ w.i = es[w.i] := hat.bucket.at hlt he.valid
  have hin : es[w.i].offset + 6 + (cfg.keySize + es[w.i].size) ≤ dat.length := he.inside
  have hkeyLen : ((cfg.reader dat).keyAt es[w.i]).length = cfg.keySize := Store.length_keyAt he
  have hvalue : slice dat (es[w.i].offset + 6 + cfg.keySize) (if value then es[w.i].size else 0) =
      if value then (cfg.reader dat).valueAt es[w.i] else [] := by
    cases value with
    | true => rfl
    | false => simp [slice]
  unfold Walk.next
  rw [if_pos ⟨hat.bucket.count.symm ▸ hlt, by rw [hitem, hhash]⟩, hitem]
  dsimp only
  rw [readAt_of_le (by split <;> omega), ← slice_append_slice, hvalue]
  show (if ((cfg.reader dat).keyAt es[w.i] ++ _).take cfg.keySize = key then
    (pure (Sum.inr (some (((cfg.reader dat).keyAt es[w.i] ++ _).drop cfg.keySize))) :
      Except Stop (Walk ⊕ Option Bytes)) else _) = _
  rw [List.take_left' hkeyLen, List.drop_left' hkeyLen]
  rfl

/-- The entries are sorted: when the next one has another hash, so have all that follow. -/
theorem Walk.At.misses {w : Walk} {spilled : List (List Entry)}
    (hat : w.At cfg dat key es s spilled)
    (hne : ∀ hlt : w.i < es.length, es[w.i].hash ≠ cfg.hashOf key) :
    ∀ e ∈ es.drop w.i, (cfg.reader dat).hit (cfg.hashOf key) key e = false := by
  by_cases hlt : w.i < es.length
  · have hdrop : es.drop w.i = es[w.i] :: es.drop (w.i + 1) := List.drop_eq_getElem_cons hlt
    have hne := hne hlt
    have hge := hat.ge es[w.i] (by rw [hdrop]; exact List.mem_cons_self)
    have hpair : (es.drop w.i).Pairwise Entry.before := (hat.sorted es List.mem_cons_self).drop
    rw [hdrop] at hpair ⊢
    intro e hmem
    have hle : es[w.i].hash ≤ e.hash := by
      rcases List.mem_cons.mp hmem with rfl | hmem
      · exact le_rfl
      · exact (List.pairwise_cons.mp hpair).1 e hmem
    simp [Store.hit]
    omega
  · rw [List.drop_of_length_le (not_lt.mp hlt)]
    simp

/-- The spill record that follows is read, and the lookup starts anew in it. -/
theorem Walk.At.spill_ends {w : Walk} {es' : List Entry} {spilled : List (List Entry)}
    (hat : w.At cfg dat key es s (es' :: spilled))
    (hfound : cfg.found dat key (es' :: spilled).flatten = target) :
    s ≠ 0 ∧ Ends (Bucket.read cfg.blockSize dat s)
      (fun b => SeeksIn cfg dat key target (roundsLeft es' spilled)
        (Walk.start (cfg.hashOf key) b)) (fun _ => False) := by
  obtain ⟨hpos, -, hle, s', hslice, hrest⟩ := hat.spill
  have hlen := hat.full es' List.mem_cons_self
  have hs' := Store.SpillAt.lt (.inl rfl) hrest
  rw [hlen] at hle hslice
  rw [← List.append_nil (encode es' s')] at hslice
  rw [Store.read_encode cfg.blockSize_lt cfg.capacity_pos hle hlen.le hslice]
  have hshows : Bucket.Shows ⟨cfg.blockSize, es'.length, s' % 256 ^ 6, encode es' s' ++ []⟩
      cfg.blockSize es' s' := ⟨rfl, rfl, Nat.mod_eq_of_lt hs', [], rfl⟩
  exact ⟨hpos.ne', seeks_start hshows hrest
    (fun l hl => hat.sorted l (List.mem_cons_of_mem _ hl))
    (fun l hl => hat.full l (List.mem_cons_of_mem _ hl))
    (fun l hl => hat.sound l (List.mem_cons_of_mem _ hl)) hfound⟩

/-- A round that is not the last leaves what is sought and less to do, and the last one finds it. -/
theorem SeeksIn.next_ends {w : Walk} (h : SeeksIn cfg dat key target n w) (value : Bool) :
    Ends (w.next cfg.blockSize cfg.keySize value (cfg.hashOf key) key dat)
      (fun
        | .inl w' => ∃ m < n, SeeksIn cfg dat key target m w'
        | .inr r => r.isSome = target.isSome ∧ (value = true → r = target))
      (fun _ => False) := by
  obtain ⟨es, s, spilled, hat, hfound, hleft⟩ := h
  by_cases hcond : ∃ hlt : w.i < es.length, es[w.i].hash = cfg.hashOf key
  · obtain ⟨hlt, hhash⟩ := hcond
    have hdrop : es.drop w.i = es[w.i] :: es.drop (w.i + 1) := List.drop_eq_getElem_cons hlt
    rw [hat.next_of_hash hlt hhash]
    rw [hdrop, List.cons_append] at hfound
    unfold Config.found at hfound
    by_cases hkey : (cfg.reader dat).keyAt es[w.i] = key
    · rw [if_pos hkey]
      rw [List.find?_cons_of_pos (by simp [Store.hit, hhash, hkey]), Option.map_some] at hfound
      subst hfound
      exact ⟨rfl, fun hvalue => by rw [if_pos hvalue]⟩
    · rw [if_neg hkey]
      rw [List.find?_cons_of_neg (by simp [Store.hit, hkey])] at hfound
      refine ⟨roundsLeft (es.drop (w.i + 1)) spilled, ?_, es, s, spilled,
        ⟨hat.bucket, hat.spill, hat.sorted, hat.full, hat.sound, fun e hmem => ?_⟩, hfound, le_rfl⟩
      · rw [hdrop] at hleft
        rw [roundsLeft, List.length_cons] at hleft
        rw [roundsLeft]
        omega
      · exact hat.ge e (by rw [hdrop]; exact List.mem_cons_of_mem _ hmem)
  · have hne : ∀ hlt : w.i < es.length, es[w.i].hash ≠ cfg.hashOf key :=
      fun hlt hhash => hcond ⟨hlt, hhash⟩
    rw [found_append (hat.misses hne)] at hfound
    unfold Walk.next
    rw [if_neg, hat.bucket.points]
    · cases spilled with
      | nil =>
        rw [if_pos (show s = 0 from hat.spill), ← hfound]
        exact ⟨rfl, fun _ => rfl⟩
      | cons es' spilled =>
        obtain ⟨hpos, hread⟩ := hat.spill_ends hfound
        rw [if_neg hpos]
        refine hread.bind fun b hb => ⟨roundsLeft es' spilled, ?_, hb⟩
        rw [roundsLeft, List.map_cons, List.sum_cons] at hleft
        rw [roundsLeft]
        omega
    · rintro ⟨hlt, hhash⟩
      rw [hat.bucket.count] at hlt
      have he := hat.sound es List.mem_cons_self es[w.i] (List.getElem_mem hlt)
      rw [hat.bucket.at hlt he.valid] at hhash
      exact hne hlt hhash

theorem Seeks.next_ends {w : Walk} (h : Seeks cfg dat key target w) (value : Bool) :
    Ends (w.next cfg.blockSize cfg.keySize value (cfg.hashOf key) key dat)
      (fun
        | .inl w' => Seeks cfg dat key target w'
        | .inr r => r.isSome = target.isSome ∧ (value = true → r = target))
      (fun _ => False) := by
  obtain ⟨n, h⟩ := h
  refine (h.next_ends value).mono (fun y hy => ?_) fun _ h => h
  cases y with
  | inl w' =>
    obtain ⟨m, -, hw'⟩ := hy
    exact ⟨m, hw'⟩
  | inr r => exact hy

/-- A lookup ends. -/
theorem Seeks.ends {w : Walk} (h : Seeks cfg dat key target w) (value : Bool) {P : Walk → Prop}
    (hlast : ∀ w r, w.next cfg.blockSize cfg.keySize value (cfg.hashOf key) key dat = .ok (.inr r) →
      P w)
    (hnext : ∀ w w', w.next cfg.blockSize cfg.keySize value (cfg.hashOf key) key dat =
      .ok (.inl w') → P w' → P w) : P w := by
  obtain ⟨n, h⟩ := h
  induction n using Nat.strong_induction_on generalizing w with
  | _ n ih =>
    have hends := h.next_ends value
    cases hy : w.next cfg.blockSize cfg.keySize value (cfg.hashOf key) key dat with
    | error e =>
      rw [hy] at hends
      exact hends.elim
    | ok y =>
      rw [hy] at hends
      cases y with
      | inl w' =>
        obtain ⟨m, hm, hw'⟩ := hends
        exact hnext w w' hy (ih m hm hw')
      | inr r => exact hlast w r hy

end Reading

/-! ## Where a lookup starts -/

section Starting

variable {cfg : Config} {dat dat' file k : Bytes} {items : List Item} {c1 : Cache}
  {buckets modulus n : Nat} {target : Option Bytes}

theorem lookup_eq_some_iff_mem {l : List (Bytes × Bytes)} (h : (l.map Prod.fst).Nodup)
    {v : Bytes} : l.lookup k = some v ↔ (k, v) ∈ l := by
  constructor
  · intro hl
    obtain ⟨l₁, l₂, rfl, -⟩ := List.lookup_eq_some_iff.mp hl
    simp
  · intro hmem
    obtain ⟨l₁, l₂, rfl⟩ := List.append_of_mem hmem
    rw [List.map_append, List.map_cons, List.nodup_append] at h
    refine List.lookup_eq_some_iff.mpr ⟨l₁, l₂, rfl, fun p hp => ?_⟩
    rw [bne_iff_ne]
    intro heq
    exact h.2.2 p.1 (List.mem_map_of_mem hp) k List.mem_cons_self heq.symm

/-- The entries of a database point to its records. -/
theorem Stocked.read (h : Stocked cfg items) (hd : cfg.dat items <+: dat) :
    (cfg.entries items).map (fun e => ((cfg.reader dat).keyAt e, (cfg.reader dat).valueAt e)) =
        records items ∧
      ∀ e ∈ cfg.entries items, e.hash = cfg.hashOf ((cfg.reader dat).keyAt e) ∧
        (cfg.reader dat).Sound e := by
  obtain ⟨t, ht⟩ := hd
  have hdat : (cfg.reader dat).dat =
      writeDatFileHeader cfg.datFileHeader ++ (items.flatMap Item.bytes ++ t) := by
    show dat = _
    rw [← ht, Config.dat, List.append_assoc]
  obtain ⟨hmap, hentries⟩ := entriesFrom_read (show (cfg.reader dat).kh.keySize = cfg.keySize
    from rfl) h.storable hdat
  rw [length_writeDatFileHeader] at hmap hentries
  refine ⟨hmap, fun e he => ?_⟩
  obtain ⟨hhash, hsize, hin⟩ := hentries e he
  refine ⟨hhash, ⟨h.fits e he, hsize, ?_⟩, hin⟩
  rw [hhash]
  exact cfg.hashOf_lt _

/-- The entries of the bucket of a key have what the database has for it. -/
theorem Stocked.found (h : Stocked cfg items) (hd : cfg.dat items <+: dat) {es : List Entry}
    (hes : es.Perm (share buckets modulus (bucketIndex (cfg.hashOf k) buckets modulus)
      (cfg.entries items))) : cfg.found dat k es = (records items).lookup k := by
  obtain ⟨hmap, hentries⟩ := h.read hd
  have hmem : ∀ e, e ∈ es ↔ e ∈ cfg.entries items ∧
      bucketIndex e.hash buckets modulus = bucketIndex (cfg.hashOf k) buckets modulus := by
    intro e
    rw [hes.mem_iff, share, List.mem_filter, decide_eq_true_eq]
  have hhit : ∀ e ∈ es, (cfg.reader dat).hit (cfg.hashOf k) k e = true →
      (k, (cfg.reader dat).valueAt e) ∈ records items := by
    intro e he hit
    rw [Store.hit, Bool.and_eq_true, decide_eq_true_eq, decide_eq_true_eq] at hit
    rw [← hmap, List.mem_map]
    exact ⟨e, ((hmem e).mp he).1, by rw [hit.2]⟩
  unfold Config.found
  cases hfind : es.find? ((cfg.reader dat).hit (cfg.hashOf k) k) with
  | some e =>
    have hrecord := hhit e (List.mem_of_find?_eq_some hfind) (List.find?_some hfind)
    rw [Option.map_some, (lookup_eq_some_iff_mem h.keys).mpr hrecord]
  | none =>
    rw [Option.map_none]
    cases hlookup : (records items).lookup k with
    | none => rfl
    | some v =>
      have hrecord := (lookup_eq_some_iff_mem h.keys).mp hlookup
      rw [← hmap, List.mem_map] at hrecord
      obtain ⟨e, he, heq⟩ := hrecord
      rw [Prod.mk.injEq] at heq
      have hhash := (hentries e he).1
      rw [heq.1] at hhash
      have hnot := List.find?_eq_none.mp hfind e ((hmem e).mpr ⟨he, by rw [hhash]⟩)
      exact absurd (by simp [Store.hit, hhash, heq.1]) hnot

/-- Block `n` of the key file has `target` for the key. -/
structure OnBlock (cfg : Config) (dat file : Bytes) (n : Nat) (k : Bytes)
    (target : Option Bytes) : Prop where
  le : (n + 2) * cfg.blockSize ≤ file.length
  chain : ∃ c : Chain cfg.capacity,
    Holds true cfg.blockSize dat c (slice file ((n + 1) * cfg.blockSize) cfg.blockSize) ∧
    (∀ e ∈ c.entries, (cfg.reader dat).Sound e) ∧ cfg.found dat k c.entries = target

theorem OnBlock.mono (h : OnBlock cfg dat file n k target) (hd : dat <+: dat') :
    OnBlock cfg dat' file n k target := by
  obtain ⟨c, hholds, hsound, hfound⟩ := h.chain
  exact ⟨h.le, c, hholds.mono hd, fun e he => (Sound.mono (hsound e he) hd).1,
    by rw [found_mono hsound hd, hfound]⟩

/-- Only the block itself counts. -/
theorem OnBlock.congr {file' : Bytes} (h : OnBlock cfg dat file n k target)
    (hle : (n + 2) * cfg.blockSize ≤ file'.length)
    (hslice : slice file' ((n + 1) * cfg.blockSize) cfg.blockSize =
      slice file ((n + 1) * cfg.blockSize) cfg.blockSize) : OnBlock cfg dat file' n k target := by
  obtain ⟨c, hholds, hsound, hfound⟩ := h.chain
  exact ⟨hle, c, by rwa [hslice], hsound, hfound⟩

theorem Chain.mem_entries {cap : Nat} {c : Chain cap} {l : List Entry} {e : Entry}
    (hl : l ∈ c.top :: c.spilled) (he : e ∈ l) : e ∈ c.entries :=
  List.mem_flatten.mpr ⟨l, hl, he⟩

theorem seeks_of_carries {c : Chain cfg.capacity} {b : Bucket} (h : Carries cfg.blockSize dat c b)
    (hsound : ∀ e ∈ c.entries, (cfg.reader dat).Sound e)
    (hfound : cfg.found dat k c.entries = target) :
    Seeks cfg dat k target (Walk.start (cfg.hashOf k) b) := by
  obtain ⟨s, hshows, hspill⟩ := h
  exact ⟨_, seeks_start hshows hspill c.sorted c.full
    (fun l hl e he => hsound e (c.mem_entries hl he)) hfound⟩

/-- The bucket that is read from the key file. -/
theorem OnBlock.read_ends (h : OnBlock cfg dat file n k target) :
    Ends (Bucket.read cfg.blockSize file ((n + 1) * cfg.blockSize))
      (fun b => Seeks cfg dat k target (Walk.start (cfg.hashOf k) b)) (fun _ => False) := by
  obtain ⟨c, ⟨s, hblob, hspill⟩, hsound, hfound⟩ := h.chain
  have hle := h.le
  have hmul : (n + 2) * cfg.blockSize = (n + 1) * cfg.blockSize + cfg.blockSize := by ring
  have hin := bucketSize_capacity_le cfg.capacity_pos
  have hs := Store.SpillAt.lt (.inl rfl) hspill
  obtain ⟨post, hpost⟩ := blob_cut cfg.capacity_pos c.top_le hblob
  rw [Store.read_encode cfg.blockSize_lt cfg.capacity_pos (by omega) c.top_le hpost]
  exact seeks_of_carries ⟨s, ⟨rfl, rfl, Nat.mod_eq_of_lt hs, post, rfl⟩, hspill⟩ hsound hfound

/-- What a lookup starts with, in the cache or in the key file, has what the database has. -/
theorem View.lookup (h : View cfg dat file c1 buckets modulus (cfg.entries items))
    (hstocked : Stocked cfg items) (hd : cfg.dat items <+: dat) (k : Bytes)
    (hn : bucketIndex (cfg.hashOf k) buckets modulus = n) :
    match c1.lookup n with
    | some p => Seeks cfg dat k ((records items).lookup k)
        (Walk.start (cfg.hashOf k) (Bucket.ofBlob cfg.blockSize p))
    | none => (n + 2) * cfg.blockSize ≤ file.length →
        OnBlock cfg dat file n k ((records items).lookup k) := by
  have hlt : n < buckets := by
    rw [← hn]
    exact index_lt h.sized _
  obtain ⟨c, hfound, -, hperm⟩ := h.has n hlt
  have hsound : ∀ e ∈ c.entries, (cfg.reader dat).Sound e := by
    intro e he
    exact ((hstocked.read hd).2 e (List.mem_of_mem_filter (hperm.mem_iff.mp he))).2
  have heq : cfg.found dat k c.entries = (records items).lookup k :=
    hstocked.found hd (by rwa [hn])
  unfold Config.Found at hfound
  cases hp : c1.lookup n with
  | some p =>
    rw [hp] at hfound
    exact seeks_of_carries hfound hsound heq
  | none =>
    rw [hp] at hfound
    exact fun hle => ⟨hle, c, hfound, hsound, heq⟩

end Starting

end Metcalfe.Nudb
