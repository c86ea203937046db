import Metcalfe.Nudb.Threads

/-!
# What the callers are served from

`Serves` says, for each phase of the commit, what the data file, the key file and the cache have,
and which records are saved and which are being saved. From it follow what a lookup that begins now
finds (`Serves.served`), what the reads of a lookup see at each moment (`Serves.reads`), and what
another process finds if this one is ended (`Serves.either`). The steps of the commit keep it.
-/

namespace Metcalfe.Nudb

open BigEndian Durable Stateful

abbrev Records := List (Bytes × Bytes)

/-- The parameters of an open store are those of the database. -/
def Config.Runs (cfg : Config) (st : Live) : Prop :=
  st.hasher = cfg.hasher ∧ ∃ n, st.kh = cfg.keyFileHeader n

/-- What a lookup that begins now is served from: a data file, a key file and the cache. -/
structure Served (cfg : Config) (st : Live) (items : List Item) (key : Bytes)
    (saved saving : Records) : Prop where
  stocked : Stocked cfg items
  view : View cfg (cfg.dat items) key st.c1 st.buckets st.modulus (cfg.entries items)
  blocks : ∀ n < st.buckets, n ∉ st.c1 → (n + 2) * cfg.blockSize ≤ key.length
  records : records items ++ st.p0.values.map Value.record = saved ++ saving
  bounded : st.buckets ≤ 2 ^ 32

/-- The buckets that were built are the ones that callers see. -/
structure Published (cfg : Config) (st : Live) (old : List Item) (key : Bytes) (buckets : Nat)
    (values : List Value) (x : Draft) (saved saving : Records) : Prop where
  table : ∃ modulus, Table cfg old key buckets modulus
  p0 : st.p0.values = []
  c1 : st.c1 = x.c1
  buckets_eq : st.buckets = x.buckets
  modulus_eq : st.modulus = x.modulus
  bounded : x.buckets ≤ 2 ^ 32
  saved : records old = saved
  saving : values.map Value.record = saving

inductive Serves (cfg : Config) (st : Live) (items : List Item) (key : Bytes)
    (saved saving : Records) : Phase → Prop
  | rest {fs : Files} (hp0 : st.p0.values = []) (hc1 : st.c1 = ∅)
      (htable : Table cfg items key st.buckets st.modulus) (hrest : Resting (cfg.dat items) key fs)
      (hsaved : records items = saved) (hsaving : saving = []) :
      Serves cfg st items key saved saving (.rest fs)
  | saving {d : Disk} {t : Tick} (hc1 : st.c1 = ∅)
      (htable : Table cfg items key st.buckets st.modulus)
      (hrest : Resting (cfg.dat items) key d.files) (hadd : Addable cfg items st.p0.values)
      (hbounded : st.buckets + st.p0.values.length ≤ 2 ^ 32) (hsaved : records items = saved)
      (hsaving : st.p0.values.map Value.record = saving) :
      Serves cfg st items key saved saving (.saving d t)
  | logging {old : List Item} {buckets : Nat} {values : List Value} {x : Draft} {d : Disk}
      {t : Tick} (hpub : Published cfg st old key buckets values x saved saving)
      (h : Prepared cfg old key buckets values items x d.files) :
      Serves cfg st items key saved saving (.logging x.c0 d t)
  | waiting {old : List Item} {buckets : Nat} {values : List Value} {x : Draft} {fs : Files}
      (hpub : Published cfg st old key buckets values x saved saving)
      (h : Secured cfg old key buckets values items x fs) :
      Serves cfg st items key saved saving (.waiting fs)
  | writing {old : List Item} {buckets : Nat} {values : List Value} {x : Draft} {d : Disk}
      {t : Tick} (hpub : Published cfg st old key buckets values x saved saving)
      (h : Secured cfg old key buckets values items x d.files) :
      Serves cfg st items key saved saving (.writing d t)
  | stopped {fs : Files} (hserved : Served cfg st items key saved saving)
      (hdat : cfg.dat items <+: fs.bytes .dat) (hkey : fs.bytes .key = key)
      (heither : Either cfg saved saving fs) : Serves cfg st items key saved saving (.stopped fs)

/-- The blocks of the buckets in `c1` change. -/
def Phase.Writes : Phase → Prop
  | .writing _ _ => True
  | _ => False

section Phases

variable {cfg : Config} {st : Live} {items : List Item} {key : Bytes} {saved saving : Records}
  {p : Phase} {order : Cache.Order}

theorem Published.served {old : List Item} {buckets : Nat} {values : List Value} {x : Draft}
    (h : Published cfg st old key buckets values x saved saving)
    (hbuilt : Built cfg old key buckets values items x) :
    Served cfg st items key saved saving := by
  obtain ⟨modulus, htable⟩ := h.table
  refine ⟨hbuilt.stocked, ?_, fun n hn hc1 => ?_, ?_, by rw [h.buckets_eq]; exact h.bounded⟩
  · rw [h.c1, h.buckets_eq, h.modulus_eq]
    exact hbuilt.drafted.view
  · rw [h.buckets_eq] at hn
    rw [h.c1] at hc1
    have hold : n < buckets := by
      by_contra hge
      exact hc1 (hbuilt.drafted.added n (not_lt.mp hge) hn)
    rw [htable.length]
    exact Nat.mul_le_mul_right _ (by omega)
  · rw [h.p0, List.map_nil, List.append_nil, hbuilt.records, h.saved, h.saving]

/-- A table with nothing in the cache. -/
theorem Table.served (htable : Table cfg items key st.buckets st.modulus) (hc1 : st.c1 = ∅)
    (hsaved : records items = saved) (hsaving : st.p0.values.map Value.record = saving) :
    Served cfg st items key saved saving := by
  refine ⟨htable.toStocked, ?_, fun n hn _ => ?_, by rw [hsaved, hsaving], htable.bounded⟩
  · rw [hc1]
    exact htable.toView
  · rw [htable.length]
    exact Nat.mul_le_mul_right _ (by omega)

theorem Serves.served (h : Serves cfg st items key saved saving p) :
    Served cfg st items key saved saving := by
  cases h with
  | rest hp0 hc1 htable _ hsaved hsaving => exact htable.served hc1 hsaved (by rw [hp0, hsaving]; rfl)
  | saving hc1 htable _ _ _ hsaved hsaving => exact htable.served hc1 hsaved hsaving
  | logging hpub h => exact hpub.served h.built
  | waiting hpub h => exact hpub.served h.built
  | writing hpub h => exact hpub.served h.built
  | stopped hserved _ _ _ => exact hserved

theorem Extended.bytes {dat dat' : Bytes} {fs : Files} (h : Extended dat dat' fs) :
    fs.bytes .dat = dat' := by
  obtain ⟨m, hm, hbytes, -⟩ := h
  rw [Files.bytes_of_eq_some hm, hbytes]

theorem Config.Runs.blockSize (h : cfg.Runs st) : st.kh.blockSize = cfg.blockSize := by
  obtain ⟨-, n, hn⟩ := h
  rw [hn]
  rfl

/-- What the reads of a lookup see at any moment. -/
theorem Serves.reads (h : Serves cfg st items key saved saving p) (hruns : cfg.Runs st) :
    cfg.dat items <+: (p.files order st).bytes .dat ∧
      Untouched cfg.blockSize (fun n => p.Writes ∧ n ∈ st.c1) key
        ((p.files order st).bytes .key) := by
  have hsame : ∀ {fs : Files}, fs.bytes .key = key → ∀ P,
      Untouched cfg.blockSize P key (fs.bytes .key) := by
    intro fs hkey P
    rw [hkey]
    exact .refl _ _ _
  have hclean : ∀ {fs : Files}, fs .key = some (Media.clean key) → fs.bytes .key = key :=
    fun hkey => Files.bytes_of_eq_some hkey
  cases h with
  | rest _ _ _ hrest _ _ =>
    refine ⟨?_, hsame (hclean hrest.key) _⟩
    rw [Phase.files, Files.bytes_of_eq_some hrest.dat]
    exact List.prefix_rfl
  | @saving d t hc1 htable hrest hadd _ _ _ =>
    obtain ⟨-, n, hn⟩ := hruns
    have hgrows := moment_of_leads (P := Grows (cfg.dat items) key)
      (prepare_grows (d := d.ending t) htable hrest hn hadd)
    exact ⟨hgrows.dat, hsame hgrows.key _⟩
  | @logging old buckets values x d t hpub h =>
    have hframes := fun (nm : Name) (hne : nm ≠ .log) =>
      moment_of_leads (t := t) (P := fun fs => fs nm = d.files nm)
        (frames_writeLog hne st.kh.blockSize (order.visit x.c0) (d.ending t))
    have hdat := hframes .dat (by simp)
    have hkey := hframes .key (by simp)
    refine ⟨?_, hsame (hclean (hkey.trans h.key)) _⟩
    obtain ⟨m, hm, hbytes, -⟩ := h.dat
    rw [Phase.files, Files.bytes_of_eq_some (hdat.trans hm), hbytes]
  | waiting _ h =>
    refine ⟨?_, hsame (hclean h.key) _⟩
    rw [Phase.files, h.dat.bytes]
  | @writing old buckets values x d t hpub h =>
    obtain ⟨hdat, hkey⟩ := moment_of_leads (t := t) (P := fun fs =>
      fs.bytes .dat = d.files.bytes .dat ∧ Untouched st.kh.blockSize (· ∈ st.c1)
        (d.files.bytes .key) (fs.bytes .key)) (overwrite_untouched st order (d.ending t))
    refine ⟨?_, fun n hn hle => ?_⟩
    · rw [Phase.files, hdat, h.dat.bytes]
    · rw [hclean h.key, hruns.blockSize] at hkey
      exact hkey n (fun hmem => hn ⟨trivial, hmem⟩) hle
  | stopped _ hdat hkey _ => exact ⟨hdat, hsame hkey _⟩

theorem Finished.either {buckets modulus : Nat} {fs : Files} {new : Records}
    (h : Finished cfg items buckets modulus fs) (hrecords : records items = saved ++ new) :
    Either cfg saved new fs := by
  obtain ⟨key, htable, hrest⟩ := h
  exact fun fs' hs => .inr ⟨items, key, _, _, htable, hrecords, hrest.restores.safe fs' hs⟩

/-- What is found if the process is ended at any moment. -/
theorem Serves.either (h : Serves cfg st items key saved saving p) (hruns : cfg.Runs st) :
    Either cfg saved saving (p.files order st) := by
  obtain ⟨hhasher, n, hn⟩ := id hruns
  cases h with
  | rest _ _ htable hrest hsaved _ =>
    rw [← hsaved]
    exact hrest.restores.safe.either htable _
  | @saving d t hc1 htable hrest hadd _ hsaved hsaving =>
    rw [← hsaved]
    apply Safe.either _ htable
    refine moment_of_leads (P := Safe cfg (cfg.dat items) key st.buckets)
      ((prepare_leads (d := d.ending t) htable hrest hn hhasher hadd).mono (fun x d' hx => ?_)
        fun _ _ h => h)
    obtain ⟨items', hprepared⟩ := hx
    exact hprepared.safe
  | @logging old buckets values x d t hpub h =>
    obtain ⟨modulus, htable⟩ := hpub.table
    rw [← hpub.saved]
    apply Safe.either _ htable
    rw [Phase.files, hruns.blockSize]
    exact moment_of_leads (P := Safe cfg (cfg.dat old) key buckets)
      ((secure_leads (d := d.ending t) h order).mono (fun _ _ h => h.safe) fun _ _ h => h)
  | waiting hpub h =>
    obtain ⟨modulus, htable⟩ := hpub.table
    rw [← hpub.saved]
    exact h.safe.either htable _
  | @writing old buckets values x d t hpub h =>
    obtain ⟨modulus, htable⟩ := hpub.table
    rw [← hpub.saved, ← hpub.saving]
    exact moment_of_leads (P := Either cfg (records old) (values.map Value.record))
      ((overwrite_leads (d := d.ending t) h htable hpub.bounded hruns.blockSize hpub.c1 order).mono
        (fun _ _ hf => hf.either h.built.records) fun _ _ h => h)
  | stopped _ _ _ heither => exact heither

/-! ## The steps of the commit -/

theorem Serves.begin_ {fs : Files} (h : Serves cfg st items key saved saving (.rest fs))
    (hpooled : ∀ v ∈ st.p1.values, Pooled cfg v)
    (hnodup : ((saved ++ st.p1.values.map Value.record).map Prod.fst).Nodup)
    (hbounded : st.buckets + st.p1.values.length ≤ 2 ^ 32) (faults : Nat → Option Fault) :
    saving = [] ∧ Serves cfg st.begin_ items key saved (st.p1.values.map Value.record)
      (.saving ⟨fs, 0, faults⟩ ⟨0, 0⟩) := by
  cases h with
  | rest hp0 hc1 htable hrest hsaved hsaving =>
    refine ⟨hsaving, .saving hc1 htable hrest ⟨hpooled, ?_⟩ hbounded hsaved rfl⟩
    rw [hsaved]
    exact hnodup

theorem Serves.next {p' : Phase} (h : Serves cfg st items key saved saving p) (hp : p.Next p') :
    Serves cfg st items key saved saving p' := by
  cases hp with
  | saving d _ =>
    cases h with
    | saving h1 h2 h3 h4 h5 h6 h7 => exact .saving h1 h2 h3 h4 h5 h6 h7
  | logging c0 d _ =>
    cases h with
    | logging hpub h => exact .logging hpub h
  | writing d _ =>
    cases h with
    | writing hpub h => exact .writing hpub h

/-- The new buckets are shown to the callers. -/
theorem Serves.publish {d d' : Disk} {t : Tick} {x : Draft}
    (h : Serves cfg st items key saved saving (.saving d t)) (hruns : cfg.Runs st)
    (hx : st.prepare (d.ending t) = .ok x d') (faults : Nat → Option Fault) :
    ∃ items', cfg.dat items <+: cfg.dat items' ∧ Serves cfg (st.publish x) items' key saved saving
      (.logging x.c0 ⟨d'.files, 0, faults⟩ ⟨0, 0⟩) := by
  obtain ⟨hhasher, n, hn⟩ := hruns
  cases h with
  | saving hc1 htable hrest hadd hbounded hsaved hsaving =>
    obtain ⟨items', hprepared⟩ :=
      (prepare_leads (d := d.ending t) htable hrest hn hhasher hadd).of_ok hx
    have hbuilt := hprepared.built
    refine ⟨items', ?_, .logging ⟨⟨st.modulus, htable⟩, rfl, rfl, rfl, rfl,
      hbuilt.le.trans hbounded, hsaved, hsaving⟩ hprepared⟩
    obtain ⟨l, hl⟩ := hbuilt.isPrefix
    rw [← hl, cfg.dat_append]
    exact List.prefix_append _ _

theorem Serves.logged {c0 : Cache} {d d' : Disk} {t : Tick}
    (h : Serves cfg st items key saved saving (.logging c0 d t)) (hruns : cfg.Runs st)
    (hx : Disk.writeLog st.kh.blockSize (order.visit c0) (d.ending t) = .ok () d') :
    Serves cfg st items key saved saving (.waiting d'.files) := by
  cases h with
  | logging hpub h =>
    rw [hruns.blockSize] at hx
    exact .waiting hpub ((secure_leads (d := d.ending t) h order).of_ok hx)

theorem Serves.finish {fs : Files} (h : Serves cfg st items key saved saving (.waiting fs))
    (faults : Nat → Option Fault) :
    Serves cfg st items key saved saving (.writing ⟨fs, 0, faults⟩ ⟨0, 0⟩) := by
  cases h with
  | waiting hpub h => exact .writing hpub h

/-- The cache is cleared, and the key file has the new buckets. -/
theorem Serves.end_ {d d' : Disk} {t : Tick}
    (h : Serves cfg st items key saved saving (.writing d t)) (hruns : cfg.Runs st)
    (hx : st.overwrite order (d.ending t) = .ok () d') :
    ∃ key', Untouched cfg.blockSize (· ∈ st.c1) key key' ∧
      Serves cfg st.end_ items key' (saved ++ saving) [] (.rest d'.files) := by
  cases h with
  | @writing old buckets values x d t hpub h =>
    obtain ⟨modulus, htable⟩ := hpub.table
    obtain ⟨key', htable', hrest⟩ := (overwrite_leads (d := d.ending t) h htable hpub.bounded
      hruns.blockSize hpub.c1 order).of_ok hx
    have huntouched := ((overwrite_untouched st order (d.ending t)).of_ok hx).2
    rw [hruns.blockSize, Files.bytes_of_eq_some hrest.key,
      Files.bytes_of_eq_some (show (d.ending t).files .key = _ from h.key)] at huntouched
    refine ⟨key', huntouched, .rest hpub.p0 rfl ?_ hrest ?_ rfl⟩
    · rw [← hpub.buckets_eq, ← hpub.modulus_eq] at htable'
      exact htable'
    · rw [h.built.records, hpub.saved, hpub.saving]

theorem Phase.Fails.files_eq {fs : Files} (h : p.Fails order st fs) : p.files order st = fs := by
  cases h with
  | saving hx _ => rw [Phase.files, moment, hx]
  | logging hx _ => rw [Phase.files, moment, hx]
  | writing hx _ => rw [Phase.files, moment, hx]

/-- Only the blocks of the buckets that are not in the cache count. -/
theorem Served.untouched {key' : Bytes} (h : Served cfg st items key saved saving)
    (hkey : Untouched cfg.blockSize (· ∈ st.c1) key key') :
    Served cfg st items key' saved saving := by
  refine ⟨h.stocked, ⟨h.view.sized, fun n hn => ?_, h.view.valid⟩, fun n hn hc1 => ?_, h.records,
    h.bounded⟩
  · obtain ⟨c, hfound, hrooted, hperm⟩ := h.view.has n hn
    refine ⟨c, ?_, hrooted, hperm⟩
    unfold Config.Found at hfound ⊢
    cases hp : st.c1.lookup n with
    | some p => rwa [hp] at hfound
    | none =>
      rw [hp] at hfound
      have hnot : n ∉ st.c1 := AList.lookup_eq_none.mp hp
      rwa [(hkey n hnot (h.blocks n hn hnot)).2]
  · exact (hkey n hc1 (h.blocks n hn hc1)).1

theorem Untouched.mono {blockSize : Nat} {P Q : Nat → Prop} {b b' : Bytes}
    (h : Untouched blockSize P b b') (hPQ : ∀ n, P n → Q n) : Untouched blockSize Q b b' :=
  fun n hn hle => h n (fun hp => hn (hPQ n hp)) hle

/-- The commit has failed; the callers are served as before. -/
theorem Serves.stop {fs : Files} (h : Serves cfg st items key saved saving p)
    (hruns : cfg.Runs st) (hx : p.Fails order st fs) :
    ∃ key', Untouched cfg.blockSize (fun n => p.Writes ∧ n ∈ st.c1) key key' ∧
      Serves cfg st items key' saved saving (.stopped fs) := by
  have hdat : cfg.dat items <+: (p.files order st).bytes .dat := (h.reads hruns).1
  have hkey : Untouched cfg.blockSize (fun n => p.Writes ∧ n ∈ st.c1) key
    ((p.files order st).bytes .key) := (h.reads hruns).2
  have heither : Either cfg saved saving (p.files order st) := h.either hruns
  rw [hx.files_eq] at hdat hkey heither
  refine ⟨fs.bytes .key, hkey, .stopped ?_ hdat rfl heither⟩
  exact h.served.untouched (hkey.mono fun _ => And.right)

/-- An insert goes to the pool that no commit reads. -/
theorem Serves.insert (h : Serves cfg st items key saved saving p) (p1 : Pool) :
    Serves cfg { st with p1 := p1 } items key saved saving p := by
  have hpublished : ∀ {old buckets values x},
      Published cfg st old key buckets values x saved saving →
      Published cfg { st with p1 := p1 } old key buckets values x saved saving :=
    fun h => ⟨h.table, h.p0, h.c1, h.buckets_eq, h.modulus_eq, h.bounded, h.saved, h.saving⟩
  cases h with
  | rest h1 h2 h3 h4 h5 h6 => exact .rest h1 h2 h3 h4 h5 h6
  | saving h1 h2 h3 h4 h5 h6 h7 => exact .saving h1 h2 h3 h4 h5 h6 h7
  | logging hpub h => exact .logging (hpublished hpub) h
  | waiting hpub h => exact .waiting (hpublished hpub) h
  | writing hpub h => exact .writing (hpublished hpub) h
  | stopped h1 h2 h3 h4 =>
    exact .stopped ⟨h1.stocked, h1.view, h1.blocks, h1.records, h1.bounded⟩ h2 h3 h4

end Phases

end Metcalfe.Nudb
