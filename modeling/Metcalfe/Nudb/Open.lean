import Metcalfe.Nudb.CommitKeys
import Metcalfe.Nudb.Recover

/-!
# Opening and closing a store

`basic_store::open` recovers the files, opens them, creates a log file and checks the headers. The
number of buckets comes from the size of the key file, the modulus from the number of buckets.
`basic_store::close`, once the thread that commits has ended, removes the log file.

A store that was opened has the database that its files stood for, and an open that stops leaves
files that stand for it (`open_leads`).
-/

namespace Metcalfe.Nudb

open BigEndian Durable Stateful Outcome

namespace Live

def open_ (hasher : Hasher) (scratch : Bytes) : Act Live := do
  Disk.recover hasher scratch
  Disk.open_ .dat
  Disk.open_ .key
  Disk.create .log
  let dh ← Disk.readDatHeader
  lift .stop (verifyDat dh)
  let kh ← Disk.readKeyHeader
  lift .stop (verifyKey hasher kh)
  lift .stop (verify hasher dh kh)
  let thresh := max 65536 (kh.loadFactor * kh.capacity)
  if kh.buckets < 1 then throw (.stop (.ec .short_key_file))
  pure ⟨hasher, kh, Pool.empty, Pool.empty, ∅, thresh / 2, thresh, kh.buckets, ceilPow2 kh.buckets⟩

/-- The end of `close`; the files are closed. -/
def close : Act Unit := Disk.erase .log

end Live

/-- The store that is opened on a database of `buckets` buckets. -/
def Config.opened (cfg : Config) (buckets : Nat) : Live where
  hasher := cfg.hasher
  kh := cfg.keyFileHeader buckets
  p0 := Pool.empty
  p1 := Pool.empty
  c1 := ∅
  frac := max 65536 (cfg.loadFactor * cfg.capacity) / 2
  thresh := max 65536 (cfg.loadFactor * cfg.capacity)
  buckets := buckets
  modulus := ceilPow2 buckets

section Opening

variable {cfg : Config} {items : List Item} {dat key : Bytes} {buckets modulus : Nat} {d : Disk}
  {fs : Files}

/-- A log that is not longer than a header has no incomplete record. -/
theorem wholeLog_of_length_le (h : (fs.bytes .log).length ≤ logFileHeaderSize) :
    WholeLog cfg dat key buckets fs := by
  intro log rs torn hlog hlogs
  rw [Files.bytes_of_eq_some hlog, Media.bytes_clean, hlogs.eq, List.length_append,
    List.length_append, length_writeLogFileHeader] at h
  exact List.eq_nil_of_length_eq_zero (by omega)

theorem wholeLog_or_quiet (hquiet : logFileHeaderSize < (d.files.bytes .log).length → ¬ d.Failing) :
    WholeLog cfg dat key buckets d.files ∨ ¬ d.Failing := by
  by_cases hlt : logFileHeaderSize < (d.files.bytes .log).length
  · exact .inr (hquiet hlt)
  · exact .inl (wholeLog_of_length_le (not_lt.mp hlt))

theorem Recovered.restores (h : Recovered dat key fs) : Restores cfg dat key buckets fs :=
  .settled h.dat h.key (.inl h.log)

theorem open_leads (htable : Table cfg items key buckets modulus)
    (hres : Restores cfg (cfg.dat items) key buckets d.files)
    (hquiet : logFileHeaderSize < (d.files.bytes .log).length → ¬ d.Failing) (scratch : Bytes) :
    Leads (Live.open_ cfg.hasher scratch) d
      (fun st d' => st = cfg.opened buckets ∧ st.modulus = modulus ∧
        Resting (cfg.dat items) key d'.files)
      (fun _ d' => Safe cfg (cfg.dat items) key buckets d'.files) := by
  have hin := htable.intact
  have hwhole : WholeLog cfg (cfg.dat items) key buckets d.files ∨ ¬ d.Failing :=
    wholeLog_or_quiet hquiet
  have hpos := htable.sized.pos
  have hcount : bucketsOfFileSize key.length cfg.blockSize = buckets := by
    rw [htable.length]
    exact bucketsOfFileSize_blocks cfg.blockSize_pos
  unfold Live.open_
  refine (recover_leads hin hres hwhole scratch).bind fun _ d₁ hrec => ?_
  have hsafe : ∀ (h : Halt) (d' : Disk), d'.files = d₁.files →
      Safe cfg (cfg.dat items) key buckets d'.files := by
    intro _ d' h
    rw [h]
    exact hrec.restores.safe
  refine Disk.leads_reading (R := fun _ => True)
    ((Disk.open_leads (show (d₁.files .dat).isSome = true by rw [hrec.dat]; rfl)).mono
      (fun _ _ h => ⟨trivial, h⟩) fun _ _ h => h.2)
    (Disk.frames_open _) hsafe fun _ d₂ _ hf₂ _ => ?_
  rw [← hf₂] at hsafe hrec
  refine Disk.leads_reading (R := fun _ => True)
    ((Disk.open_leads (show (d₂.files .key).isSome = true by rw [hrec.key]; rfl)).mono
      (fun _ _ h => ⟨trivial, h⟩) fun _ _ h => h.2)
    (Disk.frames_open _) hsafe fun _ d₃ _ hf₃ _ => ?_
  rw [← hf₃] at hsafe hrec
  refine ((Disk.create_leads hrec.log).mono (fun _ _ h => h) fun h d' hk => hsafe h d' hk.2).bind
    fun _ d₄ hf₄ => ?_
  have hrest : Resting (cfg.dat items) key d₄.files := by
    rw [hf₄]
    exact ⟨hrec.dat, hrec.key, Function.update_self _ _ _⟩
  have hsafe' : ∀ (h : Halt) (d' : Disk), d'.files = d₄.files →
      Safe cfg (cfg.dat items) key buckets d'.files := by
    intro _ d' h
    rw [h]
    exact hrest.restores.safe
  have hdat : d₄.files.bytes .dat = cfg.dat items := by
    rw [Files.bytes_of_eq_some hrest.dat]
    rfl
  have hkey : d₄.files.bytes .key = key := by
    rw [Files.bytes_of_eq_some hrest.key]
    rfl
  have hheader : writeDatFileHeader cfg.datFileHeader <+: d₄.files.bytes .dat := by
    rw [hdat]
    exact hin.datHeader
  refine Disk.leads_reading ((cfg.readDatHeader_leads hheader).mono (fun _ _ h => h)
    fun _ _ h => h.2) Disk.frames_readDatHeader hsafe' fun dh d₅ hdh hf₅ _ => ?_
  subst hdh
  rw [cfg.verifyDat_header, lift_ok_bind]
  rw [← hf₅] at hsafe' hrest hkey
  have hhead : (d₅.files.bytes .key).take cfg.blockSize = cfg.headerBlock := by
    rw [hkey]
    exact hin.keyHeader
  refine Disk.leads_reading (cfg.readKeyHeader_leads hhead) Disk.frames_readKeyHeader hsafe'
    fun kh d₆ hkh hf₆ _ => ?_
  rw [hkey, hcount] at hkh
  subst hkh
  rw [cfg.verifyKey_header hpos, cfg.verify_header hpos]
  simp only [lift_ok_bind]
  rw [if_neg (show ¬ (cfg.keyFileHeader buckets).buckets < 1 from by
    show ¬ buckets < 1
    omega)]
  refine leads_pure ⟨rfl, ?_, by rwa [hf₆]⟩
  exact ceilPow2_eq htable.sized (htable.bounded.trans_lt (by norm_num))

/-! ## After an interruption -/

/-- A recovery that is interrupted, and what is found then. -/
def Interrupted (hasher : Hasher) (fs fs' : Files) : Prop :=
  ∃ faults scratch h d', (logFileHeaderSize < (fs.bytes .log).length →
      ¬ Disk.Failing ⟨fs, 0, faults⟩) ∧
    Disk.recover hasher scratch ⟨fs, 0, faults⟩ = .error h d' ∧ Survives d'.files fs' ∧
    LogInOrder d'.files fs'

/-- However often a recovery is interrupted, the one that returns leaves the database that the files
stood for in the beginning, and no log. -/
theorem recover_restarted {fs' : Files} {faults : Nat → Option Fault}
    (hin : Intact cfg dat key buckets) (hres : Restores cfg dat key buckets fs)
    (h : Relation.ReflTransGen (Interrupted cfg.hasher) fs fs')
    (hquiet : logFileHeaderSize < (fs'.bytes .log).length → ¬ Disk.Failing ⟨fs', 0, faults⟩)
    (scratch : Bytes) :
    Leads (Disk.recover cfg.hasher scratch) ⟨fs', 0, faults⟩
      (fun _ d' => Recovered dat key d'.files) (fun _ d' => Safe cfg dat key buckets d'.files) := by
  have hres' : Restores cfg dat key buckets fs' := by
    clear hquiet
    induction h with
    | refl => exact hres
    | @tail fs₁ fs₂ _ hstep ih =>
      obtain ⟨faults₁, scratch₁, e, d', hquiet₁, hx, hs, hlog⟩ := hstep
      have hsafe := (recover_leads (d := ⟨fs₁, 0, faults₁⟩) hin ih (wholeLog_or_quiet hquiet₁)
        scratch₁).of_error hx
      exact hsafe fs₂ ⟨hs, hlog⟩
  exact recover_leads (d := ⟨fs', 0, faults⟩) hin hres' (wholeLog_or_quiet hquiet) scratch

/-- The bucket of the small store, as a commit writes it to the log. -/
def tinyRecord : LogRecord := ⟨0, Config.tiny.entries tinyItems, 0⟩

/-- The small store when a commit was ended: the data file has grown, the bucket is overwritten, and
the log has it. -/
def tinyDamaged : Files
  | .dat => some (Media.clean (Config.tiny.dat tinyItems ++ [1, 2, 3]))
  | .key => some (Media.clean (Config.tiny.headerBlock ++ List.replicate 104 255))
  | .log => some (Media.clean (writeLogFileHeader (Config.tiny.logFileHeader tinyKey.length
      (Config.tiny.dat tinyItems).length) ++ ([tinyRecord].flatMap LogRecord.bytes ++ [])))

theorem restores_damaged : Restores Config.tiny (Config.tiny.dat tinyItems) tinyKey 1
    tinyDamaged := by
  have hlength : tinyKey.length = 2 * 104 := table_tiny.length
  have hheader : Config.tiny.headerBlock.length = 104 := Config.tiny.length_headerBlock
  have hrecord : tinyRecord.Of Config.tiny (Config.tiny.dat tinyItems) tinyKey 1 := by
    refine ⟨by norm_num [tinyRecord], ?_, by norm_num [tinyRecord], fun h => absurd rfl h, ?_⟩
    · decide +kernel
    · decide +kernel
  refine .logged rfl rfl rfl ⟨rfl, fun r hr => ?_, .inl rfl⟩ (List.prefix_append _ _) ?_ ?_
  · rwa [List.mem_singleton.mp hr]
  · rw [hlength, List.length_append, hheader, List.length_replicate]
  · intro i hi houtside
    refine ⟨?_, by simp [Media.clean]⟩
    -- The key file has one block, and that is the one of the record.
    have hlt : i < 104 := by
      by_contra hge
      refine houtside tinyRecord List.mem_cons_self ⟨?_, ?_⟩
      · show (0 + 1) * 104 ≤ i
        omega
      · show i < (0 + 2) * 104
        omega
    show (Config.tiny.headerBlock ++ _)[i]? = (Config.tiny.headerBlock ++ _)[i]?
    rw [List.getElem?_append_left (by rwa [hheader]), List.getElem?_append_left (by rwa [hheader])]

-- The computation is run by the kernel, and what it leaves is known without.
attribute [local irreducible] Leads in
/-- A recovery of these files is ended while it writes the bucket, and what it has written is
found. -/
theorem recover_restarted_tiny : ∃ fs', fs'.bytes .key ≠ tinyDamaged.bytes .key ∧
    Relation.ReflTransGen (Interrupted Config.tiny.hasher) tinyDamaged fs' ∧
    Leads (Disk.recover Config.tiny.hasher []) ⟨fs', 0, Disk.ended none⟩
      (fun _ d' => Recovered (Config.tiny.dat tinyItems) tinyKey d'.files)
      (fun _ d' => Safe Config.tiny (Config.tiny.dat tinyItems) tinyKey 1 d'.files) := by
  have hrun : (match Disk.recover Config.tiny.hasher []
      ⟨tinyDamaged, 0, Disk.ended (some (11, 50))⟩ with
    | .ok _ _ => false
    | .error _ d' => decide (d'.files.flush.bytes .key ≠ tinyDamaged.bytes .key)) = true := by
    decide +kernel
  cases hx : Disk.recover Config.tiny.hasher [] ⟨tinyDamaged, 0, Disk.ended (some (11, 50))⟩ with
  | ok a d' =>
    rw [hx] at hrun
    cases hrun
  | error h d' =>
    rw [hx] at hrun
    have hs := settles_flush d'.files
    have hstep : Interrupted Config.tiny.hasher tinyDamaged d'.files.flush :=
      ⟨_, [], h, d', fun _ => Disk.not_failing_ended _ _, hx, hs.survives, hs.inOrder⟩
    exact ⟨_, of_decide_eq_true hrun, .single hstep, recover_restarted table_tiny.intact
      restores_damaged (.single hstep) (fun _ => Disk.not_failing_ended _ _) []⟩

/-- A store that was opened after a commit was interrupted: it has none or all of the new records. -/
structure Reopened (cfg : Config) (recs new : List (Bytes × Bytes)) (st : Live) (fs : Files) :
    Prop where
  opened : st = cfg.opened st.buckets
  database : ∃ items key, Table cfg items key st.buckets st.modulus ∧
    Resting (cfg.dat items) key fs ∧ (records items = recs ∨ records items = recs ++ new)

theorem reopen_leads {recs new : List (Bytes × Bytes)} (heither : Either cfg recs new fs)
    {fs' : Files} (hs : Settles fs fs') {faults : Nat → Option Fault}
    (hquiet : logFileHeaderSize < (fs'.bytes .log).length → ¬ Disk.Failing ⟨fs', 0, faults⟩)
    (scratch : Bytes) :
    Leads (Live.open_ cfg.hasher scratch) ⟨fs', 0, faults⟩
      (fun st d' => Reopened cfg recs new st d'.files)
      (fun _ d' => Either cfg recs new d'.files) := by
  have hstands : ∃ recs', Stands cfg recs' fs' ∧ (recs' = recs ∨ recs' = recs ++ new) := by
    rcases heither fs' hs with h | h
    · exact ⟨_, h, .inl rfl⟩
    · exact ⟨_, h, .inr rfl⟩
  obtain ⟨recs', ⟨items, key, buckets, modulus, htable, hrecs, hres⟩, hor⟩ := hstands
  refine (open_leads (d := ⟨fs', 0, faults⟩) htable hres hquiet scratch).mono
    (fun st d' h => ?_) fun _ d' h fs'' hs'' => ?_
  · obtain ⟨rfl, rfl, hrest⟩ := h
    exact ⟨rfl, items, key, htable, hrest, by rwa [hrecs]⟩
  · have hstands : Stands cfg recs' fs'' := ⟨items, key, _, _, htable, hrecs, h fs'' hs''⟩
    rcases hor with rfl | rfl
    · exact .inl hstands
    · exact .inr hstands

/-- A commit that returns adds its records. After one that is stopped or interrupted anywhere, the
store that is opened next has all of them or none, and so after any number of attempts to open it.
Of the changes of the log it is assumed that they reach the medium in their order. -/
theorem commit_atomic {n : Nat} {st : Live} (htable : Table cfg items key st.buckets st.modulus)
    (hrest : Resting (cfg.dat items) key d.files) (hkh : st.kh = cfg.keyFileHeader n)
    (hhasher : st.hasher = cfg.hasher) (hadd : Addable cfg items st.p1.values)
    (hbounded : st.buckets + st.p1.values.length ≤ 2 ^ 32) (order : Cache.Order) :
    Leads (st.commit order) d (fun st' d' => Committed cfg items st st' d'.files)
      (fun _ d' => ∀ fs', Survives d'.files fs' → LogInOrder d'.files fs' → ∀ faults scratch,
        (logFileHeaderSize < (fs'.bytes .log).length → ¬ Disk.Failing ⟨fs', 0, faults⟩) →
        Leads (Live.open_ cfg.hasher scratch) ⟨fs', 0, faults⟩
          (fun st' d'' => Reopened cfg (records items) (st.p1.values.map Value.record) st' d''.files)
          (fun _ d'' => Either cfg (records items) (st.p1.values.map Value.record) d''.files)) :=
  (commit_leads htable hrest hkh hhasher hadd hbounded order).mono (fun _ _ h => h)
    fun _ _ h _ hs hlog _ scratch hquiet => reopen_leads h ⟨hs, hlog⟩ hquiet scratch

-- The computation is run by the kernel, and what it leaves is known without.
attribute [local irreducible] Leads in
/-- A commit is ended while it writes the key file. -/
theorem commit_atomic_tiny : ∃ h d', tinyLive.commit Cache.listed
      ⟨tinyFiles (some (Media.clean [])), 0, Disk.ended (some (10, 50))⟩ = .error h d' ∧
    ∀ fs', Survives d'.files fs' → LogInOrder d'.files fs' → ∀ faults scratch,
      (logFileHeaderSize < (fs'.bytes .log).length → ¬ Disk.Failing ⟨fs', 0, faults⟩) →
      Leads (Live.open_ Config.tiny.hasher scratch) ⟨fs', 0, faults⟩
        (fun st' d'' => Reopened Config.tiny [([1], [7])] [([2], [8])] st' d''.files)
        (fun _ d'' => Either Config.tiny [([1], [7])] [([2], [8])] d''.files) := by
  have hrun : (match tinyLive.commit Cache.listed
      ⟨tinyFiles (some (Media.clean [])), 0, Disk.ended (some (10, 50))⟩ with
    | .ok _ _ => false
    | .error _ _ => true) = true := by decide +kernel
  cases hx : tinyLive.commit Cache.listed
    ⟨tinyFiles (some (Media.clean [])), 0, Disk.ended (some (10, 50))⟩ with
  | ok st' d' =>
    rw [hx] at hrun
    cases hrun
  | error h d' =>
    exact ⟨h, d', rfl, (commit_atomic (n := 1) table_tiny resting_tiny rfl rfl addable_tiny
      (by norm_num [tinyLive, tinyPool]) Cache.listed).of_error hx⟩

end Opening

end Metcalfe.Nudb
