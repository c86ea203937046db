import Metcalfe.Import.Reread
import Metcalfe.Library.Wrapping

/-!
# The progress of the passes

`progress` is given the total of the work when it is made, and the work done so far after every
data record that a pass reads. Both are products of the size of the data file and a number of
passes, formed in `size_t`. They agree as long as the total is below `2^64`; a data file of a
terabyte that is read with a small buffer goes beyond.

The loop over the windows is followed here in `size_t` too. What a pass reads, and with it the
positions it reports, is the subject of `Import.Reread`.

Not modelled: the estimate of the remaining time, which is a floating point number times the
remaining work, and the format of durations.
-/

namespace Metcalfe.Import

open BigEndian Nudb Outcome

/-! ## The display -/

/-- The state of `progress`; times are counted in seconds. -/
structure Progress where
  work : UInt64
  start : Int
  now : Int
  report : Int
  prev : UInt64
  estimate : Bool

/-- The numbers of a report, with the operands of the two differences. -/
structure Report where
  total : UInt64
  work : UInt64
  prev : UInt64
  elapsed : Int
  interval : Int

namespace Report

/-- `work_ - work`. -/
def remaining (r : Report) : UInt64 := r.total - r.work

/-- `work - prev_`. -/
def since (r : Report) : UInt64 := r.work - r.prev

/-- Neither difference wraps. -/
def Exact (r : Report) : Prop :=
  r.remaining.toNat + r.work.toNat = r.total.toNat ∧ r.since.toNat + r.prev.toNat = r.work.toNat

theorem exact_iff (r : Report) : r.Exact ↔ r.prev ≤ r.work ∧ r.work ≤ r.total := by
  have h1 := r.total.toNat_lt
  have h2 := r.work.toNat_lt
  have h3 := r.prev.toNat_lt
  unfold Exact remaining since
  rw [UInt64.toNat_sub, UInt64.toNat_sub, UInt64.le_iff_toNat_le, UInt64.le_iff_toNat_le]
  omega

end Report

namespace Progress

/-- The constructor, with the three readings of the clock that it makes. -/
def new (work : UInt64) (start now report : Int) : Progress := ⟨work, start, now, report, 0, false⟩

/-- The end of `operator()`. -/
def tell (p : Progress) (work : UInt64) : Progress × Option Report :=
  ({ p with report := p.now, prev := work, estimate := true },
    some ⟨p.work, work, p.prev, p.now - p.start, p.now - p.report⟩)

/-- `operator()`, when the clock reads `now`. -/
def call (p : Progress) (now : Int) (work : UInt64) : Progress × Option Report :=
  if now = p.now then (p, none)
  else
    let p := { p with now := now }
    if !p.estimate then
      if now - p.start < 15 then (p, none) else p.tell work
    else if now - p.report < 60 then (p, none)
    else p.tell work

/-- The reports of a sequence of calls. -/
def reports (p : Progress) : List (Int × UInt64) → List Report
  | [] => []
  | (now, work) :: calls => (p.call now work).2.toList ++ (p.call now work).1.reports calls

/-- A call reports nothing and keeps `prev_`, or reports against it and sets it. -/
theorem call_cases (p : Progress) (now : Int) (work : UInt64) :
    (p.call now work).1.work = p.work ∧
      ((p.call now work).2 = none ∧ (p.call now work).1.prev = p.prev ∨
        (p.call now work).1.prev = work ∧
          ∃ r : Report, (p.call now work).2 = some r ∧ r.total = p.work ∧ r.work = work ∧
            r.prev = p.prev) := by
  unfold call
  dsimp only
  split
  · exact ⟨rfl, .inl ⟨rfl, rfl⟩⟩
  · split
    · split
      · exact ⟨rfl, .inl ⟨rfl, rfl⟩⟩
      · exact ⟨rfl, .inr ⟨rfl, _, rfl, rfl, rfl, rfl⟩⟩
    · split
      · exact ⟨rfl, .inl ⟨rfl, rfl⟩⟩
      · exact ⟨rfl, .inr ⟨rfl, _, rfl, rfl, rfl, rfl⟩⟩

/-- No difference wraps while the work rises and stays below the total, whatever the clock
reads. -/
theorem reports_exact (p : Progress) {calls : List (Int × UInt64)}
    (hrise : (calls.map Prod.snd).Pairwise (· ≤ ·)) (hprev : ∀ c ∈ calls, p.prev ≤ c.2)
    (htotal : ∀ c ∈ calls, c.2 ≤ p.work) : ∀ r ∈ p.reports calls, r.Exact := by
  induction calls generalizing p with
  | nil => simp [reports]
  | cons c calls ih =>
    obtain ⟨now, work⟩ := c
    obtain ⟨hhead, hrise⟩ := List.pairwise_cons.mp hrise
    have hlater : ∀ c ∈ calls, work ≤ c.2 := fun c hc => hhead c.2 (List.mem_map_of_mem hc)
    obtain ⟨hwork, hcall⟩ := p.call_cases now work
    have htotal' : ∀ c ∈ calls, c.2 ≤ (p.call now work).1.work := by
      intro c hc
      rw [hwork]
      exact htotal c (List.mem_cons_of_mem _ hc)
    intro r hr
    rw [reports, List.mem_append] at hr
    rcases hcall with ⟨hnone, hkeep⟩ | ⟨hset, r', hsome, ht, hw, hp⟩
    · have hprev' : ∀ c ∈ calls, (p.call now work).1.prev ≤ c.2 := by
        intro c hc
        rw [hkeep]
        exact hprev c (List.mem_cons_of_mem _ hc)
      rcases hr with hr | hr
      · simp [hnone] at hr
      · exact ih _ hrise hprev' htotal' r hr
    · have hprev' : ∀ c ∈ calls, (p.call now work).1.prev ≤ c.2 := by
        intro c hc
        rw [hset]
        exact hlater c hc
      rcases hr with hr | hr
      · have heq : r = r' := by simpa [hsome] using hr
        rw [heq, Report.exact_iff, ht, hw, hp]
        exact ⟨hprev _ List.mem_cons_self, htotal _ List.mem_cons_self⟩
      · exact ih _ hrise hprev' htotal' r hr

end Progress

/-! ## The loop -/

/-- The size of the data file before the passes. -/
def dataSize (records : List Record) : Nat :=
  datFileHeaderSize + (records.flatMap fun r => dataRecord r.1 r.2).length

/-- What the passes depend on: the records of the data file, the buffer size given, the size of a
block and the number of buckets. -/
structure Job where
  records : List Record
  bufferSize : UInt64
  blockSize : UInt64
  buckets : UInt64
  blockSize_pos : 0 < blockSize
  size_lt : dataSize records < 2 ^ 64

/-- The value that a pass hands to `progress` at a data record. -/
def Found.done (npass dfSize : UInt64) : Found → Option UInt64
  | .data _ _ _ _ stop => some (npass * dfSize + UInt64.ofNat stop)
  | .spill _ => none

/-- The variables of the loop over the windows, and the values handed to `progress` so far. -/
structure Loop where
  b0 : UInt64
  npass : UInt64
  calls : List UInt64

namespace Job

/-- `df_size`. -/
def dfSize (j : Job) : UInt64 := UInt64.ofNat (dataSize j.records)

/-- `std::max<std::size_t>(1, buffer_size / kh.block_size)`. -/
def window (j : Job) : UInt64 :=
  if 1 < j.bufferSize / j.blockSize then j.bufferSize / j.blockSize else 1

/-- `passes`, as computed before the loop. -/
def passes (j : Job) : UInt64 := (j.buckets + j.window - 1) / j.window

/-- The `work_` of `progress`. -/
def work (j : Job) : UInt64 := j.dfSize * j.passes

/-- One pass: every record is read, and then `b0` and `npass` move on. -/
def pass (j : Job) (s : Loop) : Loop where
  b0 := s.b0 + j.window
  npass := s.npass + 1
  calls := s.calls ++ (originals j.records).filterMap (Found.done s.npass j.dfSize)

/-- The loop after `n` passes. -/
def after (j : Job) : Nat → Loop
  | 0 => ⟨0, 0, []⟩
  | n + 1 => j.pass (j.after n)

/-- The condition of the loop holds before each of `n` passes, and then no more. -/
def Executes (j : Job) (n : Nat) : Prop :=
  (∀ k < n, (j.after k).b0 < j.buckets) ∧ ¬ (j.after n).b0 < j.buckets

/-- The loop makes the passes computed before it, the values handed to `progress` rise and stay
below its total, and no report wraps, whatever the clock reads. -/
def Tracks (j : Job) : Prop :=
  ∃ n, j.Executes n ∧ n = j.passes.toNat ∧ (j.after n).calls.Pairwise (· ≤ ·) ∧
    (∀ c ∈ (j.after n).calls, c ≤ j.work) ∧
    ∀ (start now report : Int) (timed : List (Int × UInt64)),
      timed.map Prod.snd = (j.after n).calls →
        ∀ r ∈ (Progress.new j.work start now report).reports timed, r.Exact

/-- The number of passes, in numbers. -/
def rounds (j : Job) : Nat := (j.buckets.toNat + j.window.toNat - 1) / j.window.toNat

end Job

/-! ## The values in numbers -/

/-- The positions of the reader behind records that stand one after another from `base` on. -/
def stopsFrom : Nat → List Record → List Nat
  | _, [] => []
  | base, (key, out) :: rest =>
    let stop := base + (dataRecord key out).length
    stop :: stopsFrom stop rest

theorem filterMap_done (npass dfSize : UInt64) (base : Nat) (records : List Record) :
    (foundFrom base records).filterMap (Found.done npass dfSize) =
      (stopsFrom base records).map fun stop => npass * dfSize + UInt64.ofNat stop := by
  induction records generalizing base with
  | nil => rfl
  | cons r records ih =>
    rw [foundFrom, stopsFrom, List.map_cons, ← ih]
    rfl

theorem stopsFrom_bounds (base : Nat) (records : List Record) :
    ∀ stop ∈ stopsFrom base records, base ≤ stop ∧
      stop ≤ base + (records.flatMap fun r => dataRecord r.1 r.2).length := by
  induction records generalizing base with
  | nil => simp [stopsFrom]
  | cons r records ih =>
    intro stop hstop
    rw [stopsFrom, List.mem_cons] at hstop
    rw [List.flatMap_cons, List.length_append]
    rcases hstop with rfl | hstop
    · omega
    · have := ih _ stop hstop
      omega

theorem stopsFrom_rises (base : Nat) (records : List Record) :
    (stopsFrom base records).Pairwise (· ≤ ·) := by
  induction records generalizing base with
  | nil => exact List.Pairwise.nil
  | cons r records ih =>
    rw [stopsFrom, List.pairwise_cons]
    exact ⟨fun stop hstop => (stopsFrom_bounds _ _ stop hstop).1, ih _⟩

/-- The last record ends where the data file does. -/
theorem getLast?_stopsFrom (base : Nat) {records : List Record} (h : records ≠ []) :
    (stopsFrom base records).getLast? =
      some (base + (records.flatMap fun r => dataRecord r.1 r.2).length) := by
  induction records generalizing base with
  | nil => exact absurd rfl h
  | cons r records ih =>
    rw [stopsFrom, List.flatMap_cons, List.length_append]
    cases records with
    | nil => simp [stopsFrom]
    | cons r' records =>
      rw [List.getLast?_cons, ih _ (List.cons_ne_nil _ _), Option.getD_some, Nat.add_assoc]

namespace Job

/-- The values handed to `progress` in `n` passes. -/
def exactCalls (j : Job) (n : Nat) : List Nat :=
  (List.range n).flatMap fun k =>
    (stopsFrom datFileHeaderSize j.records).map (k * dataSize j.records + ·)

variable (j : Job) (n : Nat)

theorem exactCalls_succ : j.exactCalls (n + 1) = j.exactCalls n ++
    (stopsFrom datFileHeaderSize j.records).map (n * dataSize j.records + ·) := by
  unfold exactCalls
  rw [List.range_succ, List.flatMap_append, List.flatMap_singleton]

/-- The loop computes these values modulo `2^64`. -/
theorem after_eq : j.after n = ⟨UInt64.ofNat (n * j.window.toNat), UInt64.ofNat n,
    (j.exactCalls n).map UInt64.ofNat⟩ := by
  induction n with
  | zero => simp [after, exactCalls]
  | succ n ih =>
    rw [after, ih, pass, originals, filterMap_done, exactCalls_succ, Loop.mk.injEq]
    refine ⟨?_, (UInt64.ofNat_add n 1).symm, ?_⟩
    · rw [Nat.succ_mul, UInt64.ofNat_add, UInt64.ofNat_toNat]
    · rw [List.map_append, List.map_map]
      congr 1
      apply List.map_congr_left
      intro stop _
      rw [Function.comp_apply, UInt64.ofNat_add, UInt64.ofNat_mul n (dataSize j.records)]
      rfl

/-- The values of a pass are those at the records that the importer's reading loop finds. -/
theorem calls_succ {env : Env} {kh : KeyFileHeader} {b0 b1 : Nat} {w : BulkWriter} {dat : Bytes}
    {s : Scan} (hrec : ∀ r ∈ j.records, Framed r)
    (hw : w.At (dataSection env j.records) dat env.datFaults)
    (hs : (tracePass env kh (dataSection env j.records).length b0 b1 w).result = .ok s) :
    (j.after (n + 1)).calls = (j.after n).calls ++
      (tracePass env kh (dataSection env j.records).length b0 b1 w).log.filterMap
        (Found.done (UInt64.ofNat n) (UInt64.ofNat (dataSection env j.records).length)) := by
  have hsize : dataSize j.records = (dataSection env j.records).length := by
    rw [dataSection, List.length_append, length_writeDatFileHeader]
    rfl
  have hnpass : (j.after n).npass = UInt64.ofNat n := by rw [after_eq]
  rw [((tracePass_rereads hrec hw).complete s hs).1, ← hsize, ← hnpass]
  rfl

theorem exactCalls_le : ∀ x ∈ j.exactCalls n, x ≤ n * dataSize j.records := by
  induction n with
  | zero => simp [exactCalls]
  | succ n ih =>
    intro x hx
    rw [exactCalls_succ, List.mem_append] at hx
    rw [Nat.succ_mul]
    rcases hx with hx | hx
    · have := ih x hx
      omega
    · obtain ⟨stop, hstop, rfl⟩ := List.mem_map.mp hx
      have := (stopsFrom_bounds _ _ stop hstop).2
      unfold dataSize
      omega

theorem exactCalls_rises : (j.exactCalls n).Pairwise (· ≤ ·) := by
  induction n with
  | zero => exact List.Pairwise.nil
  | succ n ih =>
    rw [exactCalls_succ, List.pairwise_append, List.pairwise_map]
    refine ⟨ih, ?_, ?_⟩
    · exact (stopsFrom_rises _ _).imp fun h => Nat.add_le_add_left h _
    · intro x hx y hy
      obtain ⟨stop, -, rfl⟩ := List.mem_map.mp hy
      exact (j.exactCalls_le n x hx).trans (Nat.le_add_right _ _)

theorem getLast?_exactCalls (h : j.records ≠ []) :
    (j.exactCalls (n + 1)).getLast? = some ((n + 1) * dataSize j.records) := by
  rw [exactCalls_succ, List.getLast?_append, List.getLast?_map, getLast?_stopsFrom _ h,
    Option.map_some, Option.some_or, Nat.succ_mul]
  rfl

/-- A value is less than `2^64` above the one before it. -/
theorem exactCalls_isChain : (j.exactCalls n).IsChain fun x y => y < x + 2 ^ 64 := by
  have hsize := j.size_lt
  induction n with
  | zero => exact List.IsChain.nil
  | succ n ih =>
    have hstop : ∀ stop ∈ stopsFrom datFileHeaderSize j.records, stop < 2 ^ 64 := by
      intro stop hstop
      exact ((stopsFrom_bounds _ _ stop hstop).2).trans_lt hsize
    rw [exactCalls_succ, List.isChain_append, List.isChain_map]
    refine ⟨ih, ?_, ?_⟩
    · apply List.Pairwise.isChain
      apply List.pairwise_of_forall_mem_list
      intro x _ y hy
      have := hstop y hy
      omega
    · -- The last value of a pass is the size of the file times the passes so far.
      intro x hx y hy
      obtain ⟨stop, hmem, rfl⟩ := List.mem_map.mp (List.mem_of_mem_head? hy)
      have hlt := hstop stop hmem
      cases n with
      | zero => simp [exactCalls] at hx
      | succ n =>
        have hrecords : j.records ≠ [] := by
          intro hnil
          simp [hnil, stopsFrom] at hmem
        rw [j.getLast?_exactCalls n hrecords, Option.mem_def, Option.some.injEq] at hx
        omega

/-! ## The number of passes -/

theorem window_pos : 0 < j.window.toNat := by
  unfold window
  split
  · rename_i h
    exact (Nat.zero_lt_one).trans (UInt64.lt_iff_toNat_lt.mp h)
  · exact Nat.zero_lt_one

theorem toNat_dividend : (j.buckets + j.window - 1).toNat =
    (j.buckets.toNat + j.window.toNat - 1) % 2 ^ 64 := by
  have hwindow := j.window_pos
  have hone : (1 : UInt64).toNat = 1 := rfl
  rw [UInt64.toNat_sub, UInt64.toNat_add, hone]
  omega

theorem toNat_passes (h : j.buckets.toNat + j.window.toNat ≤ 2 ^ 64) :
    j.passes.toNat = j.rounds := by
  have hwindow := j.window_pos
  unfold passes rounds
  rw [UInt64.toNat_div, toNat_dividend, Nat.mod_eq_of_lt (by omega)]

/-- The sum that is divided wraps to less than a window. -/
theorem toNat_passes_of_wrap (h : 2 ^ 64 < j.buckets.toNat + j.window.toNat) :
    j.passes.toNat = 0 := by
  have hbuckets := j.buckets.toNat_lt
  have hwindow := j.window.toNat_lt
  unfold passes
  rw [UInt64.toNat_div, toNat_dividend]
  apply Nat.div_eq_of_lt
  rw [Nat.mod_eq_sub_mod (by omega), Nat.mod_eq_of_lt (by omega)]
  omega

theorem toNat_b0 : (j.after n).b0.toNat = n * j.window.toNat % 2 ^ 64 := by
  rw [after_eq]
  exact UInt64.toNat_ofNat'

/-- Before each of the passes counted, there is a bucket left. -/
theorem b0_lt_of_lt_rounds {k : Nat} (hk : k < j.rounds) : (j.after k).b0 < j.buckets := by
  have hbuckets := j.buckets.toNat_lt
  have hle := (Nat.le_div_iff_mul_le j.window_pos).mp (Nat.succ_le_of_lt hk)
  rw [Nat.succ_mul] at hle
  have hpos := j.window_pos
  rw [UInt64.lt_iff_toNat_lt, toNat_b0, Nat.mod_eq_of_lt (by omega)]
  omega

/-- After them there is none. -/
theorem not_b0_lt_rounds (h : j.buckets.toNat + j.window.toNat ≤ 2 ^ 64) :
    ¬ (j.after j.rounds).b0 < j.buckets := by
  have hpos := j.window_pos
  have hle := Nat.div_mul_le_self (j.buckets.toNat + j.window.toNat - 1) j.window.toNat
  have hlt := Nat.lt_div_mul_add (a := j.buckets.toNat + j.window.toNat - 1) hpos
  rw [UInt64.lt_iff_toNat_lt, toNat_b0]
  unfold rounds
  rw [Nat.mod_eq_of_lt (by omega)]
  omega

theorem executes_iff (h : j.buckets.toNat + j.window.toNat ≤ 2 ^ 64) {n : Nat} :
    j.Executes n ↔ n = j.rounds := by
  constructor
  · intro hn
    obtain ⟨hbefore, hafter⟩ := hn
    rcases lt_trichotomy n j.rounds with hlt | heq | hgt
    · exact absurd (j.b0_lt_of_lt_rounds hlt) hafter
    · exact heq
    · exact absurd (hbefore _ hgt) (j.not_b0_lt_rounds h)
  · intro hn
    subst hn
    exact ⟨fun k hk => j.b0_lt_of_lt_rounds hk, j.not_b0_lt_rounds h⟩

/-! ## The values and the total -/

/-- Below `2^64`, the values are those in numbers. -/
theorem calls_rise (h : n * dataSize j.records < 2 ^ 64) :
    (j.after n).calls.Pairwise (· ≤ ·) := by
  rw [after_eq, List.pairwise_map]
  refine (j.exactCalls_rises n).imp_of_mem fun {x y} hx hy hxy => ?_
  have hx' := j.exactCalls_le n x hx
  have hy' := j.exactCalls_le n y hy
  rw [UInt64.le_iff_toNat_le, UInt64.toNat_ofNat_of_lt' (hx'.trans_lt h),
    UInt64.toNat_ofNat_of_lt' (hy'.trans_lt h)]
  exact hxy

theorem toNat_work (h : j.buckets.toNat + j.window.toNat ≤ 2 ^ 64) :
    j.work.toNat = j.rounds * dataSize j.records % 2 ^ 64 := by
  unfold work dfSize
  rw [UInt64.toNat_mul, j.toNat_passes h, UInt64.toNat_ofNat_of_lt' j.size_lt, Nat.mul_comm]

theorem calls_le_work (h : j.buckets.toNat + j.window.toNat ≤ 2 ^ 64)
    (hfit : j.rounds * dataSize j.records < 2 ^ 64) :
    ∀ c ∈ (j.after j.rounds).calls, c ≤ j.work := by
  intro c hc
  rw [after_eq] at hc
  obtain ⟨x, hx, rfl⟩ := List.mem_map.mp hc
  have hx' := j.exactCalls_le _ x hx
  rw [UInt64.le_iff_toNat_le, UInt64.toNat_ofNat_of_lt' (hx'.trans_lt hfit), j.toNat_work h,
    Nat.mod_eq_of_lt hfit]
  exact hx'

/-- The first value is one of the first pass. -/
theorem head_exactCalls_lt (hrecords : j.records ≠ []) {a : Nat} {l : List Nat}
    (h : j.exactCalls (n + 1) = a :: l) : a < 2 ^ 64 := by
  have hlast := getLast?_stopsFrom datFileHeaderSize hrecords
  have hmem : dataSize j.records ∈ j.exactCalls (n + 1) := by
    refine List.mem_flatMap.mpr ⟨0, by simp, List.mem_map.mpr ⟨_, List.mem_of_getLast? hlast, ?_⟩⟩
    rw [Nat.zero_mul, Nat.zero_add]
    rfl
  have hrises := j.exactCalls_rises (n + 1)
  rw [h] at hmem hrises
  have hsize := j.size_lt
  rcases List.mem_cons.mp hmem with heq | hmem
  · rwa [← heq]
  · exact ((List.pairwise_cons.mp hrises).1 _ hmem).trans_lt hsize

/-- A loop whose values rise modulo `2^64` stays below `2^64`. -/
theorem lt_of_calls_rise (hrecords : j.records ≠ []) (hrise : (j.after n).calls.Pairwise (· ≤ ·)) :
    n * dataSize j.records < 2 ^ 64 := by
  cases n with
  | zero => simp
  | succ n =>
    have hlast := j.getLast?_exactCalls n hrecords
    have hstep := j.exactCalls_isChain (n + 1)
    have hmod : ((j.exactCalls (n + 1)).map (· % 2 ^ 64)).IsChain (· ≤ ·) := by
      rw [after_eq, List.pairwise_map] at hrise
      rw [List.isChain_map]
      refine (hrise.imp fun {x y} hxy => ?_).isChain
      rw [UInt64.le_iff_toNat_le, UInt64.toNat_ofNat', UInt64.toNat_ofNat'] at hxy
      exact hxy
    cases hcalls : j.exactCalls (n + 1) with
    | nil =>
      rw [hcalls] at hlast
      cases hlast
    | cons a l =>
      have ha := j.head_exactCalls_lt n hrecords hcalls
      rw [hcalls] at hstep hmod hlast
      exact Wrapping.lt_of_isChain_mod ha hstep hmod _ (List.mem_of_getLast? hlast)

/-- Where the sum in the number of passes wraps, no pass is counted, but there are buckets. -/
theorem sum_le_of_tracks (h : j.Tracks) : j.buckets.toNat + j.window.toNat ≤ 2 ^ 64 := by
  obtain ⟨n, hexec, hpasses, -⟩ := h
  by_contra hwrap
  rw [j.toNat_passes_of_wrap (not_le.mp hwrap)] at hpasses
  subst hpasses
  have hnone : ¬ (0 : UInt64) < j.buckets := hexec.2
  rw [UInt64.lt_iff_toNat_lt, UInt64.toNat_zero] at hnone
  have hwindow := j.window.toNat_lt
  omega

theorem total_lt_of_tracks (hrecords : j.records ≠ []) (h : j.Tracks) :
    j.rounds * dataSize j.records < 2 ^ 64 := by
  have hsum := j.sum_le_of_tracks h
  obtain ⟨n, hexec, -, hrise, -⟩ := h
  rw [j.executes_iff hsum] at hexec
  subst hexec
  exact j.lt_of_calls_rise _ hrecords hrise

/-- The display agrees with the loop exactly when neither the sum in the number of passes nor
the total wraps, or there is nothing to read. -/
theorem tracks_iff : j.Tracks ↔ j.buckets.toNat + j.window.toNat ≤ 2 ^ 64 ∧
    (j.records = [] ∨ j.rounds * dataSize j.records < 2 ^ 64) := by
  constructor
  · intro h
    refine ⟨j.sum_le_of_tracks h, ?_⟩
    by_cases hrecords : j.records = []
    · exact .inl hrecords
    · exact .inr (j.total_lt_of_tracks hrecords h)
  · intro h
    obtain ⟨hsum, hfit⟩ := h
    have hcalls : (j.after j.rounds).calls.Pairwise (· ≤ ·) ∧
        ∀ c ∈ (j.after j.rounds).calls, c ≤ j.work := by
      rcases hfit with hnil | hfit
      · have hempty : (j.after j.rounds).calls = [] := by
          rw [after_eq]
          simp [exactCalls, hnil, stopsFrom]
        rw [hempty]
        exact ⟨List.Pairwise.nil, by simp⟩
      · exact ⟨j.calls_rise _ hfit, j.calls_le_work hsum hfit⟩
    refine ⟨j.rounds, (j.executes_iff hsum).mpr rfl, (j.toNat_passes hsum).symm, hcalls.1, hcalls.2,
      fun start now report timed htimed => ?_⟩
    have hmem : ∀ c ∈ timed, c.2 ∈ (j.after j.rounds).calls := by
      intro c hc
      rw [← htimed]
      exact List.mem_map_of_mem hc
    apply Progress.reports_exact
    · rw [htimed]
      exact hcalls.1
    · intro c _
      exact UInt64.le_iff_toNat_le.mpr (Nat.zero_le _)
    · intro c hc
      exact hcalls.2 _ (hmem c hc)

end Job

/-! ## A large file and a small buffer -/

/-- Records of 512 bytes, with keys that differ. -/
def uniformRecords (n : Nat) : List Record :=
  (List.range n).map fun i => (toBytes 32 i, List.replicate 474 0)

theorem dataSize_uniformRecords (n : Nat) : dataSize (uniformRecords n) = 92 + n * 512 := by
  have hwidth : ∀ r ∈ uniformRecords n, (dataRecord r.1 r.2).length = 512 := by
    intro r hr
    obtain ⟨i, -, rfl⟩ := List.mem_map.mp hr
    rw [length_dataRecord, length_toBytes, List.length_replicate]
  unfold dataSize
  rw [length_flatMap_of_width hwidth, uniformRecords, List.length_map, List.length_range]
  rfl

theorem uniformRecords_ne_nil {n : Nat} (h : 0 < n) : uniformRecords n ≠ [] := by
  intro hnil
  have hlen := congrArg List.length hnil
  rw [uniformRecords, List.length_map, List.length_range, List.length_nil] at hlen
  omega

/-- The import of `n` such records in blocks of 4096 bytes, with a buffer of one block. -/
def uniformJob (n : Nat) (hn : n < 2 ^ 54) (buckets : UInt64) : Job where
  records := uniformRecords n
  bufferSize := 4096
  blockSize := 4096
  buckets := buckets
  blockSize_pos := by decide
  size_lt := by
    rw [dataSize_uniformRecords]
    omega

/-- Each bucket takes a pass of its own. -/
theorem rounds_uniformJob (n : Nat) (hn : n < 2 ^ 54) (buckets : UInt64) :
    (uniformJob n hn buckets).rounds = buckets.toNat := by
  have hwindow : (uniformJob n hn buckets).window = 1 := by
    show (if (1 : UInt64) < 4096 / 4096 then 4096 / 4096 else 1) = 1
    decide
  rw [Job.rounds, hwindow]
  exact Nat.div_one _

theorem not_tracks_uniformJob {n : Nat} (hpos : 0 < n) (hn : n < 2 ^ 54) {buckets : UInt64}
    (h : 2 ^ 64 ≤ buckets.toNat * (92 + n * 512)) : ¬ (uniformJob n hn buckets).Tracks := by
  intro htracks
  have htotal := Job.total_lt_of_tracks _ (uniformRecords_ne_nil hpos) htracks
  rw [rounds_uniformJob] at htotal
  have hsize : dataSize (uniformJob n hn buckets).records = 92 + n * 512 :=
    dataSize_uniformRecords n
  rw [hsize] at htotal
  omega

theorem terabyte_lt : 2147483648 < 2 ^ 54 := by norm_num

/-- `2^31` records, a terabyte: the bucket count is the one that the importer computes, and as
many passes over the file are more than `2^64` bytes. -/
theorem not_tracks_terabyte :
    Rounding.ceilDiv 24 (2 * Rounding.ofNat 24 2147483648) (bucketCapacity 4096) = 18920560 ∧
      ¬ (uniformJob 2147483648 terabyte_lt 18920560).Tracks := by
  have hbuckets : (18920560 : UInt64).toNat = 18920560 := rfl
  refine ⟨by decide, not_tracks_uniformJob (by norm_num) _ ?_⟩
  rw [hbuckets]
  norm_num

end Metcalfe.Import
