import Metcalfe.Nudb.Linear

/-!
# The sessions of a store

What is left of `Nudb.Linear`: an insert, the steps of the commit, and the process that opens the
store, closes it or is ended. Together they make every run of a store one of a durable map.
-/

namespace Metcalfe.Nudb

open BigEndian Durable Stateful DurableMap Simulation Outcome

/-! ## An insert -/

section Inserting

variable {l l' : Records} {k v : Bytes}

theorem lookup_perm (h : l.Perm l') (hkeys : (l.map Prod.fst).Nodup) (k : Bytes) :
    l.lookup k = l'.lookup k := by
  ext v
  rw [lookup_eq_some_iff_mem hkeys,
    lookup_eq_some_iff_mem (((h.map Prod.fst).nodup_iff).mp hkeys), h.mem_iff]

theorem notMem_of_lookup_eq_none (h : l.lookup k = none) : k ∉ l.map Prod.fst := by
  rw [List.mem_map]
  rintro ⟨p, hp, rfl⟩
  have hne := List.lookup_eq_none_iff.mp h p hp
  simp at hne

variable {ι : Type} [DecidableEq ι] [Fintype ι] {cfg : Config} {order : Cache.Order}
  {r : Running ι} {s : MapState ι} {items : List Item} {file : Bytes} {saved saving : Records}
  {i : ι} {key data : Bytes} {p : Pool}

omit [DecidableEq ι] in
/-- A key that the map does not have is not in the pool. -/
theorem Mirrors.notMem_pool (h : Mirrors cfg r s items file saved saving)
    (hget : s.content.get key = none) : key ∉ r.live.p1.values.map Value.key := by
  rw [h.content, Live.get_content] at hget
  intro hmem
  refine notMem_of_lookup_eq_none hget ?_
  rw [List.map_append, List.mem_append]
  refine .inr ?_
  rwa [Live.fresh, List.map_map]

theorem Mirrors.insert_step (h : Mirrors cfg r s items file saved saving)
    (hi : r.threads i = .absent key data)
    (hp : r.live.p1.insert (r.live.hashOf key) key data = .ok p) :
    ∃ s', Mirrors cfg { r.set i (.answered (.insert key data) .inserted) with
        live := { r.live with p1 := p } } s' items file saved saving ∧
      Trace DurableMap.Step s [] s' := by
  have hserving := h.serving i
  rw [hi] at hserving
  generalize hc : s.calls i = c at hserving
  cases hserving with
  | absent hget hstorable =>
    have hnew : key ∉ (saved ++ saving ++ r.live.fresh).map Prod.fst := by
      refine notMem_of_lookup_eq_none ?_
      rwa [h.content, Live.get_content] at hget
    obtain ⟨p', hp', hperm⟩ : ∃ p', r.live.p1.insert (r.live.hashOf key) key data = .ok p' ∧ _ :=
      Pool.insert_eq_ok (h.notMem_pool hget)
    obtain rfl : p' = p := by
      rw [hp] at hp'
      exact (Except.ok.inj hp').symm
    have hfresh : (p'.values.map Value.record).Perm ((key, data) :: r.live.fresh) :=
      hperm.map Value.record
    have hkeys : ((saved ++ saving ++ p'.values.map Value.record).map Prod.fst).Nodup := by
      have hall : (saved ++ saving ++ p'.values.map Value.record).Perm
          ((key, data) :: (saved ++ saving ++ r.live.fresh)) :=
        (hfresh.append_left _).trans List.perm_middle
      rw [(hall.map Prod.fst).nodup_iff, List.map_cons, List.nodup_cons]
      exact ⟨hnew, h.keys⟩
    have hlookup : (fun k => (p'.values.map Value.record).lookup k) =
        Function.update s.content.fresh key (some data) := by
      have hnodup : ((p'.values.map Value.record).map Prod.fst).Nodup := by
        rw [List.map_append, List.nodup_append] at hkeys
        exact hkeys.2.1
      ext1 k
      rw [lookup_perm hfresh hnodup, List.lookup_cons, h.content]
      by_cases hk : k = key
      · subst hk
        simp
      · rw [Function.update_of_ne hk, show (k == key) = false by simpa using hk]
        rfl
    have hstay : Mirrors cfg (r.set i (.answered (.insert key data) .inserted))
        (s.set i (.answered (.insert key data) .inserted)) items file saved saving :=
      h.stay (by rw [hi]; rfl) (fun hins => hins.elim) .answered
    refine ⟨_, ?_, .silent (.insert hc hget)⟩
    refine ⟨h.runs, h.serves.insert p', fun v hv => ?_, hkeys, h.up, ?_, hstay.counts, h.finished,
      hstay.mutex, fun j => ?_⟩
    · rcases List.mem_cons.mp (hperm.mem_iff.mp hv) with rfl | hv
      · exact ⟨by rw [h.runs.hashOf], hstorable⟩
      · exact h.pooled v hv
    · show Content.mk _ _ _ = Content.mk _ _ _
      rw [← hlookup, h.content]
      rfl
    · -- The other threads are not inserting.
      refine (hstay.serving j).congr fun hins => ?_
      by_cases hji : j = i
      · subst hji
        rw [Running.threads_set_self] at hins
        exact hins
      · rw [Running.threads_set_of_ne r hji] at hins
        exact hji (h.mutex j i hins (by rw [hi]; trivial))

end Inserting

/-! ## The steps of the commit -/

section Committing

variable {ι : Type} [Fintype ι] {cfg : Config} {order : Cache.Order}
  {r : Running ι} {s : MapState ι} {items : List Item} {file : Bytes} {saved saving : Records}

/-- Only the phase changes, not to one that writes. -/
theorem Mirrors.phase_step (h : Mirrors cfg r s items file saved saving) {p : Phase}
    (hserves : Serves cfg r.live items file saved saving p) (hw : p.Writes → r.gate.Finished) :
    Mirrors cfg { r with phase := p } s items file saved saving :=
  { h with serves := hserves, finished := hw }

theorem Phase.Next.writes {p p' : Phase} (h : p.Next p') (hw : p'.Writes) : p.Writes := by
  cases h with
  | writing d _ => trivial
  | _ => exact hw.elim

variable [DecidableEq ι]

/-- The values that were inserted become those to be saved. -/
theorem Mirrors.begin_step (h : Mirrors cfg r s items file saved saving) {fs : Files}
    (hphase : r.phase = .rest fs)
    (hbounded : r.live.buckets + r.live.p1.values.length ≤ 2 ^ 32) (faults : Nat → Option Fault) :
    ∃ s', Mirrors cfg { r with live := r.live.begin_, phase := .saving ⟨fs, 0, faults⟩ ⟨0, 0⟩ } s'
        items file saved r.live.fresh ∧ Trace DurableMap.Step s [] s' := by
  have hserves := h.serves
  rw [hphase] at hserves
  have hp0 : r.live.p0.values = [] := by
    cases hserves with
    | rest hp0 _ _ _ _ _ => exact hp0
  have hfresh : r.live.begin_.fresh = [] := by
    show r.live.p0.values.map Value.record = []
    rw [hp0]
    rfl
  have hkeys := h.keys
  obtain ⟨rfl, hserves'⟩ := hserves.begin_ h.pooled (by
    cases hserves with
    | rest _ _ _ _ _ hsaving =>
      rw [hsaving, List.append_nil] at hkeys
      exact hkeys) hbounded faults
  rw [List.append_nil] at hkeys
  have hsaving : s.content.saving = fun _ => none := by
    rw [h.content]
    rfl
  have hbatch : s.content.batch.get = s.content.get := funext fun k => s.content.get_batch hsaving k
  refine ⟨_, ?_, .silent (.batch hsaving)⟩
  refine ⟨h.runs, hserves', fun v hv => ?_, ?_, h.up, ?_, h.counts, fun hw => hw.elim, h.mutex,
    fun i => ?_⟩
  · have hv' : v ∈ r.live.p0.values := hv
    rw [hp0] at hv'
    cases hv'
  · rw [hfresh, List.append_nil]
    exact hkeys
  · show s.content.batch = Content.mk _ _ fun k => r.live.begin_.fresh.lookup k
    rw [h.content, hfresh]
    rfl
  · show Serving cfg items file r.live.c1 r.gate.gen s.content.batch.get _ _
    rw [hbatch]
    exact h.serving i

/-- The callers are shown the new buckets. Those that have locked a generation are of one before. -/
theorem Mirrors.publish_step (h : Mirrors cfg r s items file saved saving) {d d' : Disk} {t : Tick}
    {x : Draft} (hphase : r.phase = .saving d t) (hx : r.live.prepare (d.ending t) = .ok x d')
    (faults : Nat → Option Fault) :
    ∃ items', Mirrors cfg { r with
        live := r.live.publish x, gate := r.gate.start
        phase := .logging x.c0 ⟨d'.files, 0, faults⟩ ⟨0, 0⟩ } s items' file saved saving := by
  have hserves := h.serves
  rw [hphase] at hserves
  obtain ⟨items', hdat, hserves'⟩ := hserves.publish h.runs hx faults
  refine ⟨items', ⟨h.runs, hserves', h.pooled, h.keys, h.up, h.content, h.counts.start,
    fun hw => hw.elim, h.mutex, fun i => ?_⟩⟩
  refine (h.serving i).mono hdat fun n g hg _ => ⟨fun heq => ?_, fun hle => ⟨hle, rfl⟩⟩
  have hle := h.counts.le i g hg
  have heq' : g = r.gate.gen + 1 := heq
  omega

/-- The key file has the new buckets, and the cache none. -/
theorem Mirrors.end_step (h : Mirrors cfg r s items file saved saving) {d d' : Disk} {t : Tick}
    (hphase : r.phase = .writing d t) (hx : r.live.overwrite order (d.ending t) = .ok () d') :
    ∃ file' s', Mirrors cfg { r with live := r.live.end_, phase := .rest d'.files } s' items file'
        (saved ++ saving) [] ∧ Trace DurableMap.Step s [] s' := by
  have hserves := h.serves
  rw [hphase] at hserves
  obtain ⟨file', huntouched, hserves'⟩ := hserves.end_ h.runs hx
  have hfinished : r.gate.Finished := h.finished (by rw [hphase]; trivial)
  have hsave : s.content.save.get = s.content.get := funext fun k => s.content.get_save k
  refine ⟨file', _, ?_, .silent .save⟩
  refine ⟨h.runs, hserves', h.pooled, ?_, h.up, ?_, h.counts, fun hw => hw.elim, h.mutex,
    fun i => ?_⟩
  · rw [List.append_nil]
    exact h.keys
  · show s.content.save = _
    rw [h.content]
    show Content.mk _ _ _ = Content.mk _ _ _
    congr 1
    ext1 k
    exact List.lookup_append.symm
  · show Serving cfg items file' ∅ r.gate.gen s.content.save.get _ _
    rw [hsave]
    refine (h.serving i).mono List.prefix_rfl fun n g hg hn => ⟨fun _ => AList.notMem_empty n, ?_⟩
    exact huntouched n (hn (h.counts.current hfinished hg))

omit [DecidableEq ι] in
/-- A commit that has failed leaves the callers what they had. -/
theorem Mirrors.stop_step (h : Mirrors cfg r s items file saved saving) {fs : Files}
    (hx : r.phase.Fails order r.live fs) :
    ∃ file', Mirrors cfg { r with phase := .stopped fs } s items file' saved saving := by
  obtain ⟨file', huntouched, hserves⟩ := h.serves.stop h.runs hx
  refine ⟨file', ⟨h.runs, hserves, h.pooled, h.keys, h.up, h.content, h.counts, fun hw => hw.elim,
    h.mutex, fun i => ?_⟩⟩
  refine (h.serving i).mono List.prefix_rfl fun n g hg hn => ⟨hn, huntouched n ?_⟩
  rintro ⟨hwrites, hmem⟩
  exact hn (h.counts.current (h.finished hwrites) hg) hmem

/-! ## Every step of an open store -/

/-- A step of a caller is answered by the map. -/
theorem Mirrors.calls {r' : Running ι} {e : Option (StoreEvent ι)} {fallible : Bool}
    (h : Mirrors cfg r s items file saved saving) (hstep : r.Calls order fallible e r') :
    ∃ s', Mirrors cfg r' s' items file saved saving ∧ Trace DurableMap.Step s e.toList s' := by
  cases hstep with
  | call hop hi => exact h.call_step hop hi
  | refuse hi _ => exact h.refuse_step hi
  | pooled hi hu hv => exact h.pooled_step hi hu hv
  | cached hi hu hv hb => exact h.cached_step hi hu hv hb
  | block hi hu hv hb => exact h.block_step hi hu hv hb
  | read hi hb => exact h.read_step hi hb
  | next hi hw => exact ⟨s, h.next_step hi hw _, .nil s⟩
  | found hi hw => exact ⟨s, h.found_step hi hw, .nil s⟩
  | fails _ hi => exact h.fails_step hi
  | insert hi _ hp => exact h.insert_step hi hp
  | reply hi => exact h.reply_step hi

/-- A step of the commit is answered by the map. -/
theorem Mirrors.commits {r' : Running ι} (h : Mirrors cfg r s items file saved saving)
    (hstep : r.Commits order r') :
    ∃ s' items' file' saved' saving', Mirrors cfg r' s' items' file' saved' saving' ∧
      Trace DurableMap.Step s [] s' := by
  have hserves := h.serves
  cases hstep with
  | begin_ hphase _ _ hbounded faults =>
    obtain ⟨s', h', htrace⟩ := h.begin_step hphase hbounded faults
    exact ⟨s', _, _, _, _, h', htrace⟩
  | tick hp =>
    have h' := h.phase_step (hserves.next hp) fun hw => h.finished (hp.writes hw)
    exact ⟨s, _, _, _, _, h', .nil s⟩
  | publish hphase _ hx faults =>
    obtain ⟨items', h'⟩ := h.publish_step hphase hx faults
    exact ⟨s, _, _, _, _, h', .nil s⟩
  | logged hphase hx =>
    rw [hphase] at hserves
    exact ⟨s, _, _, _, _, h.phase_step (hserves.logged h.runs hx) fun hw => hw.elim, .nil s⟩
  | finish hphase hg faults =>
    rw [hphase] at hserves
    exact ⟨s, _, _, _, _, h.phase_step (hserves.finish faults) fun _ => hg, .nil s⟩
  | end_ hphase _ hx =>
    obtain ⟨file', s', h', htrace⟩ := h.end_step hphase hx
    exact ⟨s', _, _, _, _, h', htrace⟩
  | stop hx =>
    obtain ⟨file', h'⟩ := h.stop_step hx
    exact ⟨s, _, _, _, _, h', .nil s⟩

theorem Mirrors.step {r' : Running ι} {e : Option (StoreEvent ι)}
    (h : Mirrors cfg r s items file saved saving) (hstep : r.Step order e r') :
    ∃ s' items' file' saved' saving', Mirrors cfg r' s' items' file' saved' saving' ∧
      Trace DurableMap.Step s e.toList s' := by
  cases hstep with
  | caller hstep =>
    obtain ⟨s', h', htrace⟩ := h.calls hstep
    exact ⟨s', _, _, _, _, h', htrace⟩
  | commit hstep => exact h.commits hstep

end Committing

/-! ## A whole system -/

section System

variable {ι : Type} [DecidableEq ι] [Fintype ι] {cfg : Config} {order : Cache.Order}
  {recs : Records} {fs : Files}

/-- The map of a store that is not open, with a batch that may have been saved or not. -/
def halted (ι : Type) (saved saving : Records) : MapState ι :=
  ⟨⟨fun k => saved.lookup k, fun k => saving.lookup k, fun _ => none⟩, false, fun _ => .idle⟩

/-- The map of a store that is not open. -/
def resting (ι : Type) (recs : Records) : MapState ι := halted ι recs []

/-- A system and the map that it is. -/
inductive Sys.Is (cfg : Config) : Sys ι → MapState ι → Prop
  | down {fs : Files} {saved saving : Records} (h : Either cfg saved saving fs) :
      Sys.Is cfg (.down fs) (halted ι saved saving)
  | up {r : Running ι} {s : MapState ι} {items : List Item} {file : Bytes} {saved saving : Records}
      (h : Mirrors cfg r s items file saved saving) : Sys.Is cfg (.up r) s

/-- Files that are found to stand for a database do so whatever is lost. -/
theorem Stands.either (h : Stands cfg recs fs) (new : Records) : Either cfg recs new fs := by
  obtain ⟨items, key, buckets, modulus, htable, rfl, hres⟩ := h
  exact hres.safe.either htable new

omit [Fintype ι] in
/-- When nothing more can be lost, the batch is saved, or it is not. -/
theorem stands_of_settled {saved saving : Records} (h : Either cfg saved saving fs)
    (hsettled : fs.Settled) : ∃ recs, Stands cfg recs fs ∧
      Trace DurableMap.Step (halted ι saved saving) [] (resting ι recs) := by
  rcases h fs hsettled.settles with hstands | hstands
  · exact ⟨saved, hstands, .silent (.lose rfl)⟩
  · refine ⟨saved ++ saving, hstands, ?_⟩
    have hsave : { halted ι saved saving with content := (halted ι saved saving).content.save } =
        resting ι (saved ++ saving) := by
      show State.mk (Content.mk _ _ _) _ _ = State.mk (Content.mk _ _ _) _ _
      congr 2
      ext1 k
      exact List.lookup_append.symm
    rw [← hsave]
    exact .silent .save

/-- What is found later is what was found before. -/
theorem either_of_settles {fs' : Files} {saved saving : Records} (h : Either cfg saved saving fs)
    (hs : Settles fs fs') : Either cfg saved saving fs' := by
  rcases h fs' hs with hstands | hstands
  · exact hstands.either saving
  · intro fs'' hs''
    have hlater := hstands.either [] fs'' hs''
    rw [List.append_nil, or_self] at hlater
    exact .inr hlater

omit [DecidableEq ι] in
/-- A store that was opened, with the records that it had. -/
theorem Stands.opened {st : Live} {d' : Disk} {faults : Nat → Option Fault} {scratch : Bytes}
    (h : Stands cfg recs fs)
    (hquiet : logFileHeaderSize < (fs.bytes .log).length → ¬ Disk.Failing ⟨fs, 0, faults⟩)
    (hx : Live.open_ cfg.hasher scratch ⟨fs, 0, faults⟩ = .ok st d') :
    ∃ items file, Mirrors cfg (⟨st, ⟨0, 0, 0⟩, .rest d'.files, fun _ => .idle⟩ : Running ι)
      { resting ι recs with up := true } items file recs [] := by
  obtain ⟨items, file, buckets, modulus, htable, hrecs, hres⟩ := h
  obtain ⟨rfl, rfl, hrest⟩ := (open_leads (d := ⟨fs, 0, faults⟩) htable hres hquiet scratch).of_ok hx
  refine ⟨items, file, ⟨rfl, buckets, rfl⟩, .rest rfl rfl htable hrest hrecs rfl,
    fun v hv => ?_, ?_, rfl, rfl, Gentex.counts_init 0, fun hw => hw.elim,
    fun i j hi => hi.elim, fun i => .idle⟩
  · cases hv
  · show ((recs ++ [] ++ []).map Prod.fst).Nodup
    rw [List.append_nil, List.append_nil, ← hrecs]
    exact htable.keys

theorem Stands.unopened {h : Halt} {d' : Disk} {faults : Nat → Option Fault} {scratch : Bytes}
    (hstands : Stands cfg recs fs)
    (hquiet : logFileHeaderSize < (fs.bytes .log).length → ¬ Disk.Failing ⟨fs, 0, faults⟩)
    (hx : Live.open_ cfg.hasher scratch ⟨fs, 0, faults⟩ = .error h d') :
    Either cfg recs [] d'.files := by
  obtain ⟨items, file, buckets, modulus, htable, rfl, hres⟩ := hstands
  have hsafe := (open_leads (d := ⟨fs, 0, faults⟩) htable hres hquiet scratch).of_error hx
  exact hsafe.either htable []

section Ending

variable {r : Running ι} {s : MapState ι} {items : List Item} {file : Bytes}
  {saved saving : Records}

omit [DecidableEq ι] in
theorem Mirrors.idle (h : Mirrors cfg r s items file saved saving)
    (hidle : r.threads = fun _ => .idle) : s.calls = fun _ => .idle := by
  ext1 i
  have hserving := h.serving i
  rw [hidle] at hserving
  generalize s.calls i = c at hserving ⊢
  cases hserving with
  | idle => rfl

omit [DecidableEq ι] in
theorem Mirrors.halt (h : Mirrors cfg r s items file saved saving) :
    (⟨s.content.halt, false, fun _ => .idle⟩ : MapState ι) = halted ι saved saving := by
  rw [h.content]
  rfl

/-- The end of a session in which everything was saved. -/
theorem Mirrors.closed (h : Mirrors cfg r s items file saved saving) {d' : Disk}
    {faults : Nat → Option Fault} (hphase : r.phase = .rest fs) (hp1 : r.live.p1.values = [])
    (hidle : r.threads = fun _ => .idle) (hx : Live.close ⟨fs, 0, faults⟩ = .ok () d') :
    Stands cfg saved d'.files ∧ Trace DurableMap.Step s [Event.closed] (resting ι saved) := by
  have hserves := h.serves
  rw [hphase] at hserves
  cases hserves with
  | rest hp0 hc1 htable hrest hsaved hsaving =>
    refine ⟨⟨items, file, _, _, htable, hsaved, ?_⟩, ?_⟩
    · have hlog : (fs .log).isSome = true := by
        rw [hrest.log]
        rfl
      rw [(Disk.erase_leads (d := ⟨fs, 0, faults⟩) hlog).of_ok hx]
      exact .settled hrest.dat hrest.key (.inl (Function.update_self _ _ _))
    · have hcontent : s.content = ⟨fun k => saved.lookup k, fun _ => none, fun _ => none⟩ := by
        rw [h.content, Live.content, Live.fresh, hp1, hsaving]
        rfl
      have hclosed : DurableMap.Step s (some Event.closed) { s with up := false } :=
        .closed (h.idle hidle) (by rw [hcontent]) (by rw [hcontent])
      have hdown : { s with up := false } = resting ι saved := by
        rw [h.idle hidle, hcontent]
        rfl
      rw [← hdown]
      exact .event hclosed

/-- The end of a session after a commit that has failed, or with a log file that stays. -/
theorem Mirrors.closeFailed (h : Mirrors cfg r s items file saved saving)
    (hidle : r.threads = fun _ => .idle) :
    Trace DurableMap.Step s [Event.closeFailed] (halted ι saved saving) := by
  rw [← h.halt]
  exact .event (.closeFailed (h.idle hidle))

/-- The process ends. The values that were being saved are there then, or they are not. -/
theorem Mirrors.crashed (h : Mirrors cfg r s items file saved saving) :
    Trace DurableMap.Step s [Event.crashed] (halted ι saved saving) := by
  rw [← h.halt]
  exact .event .crashed

omit [DecidableEq ι] in
/-- The log file stays, and nothing else has changed. -/
theorem Mirrors.unerased (h : Mirrors cfg r s items file saved saving) {e : Halt} {d' : Disk}
    {faults : Nat → Option Fault} (hphase : r.phase = .rest fs)
    (hx : Live.close ⟨fs, 0, faults⟩ = .error e d') : Either cfg saved saving d'.files := by
  have hserves := h.serves
  rw [hphase] at hserves
  cases hserves with
  | rest hp0 hc1 htable hrest hsaved hsaving =>
    have hlog : (fs .log).isSome = true := by
      rw [hrest.log]
      rfl
    rw [((Disk.erase_leads (d := ⟨fs, 0, faults⟩) hlog).of_error hx).2, ← hsaved]
    exact hrest.restores.safe.either htable saving

end Ending

/-- Every step of a system is answered by the map. -/
theorem Sys.simulates : Simulates (Sys.Step (ι := ι) cfg.hasher order) DurableMap.Step
    (Sys.Is cfg) := by
  intro x e x' s his hstep
  cases hstep with
  | up hstep =>
    cases his with
    | up h =>
      obtain ⟨s', items', file', saved', saving', h', htrace⟩ := h.step hstep
      exact ⟨s', .up h', htrace⟩
  | opened hsettled hquiet hx =>
    cases his with
    | down h =>
      obtain ⟨recs, hstands, htrace⟩ := stands_of_settled (ι := ι) h hsettled
      obtain ⟨items, file, h'⟩ := hstands.opened (ι := ι) hquiet hx
      exact ⟨_, .up h', htrace.append (.event (.opened rfl rfl))⟩
  | unopened hsettled hquiet hx =>
    cases his with
    | down h =>
      obtain ⟨recs, hstands, htrace⟩ := stands_of_settled (ι := ι) h hsettled
      exact ⟨_, .down (hstands.unopened hquiet hx), htrace⟩
  | closed hphase hp1 hidle hx =>
    cases his with
    | up h =>
      obtain ⟨hstands, htrace⟩ := h.closed hphase hp1 hidle hx
      exact ⟨_, .down (hstands.either []), htrace⟩
  | unsaved hphase hidle =>
    cases his with
    | up h =>
      have heither : Either cfg _ _ (Phase.files order _ _) := h.serves.either h.runs
      rw [hphase] at heither
      exact ⟨_, .down heither, h.closeFailed hidle⟩
  | unerased hphase hp1 hidle hx _ =>
    cases his with
    | up h => exact ⟨_, .down (h.unerased hphase hx), h.closeFailed hidle⟩
  | crashed =>
    cases his with
    | up h => exact ⟨_, .down (h.serves.either h.runs), h.crashed⟩
  | settles hs hlog =>
    cases his with
    | down h => exact ⟨_, .down (either_of_settles h ⟨hs, hlog⟩), .nil _⟩

/-! ## What the calls rely on -/

/-- What the calls of an open store rely on. -/
structure Running.Sound (order : Cache.Order) (r : Running ι) : Prop where
  /-- The assertion of `bucket_index`. -/
  modulus : r.live.modulus ≤ 2 ^ 32
  /-- A bucket that is read from the key file is a whole one. -/
  block : ∀ i op n g, r.threads i = .block op n g →
    ∃ b, Bucket.read r.live.kh.blockSize ((r.files order).bytes .key)
      ((n + 1) * r.live.kh.blockSize) = .ok b
  /-- So is what is read from the data file. -/
  walking : ∀ i op hold w, r.threads i = .walking op hold w →
    ∃ y, w.next r.live.kh.blockSize r.live.kh.keySize (!op.isInsert) (r.live.hashOf op.key) op.key
      ((r.files order).bytes .dat) = .ok y
  /-- The assertion of `read_size48`, for the entry that a lookup has come to. -/
  size : ∀ i op hold w, r.threads i = .walking op hold w → w.i < w.b.size →
    w.b.sizeAt w.i < 2 ^ 32
  /-- A key that is inserted is not in the pool. -/
  absent : ∀ i key data, r.threads i = .absent key data →
    ∃ p, r.live.p1.insert (r.live.hashOf key) key data = .ok p
  /-- A counter that is decremented is not zero. -/
  unlock : ∀ i n, (r.threads i).gen? = some n →
    if n = r.gate.gen then 0 < r.gate.cur else 0 < r.gate.prev
  /-- `u_` is held by one thread at most. -/
  mutex : ∀ i j, (r.threads i).Inserting → (r.threads j).Inserting → i = j

omit [DecidableEq ι] in
theorem Mirrors.sound {r : Running ι} {s : MapState ι} {items : List Item} {file : Bytes}
    {saved saving : Records} (h : Mirrors cfg r s items file saved saving) :
    r.Sound order := by
  have hex : ∀ {α : Type} {y : Except Stop α} {Q : α → Prop}, Ends y Q (fun _ => False) →
      ∃ a, y = .ok a := by
    intro α y Q hy
    cases y with
    | ok a => exact ⟨a, rfl⟩
    | error e => exact hy.elim
  refine ⟨h.serves.served.view.sized.modulus_le h.serves.served.bounded, fun i op n g hi => ?_,
    fun i op hold w hi => ?_, fun i op hold w hi hlt => ?_, fun i key data hi => ?_,
    fun i n hn => h.counts.pos hn, h.mutex⟩
  · obtain ⟨target, hblock, -⟩ := h.onBlock hi order
    rw [h.runs.blockSize]
    exact hex hblock.read_ends
  · obtain ⟨target, -, hends⟩ := h.walks hi order
    exact hex hends
  · have hserving := h.serving i
    rw [hi] at hserving
    generalize s.calls i = c at hserving
    cases hserving with
    | walking hseeks _ => exact hseeks.sizeAt_lt hlt
  · have hserving := h.serving i
    rw [hi] at hserving
    generalize s.calls i = c at hserving
    cases hserving with
    | absent hget _ =>
      obtain ⟨p, hp, -⟩ : ∃ p, r.live.p1.insert (r.live.hashOf key) key data = .ok p ∧ _ :=
        Pool.insert_eq_ok (h.notMem_pool hget)
      exact ⟨p, hp⟩

end System

end Metcalfe.Nudb
