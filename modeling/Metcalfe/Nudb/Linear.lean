import Metcalfe.Nudb.Serves

/-!
# A store is a durable map

Every run of a store, with any number of threads, and with crashes at any moments, has the events of
a run of `DurableMap`: each call takes effect at one moment, what it replies is what the map has
then, and what is saved is never lost (`Sys.Step.simulates`).

`Serving` relates a thread to the caller of the map. A lookup takes effect when its locks are taken,
except that of an insert whose key is not found. The block that it is going to read is then not
among those that a commit writes (`Serving.block`), for as long as the lookup has its generation.
-/

namespace Metcalfe.Nudb

open BigEndian Durable Stateful DurableMap Simulation Outcome

abbrev MapState (ι : Type) := State ι Bytes Bytes

/-- A call whose key has `target`, when that was looked up: it has its answer, except for an
insert of a key that is new. -/
def Due (cfg : Config) (get : Bytes → Option Bytes) (target : Option Bytes) :
    KeyOp → Call Bytes Bytes → Prop
  | .fetch key, c => c = .answered (.fetch key) (.ofOption target)
  | .insert key data, c =>
    match target with
    | some _ => c = .answered (.insert key data) .exists_
    | none => c = .called (.insert key data) ∧ get key = none ∧ Storable cfg (key, data)

/-- What is required of the parameters of a call. -/
def Accepted (cfg : Config) : KeyOp → Prop
  | .fetch _ => True
  | .insert key data => Storable cfg (key, data)

/-- A thread and the caller that it is for the map `get`. -/
inductive Serving (cfg : Config) (items : List Item) (file : Bytes) (c1 : Cache) (gen : Nat)
    (get : Bytes → Option Bytes) : Thread → Call Bytes Bytes → Prop
  | idle : Serving cfg items file c1 gen get .idle .idle
  | called {op : KeyOp} (hop : Accepted cfg op) :
      Serving cfg items file c1 gen get (.called op) (.called op)
  | block {op : KeyOp} {n g : Nat} {target : Option Bytes} {c : Call Bytes Bytes}
      (hblock : OnBlock cfg (cfg.dat items) file n op.key target) (hdue : Due cfg get target op c)
      (hgen : g = gen → n ∉ c1) : Serving cfg items file c1 gen get (.block op n g) c
  | walking {op : KeyOp} {hold : Hold} {w : Walk} {target : Option Bytes} {c : Call Bytes Bytes}
      (hseeks : Seeks cfg (cfg.dat items) op.key target w) (hdue : Due cfg get target op c) :
      Serving cfg items file c1 gen get (.walking op hold w) c
  | absent {key data : Bytes} (hget : get key = none) (hstorable : Storable cfg (key, data)) :
      Serving cfg items file c1 gen get (.absent key data) (.called (.insert key data))
  | answered {op : KeyOp} {r : Reply Bytes} :
      Serving cfg items file c1 gen get (.answered op r) (.answered op r)

section Callers

variable {cfg : Config} {items items' : List Item} {file file' : Bytes} {c1 c1' : Cache}
  {gen gen' : Nat} {get get' : Bytes → Option Bytes} {t : Thread} {c : Call Bytes Bytes}
  {op : KeyOp} {target : Option Bytes}

theorem Due.congr (h : Due cfg get target op c) (hget : op.isInsert = true → get op.key = none →
    get' op.key = none) : Due cfg get' target op c := by
  cases op with
  | fetch key => exact h
  | insert key data =>
    cases target with
    | some v => exact h
    | none => exact ⟨h.1, hget rfl h.2.1, h.2.2⟩

/-- A thread that does not insert does not depend on what others insert. -/
theorem Serving.congr (h : Serving cfg items file c1 gen get t c) (ht : ¬ t.Inserting) :
    Serving cfg items file c1 gen get' t c := by
  cases h with
  | idle => exact .idle
  | called hop => exact .called hop
  | block hblock hdue hgen =>
    exact .block hblock (hdue.congr fun hins => absurd hins ht) hgen
  | walking hseeks hdue => exact .walking hseeks (hdue.congr fun hins => absurd hins ht)
  | absent _ _ => exact absurd trivial ht
  | answered => exact .answered

/-- The data file grows, and the key file and the cache change, but not for those that have locked
a generation. -/
theorem Serving.mono (h : Serving cfg items file c1 gen get t c)
    (hdat : cfg.dat items <+: cfg.dat items')
    (hblock : ∀ n g, t.gen? = some g → (g = gen → n ∉ c1) → (g = gen' → n ∉ c1') ∧
      ((n + 2) * cfg.blockSize ≤ file.length → (n + 2) * cfg.blockSize ≤ file'.length ∧
        slice file' ((n + 1) * cfg.blockSize) cfg.blockSize =
          slice file ((n + 1) * cfg.blockSize) cfg.blockSize)) :
    Serving cfg items' file' c1' gen' get t c := by
  cases h with
  | idle => exact .idle
  | called hop => exact .called hop
  | @block op n g target c hon hdue hgen =>
    obtain ⟨hgen', hsame⟩ := hblock n g rfl hgen
    obtain ⟨hle, hslice⟩ := hsame hon.le
    exact .block ((hon.mono hdat).congr hle hslice) hdue hgen'
  | walking hseeks hdue => exact .walking (hseeks.mono hdat) hdue
  | absent hget hstorable => exact .absent hget hstorable
  | answered => exact .answered

/-- The end of a lookup. -/
theorem Due.found {v : Option Bytes} (h : Due cfg get target op c)
    (hsome : v.isSome = target.isSome) (heq : op.isInsert = false → v = target) :
    Serving cfg items file c1 gen get (Thread.found op v) c := by
  cases op with
  | fetch key =>
    rw [heq rfl, show c = _ from h]
    exact .answered
  | insert key data =>
    cases target with
    | some v' =>
      obtain ⟨v, rfl⟩ := Option.isSome_iff_exists.mp hsome
      rw [show c = _ from h]
      exact .answered
    | none =>
      obtain rfl : v = none := by simpa using hsome
      obtain ⟨rfl, hget, hstorable⟩ := h
      exact .absent hget hstorable

end Callers

section Lookups

variable {ι : Type} [DecidableEq ι] {cfg : Config} {s : MapState ι} {i : ι} {op : KeyOp}
  {target : Option Bytes}

/-- When a lookup fails, the caller may do so as well. -/
theorem Due.fails {get : Bytes → Option Bytes} (h : Due cfg get target op (s.calls i)) :
    Trace DurableMap.Step s [] (s.set i (.answered op .failed)) := by
  cases op with
  | fetch key =>
    refine Trace.silent (.drops h ?_)
    cases target <;> simp [Reply.ofOption]
  | insert key data =>
    cases target with
    | some v => exact Trace.silent (.drops h (by simp))
    | none => exact Trace.silent (.fails h.1)

/-- A lookup takes effect, except that of an insert of a new key. -/
theorem due_of_called (hcall : s.calls i = .called op) (hop : Accepted cfg op)
    (hget : s.content.get op.key = target) :
    ∃ c, Trace DurableMap.Step s [] (s.set i c) ∧ Due cfg s.content.get target op c := by
  cases op with
  | fetch key => exact ⟨_, Trace.silent (.fetch hcall), by rw [← hget]; rfl⟩
  | insert key data =>
    cases target with
    | some v =>
      refine ⟨_, Trace.silent (.exists_ hcall ?_), rfl⟩
      rw [show s.content.get key = some v from hget]
      rfl
    | none =>
      refine ⟨s.calls i, ?_, hcall, hget, hop⟩
      rw [State.set_calls]
      exact .nil s

end Lookups

/-! ## What a store has -/

namespace Live

/-- The records that no commit has begun to write. -/
def fresh (st : Live) : Records := st.p1.values.map Value.record

end Live

theorem Pool.find_data (p : Pool) (key : Bytes) :
    (p.find key).map Value.data = (p.values.map Value.record).lookup key := by
  unfold Pool.find
  induction p.values with
  | nil => rfl
  | cons v l ih =>
    rw [List.find?_cons, List.map_cons]
    by_cases h : v.key = key
    · subst h
      simp [Value.record]
    · have hne : (key == v.key) = false := by simpa using fun heq : key = v.key => h heq.symm
      rw [decide_eq_false h, Value.record, List.lookup_cons, hne]
      exact ih

/-- The content of the map. -/
def Live.content (st : Live) (saved saving : Records) : Content Bytes Bytes :=
  ⟨fun k => saved.lookup k, fun k => saving.lookup k, fun k => st.fresh.lookup k⟩

section Contents

variable {cfg : Config} {st : Live} {items : List Item} {file key v : Bytes}
  {saved saving : Records}

theorem Live.get_content : (st.content saved saving).get key =
    (saved ++ saving ++ st.fresh).lookup key := by
  rw [List.lookup_append, List.lookup_append]
  rfl

theorem Live.pooled_eq : st.pooled key =
    (st.fresh.lookup key).or ((st.p0.values.map Value.record).lookup key) := by
  unfold Live.pooled Live.fresh
  rw [← Pool.find_data, ← Pool.find_data]
  cases st.p1.find key <;> rfl

/-- What is found in the pools. -/
theorem Served.pooled (h : Served cfg st items file saved saving)
    (hkeys : ((saved ++ saving ++ st.fresh).map Prod.fst).Nodup) (hv : st.pooled key = some v) :
    (st.content saved saving).get key = some v := by
  rw [Live.get_content, lookup_eq_some_iff_mem hkeys]
  have hmem : ∀ l : Records, l.lookup key = some v → (key, v) ∈ l := by
    intro l hl
    obtain ⟨l₁, l₂, rfl, -⟩ := List.lookup_eq_some_iff.mp hl
    simp
  rw [Live.pooled_eq] at hv
  rcases Option.or_eq_some_iff.mp hv with hv | ⟨-, hv⟩
  · exact List.mem_append_right _ (hmem _ hv)
  · refine List.mem_append_left _ ?_
    rw [← h.records]
    exact List.mem_append_right _ (hmem _ hv)

/-- What is not in the pools is in the data file, or it is not there. -/
theorem Served.unpooled (h : Served cfg st items file saved saving) (hv : st.pooled key = none) :
    (st.content saved saving).get key = (Nudb.records items).lookup key := by
  rw [Live.pooled_eq, Option.or_eq_none_iff] at hv
  rw [Live.get_content, List.lookup_append, hv.1, ← h.records, List.lookup_append, hv.2,
    Option.or_none, Option.or_none]

end Contents

/-! ## An open store and the map that it is -/

section Open

variable {ι : Type} [DecidableEq ι] [Fintype ι] {cfg : Config} {order : Cache.Order}
  {r : Running ι} {s : MapState ι} {items : List Item} {key : Bytes} {saved saving : Records}
  {i : ι} {op : KeyOp}

/-- The generation that each thread has locked. -/
def Running.held (r : Running ι) (i : ι) : Option Nat := (r.threads i).gen?

structure Mirrors (cfg : Config) (r : Running ι) (s : MapState ι) (items : List Item) (key : Bytes)
    (saved saving : Records) : Prop where
  runs : cfg.Runs r.live
  serves : Serves cfg r.live items key saved saving r.phase
  pooled : ∀ v ∈ r.live.p1.values, Pooled cfg v
  keys : ((saved ++ saving ++ r.live.fresh).map Prod.fst).Nodup
  up : s.up = true
  content : s.content = r.live.content saved saving
  counts : r.gate.Counts r.held
  finished : r.phase.Writes → r.gate.Finished
  mutex : ∀ i j, (r.threads i).Inserting → (r.threads j).Inserting → i = j
  serving : ∀ i, Serving cfg items key r.live.c1 r.gate.gen s.content.get (r.threads i) (s.calls i)

omit [Fintype ι] in
theorem Running.held_set (r : Running ι) (i : ι) (t : Thread) :
    (r.set i t).held = Function.update r.held i t.gen? := by
  ext1 j
  by_cases hj : j = i
  · subst hj
    simp [Running.held]
  · simp [Running.held, hj]

/-- One thread goes on, and its caller. -/
theorem Mirrors.set (h : Mirrors cfg r s items key saved saving) {t : Thread}
    {c : Call Bytes Bytes} {gate : Gentex} (hgen : gate.gen = r.gate.gen)
    (hprev : r.gate.Finished → gate.Finished)
    (hcounts : gate.Counts (Function.update r.held i t.gen?))
    (hmutex : t.Inserting → (r.threads i).Inserting ∨ ∀ j, ¬ (r.threads j).Inserting)
    (ht : Serving cfg items key r.live.c1 r.gate.gen s.content.get t c) :
    Mirrors cfg { r.set i t with gate := gate } (s.set i c) items key saved saving := by
  refine ⟨h.runs, h.serves, h.pooled, h.keys, h.up, h.content, ?_, fun hw => hprev (h.finished hw),
    ?_, fun j => ?_⟩
  · show gate.Counts (r.set i t).held
    rwa [Running.held_set]
  · have hothers : ∀ j k, j ≠ i → ((r.set i t).threads j).Inserting →
        ((r.set i t).threads k).Inserting → j = k := by
      intro j k hji hj hk
      rw [r.threads_set_of_ne hji] at hj
      by_cases hki : k = i
      · subst hki
        rw [Running.threads_set_self] at hk
        rcases hmutex hk with hk | hnone
        · exact h.mutex j k hj hk
        · exact absurd hj (hnone j)
      · rw [r.threads_set_of_ne hki] at hk
        exact h.mutex j k hj hk
    intro j k hj hk
    by_cases hji : j = i
    · by_cases hki : k = i
      · rw [hji, hki]
      · exact (hothers k j hki hk hj).symm
    · exact hothers j k hji hj hk
  · show Serving cfg items key r.live.c1 gate.gen s.content.get ((r.set i t).threads j)
      ((s.set i c).calls j)
    rw [hgen]
    by_cases hji : j = i
    · subst hji
      rw [Running.threads_set_self, State.calls_set_self]
      exact ht
    · rw [r.threads_set_of_ne hji, State.calls_set_of_ne s hji]
      exact h.serving j

/-! ## The steps of the callers -/

/-- The thread leaves the generation that it has locked, if any. -/
theorem Mirrors.leave (h : Mirrors cfg r s items key saved saving) {t : Thread}
    {c : Call Bytes Bytes} (hgen : t.gen? = none)
    (hmutex : t.Inserting → (r.threads i).Inserting ∨ ∀ j, ¬ (r.threads j).Inserting)
    (ht : Serving cfg items key r.live.c1 r.gate.gen s.content.get t c) :
    Mirrors cfg { r.set i t with gate := r.gate.release (r.threads i).gen? } (s.set i c) items key
      saved saving := by
  refine h.set ?_ ?_ ?_ hmutex ht
  · exact r.gate.gen_release _
  · exact fun hf => hf.release _
  · rw [hgen]
    exact h.counts.release rfl

theorem Mirrors.stay (h : Mirrors cfg r s items key saved saving) {t : Thread}
    {c : Call Bytes Bytes} (hgen : t.gen? = (r.threads i).gen?)
    (hmutex : t.Inserting → (r.threads i).Inserting ∨ ∀ j, ¬ (r.threads j).Inserting)
    (ht : Serving cfg items key r.live.c1 r.gate.gen s.content.get t c) :
    Mirrors cfg (r.set i t) (s.set i c) items key saved saving := by
  have hcounts : r.gate.Counts (Function.update r.held i t.gen?) := by
    rw [hgen]
    show r.gate.Counts (Function.update r.held i (r.held i))
    rw [Function.update_eq_self]
    exact h.counts
  exact h.set rfl id hcounts hmutex ht

/-- The thread goes on, but not its caller. -/
theorem Mirrors.goes_on (h : Mirrors cfg r s items key saved saving) {t : Thread}
    (hgen : t.gen? = (r.threads i).gen?)
    (hmutex : t.Inserting → (r.threads i).Inserting ∨ ∀ j, ¬ (r.threads j).Inserting)
    (ht : Serving cfg items key r.live.c1 r.gate.gen s.content.get t (s.calls i)) :
    Mirrors cfg (r.set i t) s items key saved saving := by
  have hstay := h.stay hgen hmutex ht
  rwa [State.set_calls] at hstay

theorem Config.Runs.keySize {st : Live} (h : cfg.Runs st) : st.kh.keySize = cfg.keySize := by
  obtain ⟨-, n, hn⟩ := h
  rw [hn]
  rfl

theorem Config.Runs.hashOf {st : Live} (h : cfg.Runs st) : st.hashOf = cfg.hashOf := by
  obtain ⟨hhasher, n, hn⟩ := h
  funext key
  rw [Live.hashOf, hhasher, hn]
  rfl

omit [Fintype ι] [DecidableEq ι] in
theorem Running.MayLook.enters (hu : r.MayLook op) {t : Thread}
    (ht : t.Inserting → op.isInsert = true) :
    t.Inserting → (r.threads i).Inserting ∨ ∀ j, ¬ (r.threads j).Inserting :=
  fun hins => .inr (hu (ht hins))

/-- A caller whose lookup takes effect. -/
theorem Mirrors.looks (h : Mirrors cfg r s items key saved saving) {target : Option Bytes}
    (hi : r.threads i = .called op) (hget : s.content.get op.key = target) :
    ∃ c, Trace DurableMap.Step s [] (s.set i c) ∧ Due cfg s.content.get target op c := by
  have hserving := h.serving i
  rw [hi] at hserving
  generalize hc : s.calls i = c at hserving
  cases hserving with
  | called hop => exact due_of_called hc hop hget

/-- The key is found in the pools. -/
theorem Mirrors.pooled_step (h : Mirrors cfg r s items key saved saving) {v : Bytes}
    (hi : r.threads i = .called op) (hu : r.MayLook op) (hv : r.live.pooled op.key = some v) :
    ∃ s', Mirrors cfg (r.set i (.found op (some v))) s' items key saved saving ∧
      Trace DurableMap.Step s [] s' := by
  have hget : s.content.get op.key = some v := by
    rw [h.content]
    exact h.serves.served.pooled h.keys hv
  obtain ⟨c, htrace, hdue⟩ := h.looks hi hget
  refine ⟨_, h.stay ?_ (hu.enters Thread.isInsert_of_found) (hdue.found rfl fun _ => rfl),
    htrace⟩
  rw [hi, Thread.gen?_found]
  rfl

omit [DecidableEq ι] in
/-- What a lookup of a key that is not in the pools starts with. -/
theorem Mirrors.lookup (h : Mirrors cfg r s items key saved saving)
    (hv : r.live.pooled op.key = none) :
    match r.live.c1.lookup (r.live.bucketOf op.key) with
    | some p => Seeks cfg (cfg.dat items) op.key (s.content.get op.key)
        (Walk.start (cfg.hashOf op.key) (Bucket.ofBlob cfg.blockSize p))
    | none => OnBlock cfg (cfg.dat items) key (r.live.bucketOf op.key) op.key
        (s.content.get op.key) := by
  have hserved := h.serves.served
  have hview := hserved.view.lookup hserved.stocked List.prefix_rfl op.key
    (n := r.live.bucketOf op.key) (by rw [Live.bucketOf, h.runs.hashOf])
  rw [h.content, hserved.unpooled hv]
  cases hc1 : r.live.c1.lookup (r.live.bucketOf op.key) with
  | some p =>
    rw [hc1] at hview
    exact hview
  | none =>
    rw [hc1] at hview
    refine hview (hserved.blocks _ ?_ (AList.lookup_eq_none.mp hc1))
    exact LinearHash.index_lt hserved.view.sized _

theorem Mirrors.cached_step (h : Mirrors cfg r s items key saved saving) {b : Bucket}
    (hi : r.threads i = .called op) (hu : r.MayLook op) (hv : r.live.pooled op.key = none)
    (hb : r.live.c1.find r.live.kh.blockSize (r.live.bucketOf op.key) = some b) :
    ∃ s', Mirrors cfg (r.set i (.walking op .shared (.start (r.live.hashOf op.key) b))) s' items
      key saved saving ∧ Trace DurableMap.Step s [] s' := by
  have hlookup := h.lookup hv
  obtain ⟨p, hp, rfl⟩ := Option.map_eq_some_iff.mp hb
  rw [hp] at hlookup
  rw [h.runs.blockSize, h.runs.hashOf]
  obtain ⟨c, htrace, hdue⟩ := h.looks hi rfl
  refine ⟨_, h.stay ?_ (hu.enters id) (.walking hlookup hdue), htrace⟩
  rw [hi]
  rfl

theorem Mirrors.block_step (h : Mirrors cfg r s items key saved saving)
    (hi : r.threads i = .called op) (hu : r.MayLook op) (hv : r.live.pooled op.key = none)
    (hb : r.live.c1.find r.live.kh.blockSize (r.live.bucketOf op.key) = none) :
    ∃ s', Mirrors cfg { r.set i (.block op (r.live.bucketOf op.key) r.gate.gen) with
      gate := r.gate.lockGen } s' items key saved saving ∧ Trace DurableMap.Step s [] s' := by
  have hlookup := h.lookup hv
  have hp := Option.map_eq_none_iff.mp hb
  rw [hp] at hlookup
  obtain ⟨c, htrace, hdue⟩ := h.looks hi rfl
  refine ⟨_, h.set (t := .block op (r.live.bucketOf op.key) r.gate.gen) rfl id ?_
    (hu.enters id) (.block hlookup hdue fun _ => AList.lookup_eq_none.mp hp), htrace⟩
  refine h.counts.lock ?_
  rw [Running.held, hi]
  rfl

/-! ## The reads of a lookup -/

omit [DecidableEq ι] in
/-- The block that a thread is going to read is as it was when the thread locked its generation. -/
theorem Mirrors.onBlock (h : Mirrors cfg r s items key saved saving) {n g : Nat}
    (hi : r.threads i = .block op n g) (order : Cache.Order) :
    ∃ target, OnBlock cfg (cfg.dat items) ((r.files order).bytes .key) n op.key target ∧
      Due cfg s.content.get target op (s.calls i) := by
  have hserving := h.serving i
  rw [hi] at hserving
  generalize s.calls i = c at hserving
  cases hserving with
  | @block _ _ _ target _ hblock hdue hgen =>
    refine ⟨target, ?_, hdue⟩
    have hn : ¬ (r.phase.Writes ∧ n ∈ r.live.c1) := by
      rintro ⟨hwrites, hmem⟩
      refine hgen (h.counts.current (h.finished hwrites) (i := i) ?_) hmem
      rw [Running.held, hi]
      rfl
    have hkey : Untouched cfg.blockSize (fun n => r.phase.Writes ∧ n ∈ r.live.c1) key
      ((r.files order).bytes .key) := (h.serves.reads h.runs).2
    obtain ⟨hle, hslice⟩ := hkey n hn hblock.le
    exact hblock.congr hle hslice

theorem Mirrors.read_step (h : Mirrors cfg r s items key saved saving) {n g : Nat} {b : Bucket}
    (hi : r.threads i = .block op n g)
    (hb : Bucket.read r.live.kh.blockSize ((r.files order).bytes .key)
      ((n + 1) * r.live.kh.blockSize) = .ok b) :
    ∃ s', Mirrors cfg (r.set i (.walking op (.gen g) (.start (r.live.hashOf op.key) b))) s' items
      key saved saving ∧ Trace DurableMap.Step s [] s' := by
  obtain ⟨target, hblock, hdue⟩ := h.onBlock hi order
  rw [h.runs.blockSize] at hb
  rw [h.runs.hashOf]
  refine ⟨s, ?_, .nil s⟩
  refine h.goes_on (by rw [hi]; rfl) (fun hins => .inl (by rw [hi]; exact hins)) ?_
  exact .walking (hblock.read_ends.of_ok hb) hdue

omit [DecidableEq ι] in
/-- A round of a lookup does not fail, and gives what it did on the data file as it was. -/
theorem Mirrors.walks (h : Mirrors cfg r s items key saved saving) {hold : Hold} {w : Walk}
    (hi : r.threads i = .walking op hold w) (order : Cache.Order) :
    ∃ target, Due cfg s.content.get target op (s.calls i) ∧
      Ends (w.next r.live.kh.blockSize r.live.kh.keySize (!op.isInsert) (r.live.hashOf op.key)
          op.key ((r.files order).bytes .dat))
        (fun
          | .inl w' => Seeks cfg (cfg.dat items) op.key target w'
          | .inr v => v.isSome = target.isSome ∧ (op.isInsert = false → v = target))
        (fun _ => False) := by
  have hserving := h.serving i
  rw [hi] at hserving
  generalize s.calls i = c at hserving
  cases hserving with
  | @walking _ _ _ target _ hseeks hdue =>
    refine ⟨target, hdue, ?_⟩
    have hdat : cfg.dat items <+: (r.files order).bytes .dat := (h.serves.reads h.runs).1
    have hends := hseeks.next_ends (!op.isInsert)
    rw [h.runs.blockSize, h.runs.keySize, h.runs.hashOf]
    cases hbase : w.next cfg.blockSize cfg.keySize (!op.isInsert) (cfg.hashOf op.key) op.key
      (cfg.dat items) with
    | error e =>
      rw [hbase] at hends
      exact hends.elim
    | ok y =>
      rw [hbase] at hends
      rw [Walk.next_mono hbase hdat]
      cases y with
      | inl w' => exact hends
      | inr v => exact ⟨hends.1, fun hop => hends.2 (by rw [hop]; rfl)⟩

theorem Mirrors.next_step (h : Mirrors cfg r s items key saved saving) {hold : Hold} {w w' : Walk}
    (hi : r.threads i = .walking op hold w)
    (hw : w.next r.live.kh.blockSize r.live.kh.keySize (!op.isInsert) (r.live.hashOf op.key)
      op.key ((r.files order).bytes .dat) = .ok (.inl w')) (n : Nat) :
    Mirrors cfg (r.set i (.walking op (hold.next op n w) w')) s items key saved saving := by
  obtain ⟨target, hdue, hends⟩ := h.walks hi order
  refine h.goes_on ?_ (fun hins => .inl (by rw [hi]; exact hins)) (.walking (hends.of_ok hw) hdue)
  rw [hi]
  exact Hold.gen?_next _ _ _ _

theorem Mirrors.found_step (h : Mirrors cfg r s items key saved saving) {hold : Hold} {w : Walk}
    {v : Option Bytes} (hi : r.threads i = .walking op hold w)
    (hw : w.next r.live.kh.blockSize r.live.kh.keySize (!op.isInsert) (r.live.hashOf op.key)
      op.key ((r.files order).bytes .dat) = .ok (.inr v)) :
    Mirrors cfg { r.set i (.found op v) with gate := r.gate.release hold.gen? } s items key saved
      saving := by
  obtain ⟨target, hdue, hends⟩ := h.walks hi order
  obtain ⟨hsome, heq⟩ := hends.of_ok hw
  have hleave := h.leave (c := s.calls i) (Thread.gen?_found op v)
    (fun hins => .inl (by rw [hi]; exact Thread.isInsert_of_found hins)) (hdue.found hsome heq)
  rwa [State.set_calls, hi] at hleave

omit [DecidableEq ι] in
/-- A lookup that is under way has its answer, or the caller waits for it. -/
theorem Mirrors.due (h : Mirrors cfg r s items key saved saving)
    (hi : (r.threads i).looking? = some op) :
    ∃ target, Due cfg s.content.get target op (s.calls i) := by
  have hserving := h.serving i
  generalize r.threads i = t at hserving hi
  generalize s.calls i = c at hserving
  cases hserving with
  | block _ hdue _ =>
    obtain rfl := Option.some.inj hi
    exact ⟨_, hdue⟩
  | walking _ hdue =>
    obtain rfl := Option.some.inj hi
    exact ⟨_, hdue⟩
  | _ => cases hi

theorem Mirrors.fails_step (h : Mirrors cfg r s items key saved saving)
    (hi : (r.threads i).looking? = some op) :
    ∃ s', Mirrors cfg { r.set i (.answered op .failed) with
        gate := r.gate.release (r.threads i).gen? } s' items key saved saving ∧
      Trace DurableMap.Step s [] s' := by
  obtain ⟨target, hdue⟩ := h.due hi
  exact ⟨_, h.leave rfl (fun hins => hins.elim) .answered, hdue.fails⟩

/-! ## Calls, replies and inserts -/

theorem Mirrors.call_step (h : Mirrors cfg r s items key saved saving)
    (hop : Running.Accepts r.live op) (hi : r.threads i = .idle) :
    ∃ s', Mirrors cfg (r.set i (.called op)) s' items key saved saving ∧
      Trace DurableMap.Step s [Event.call i op] s' := by
  have hserving := h.serving i
  rw [hi] at hserving
  generalize hc : s.calls i = c at hserving
  cases hserving with
  | idle =>
    refine ⟨_, h.stay (by rw [hi]; rfl) (fun hins => hins.elim) (.called ?_),
      .event (.call op h.up hc)⟩
    cases op with
    | fetch key => trivial
    | insert key data =>
      obtain ⟨hlen, hpos, hlt⟩ := hop
      exact ⟨hlen.trans h.runs.keySize, hpos, hlt⟩

theorem Mirrors.refuse_step (h : Mirrors cfg r s items key saved saving)
    (hi : r.threads i = .called op) :
    ∃ s', Mirrors cfg (r.set i (.answered op .failed)) s' items key saved saving ∧
      Trace DurableMap.Step s [] s' := by
  have hserving := h.serving i
  rw [hi] at hserving
  generalize hc : s.calls i = c at hserving
  cases hserving with
  | called hop =>
    exact ⟨_, h.stay (by rw [hi]; rfl) (fun hins => hins.elim) .answered, Trace.silent (.fails hc)⟩

theorem Mirrors.reply_step (h : Mirrors cfg r s items key saved saving) {v : Reply Bytes}
    (hi : r.threads i = .answered op v) :
    ∃ s', Mirrors cfg (r.set i .idle) s' items key saved saving ∧
      Trace DurableMap.Step s [Event.reply i op v] s' := by
  have hserving := h.serving i
  rw [hi] at hserving
  generalize hc : s.calls i = c at hserving
  cases hserving with
  | answered =>
    exact ⟨_, h.stay (by rw [hi]; rfl) (fun hins => hins.elim) .idle, .event (.reply hc)⟩

end Open

end Metcalfe.Nudb
