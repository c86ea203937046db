import Metcalfe.Nudb.Sessions

/-!
# Calls end

A lookup that has its locks waits for nobody: the steps of its own thread lead to its end, since the
bucket and its spill records have finitely many entries and the reads do not fail by themselves
(`Mirrors.call_ends`). So a commit that waits in `finish` does not wait for ever
(`Mirrors.finish_ends`), nor does an insert that waits for `u_` or `m_` (`Mirrors.call_replies`).
-/

namespace Metcalfe.Nudb

open BigEndian Durable Stateful DurableMap Simulation Outcome

variable {ι : Type} [DecidableEq ι] [Fintype ι] {cfg : Config} {order : Cache.Order}
  {r r' r'' : Running ι} {s : MapState ι} {items : List Item} {file : Bytes}
  {saved saving : Records} {i : ι} {op : KeyOp}

namespace Thread

variable {t : Thread}

theorem gen?_of_looking? (h : t.looking? = none) : t.gen? = none := by
  cases t with
  | block => cases h
  | walking => cases h
  | _ => rfl

theorem not_shared_of_looking? (h : t.looking? = none) : ¬ t.Shared := by
  intro hs
  cases t with
  | walking => cases h
  | _ => exact hs

theorem absent_of_inserting (hi : t.Inserting) (h : t.looking? = none) :
    ∃ key data, t = .absent key data := by
  cases t with
  | absent key data => exact ⟨key, data, rfl⟩
  | block => cases h
  | walking => cases h
  | _ => exact hi.elim

theorem found_cases (op : KeyOp) (v : Option Bytes) :
    (∃ v', Thread.found op v = .answered op v') ∨
      ∃ key data, Thread.found op v = .absent key data := by
  cases op with
  | fetch key => exact .inl ⟨_, rfl⟩
  | insert key data =>
    cases v with
    | none => exact .inr ⟨key, data, rfl⟩
    | some v => exact .inl ⟨_, rfl⟩

theorem looking?_found (op : KeyOp) (v : Option Bytes) : (Thread.found op v).looking? = none := by
  rcases found_cases op v with ⟨v', hf⟩ | ⟨key, data, hf⟩
  · rw [hf]
    rfl
  · rw [hf]
    rfl

theorem found_ne_idle (op : KeyOp) (v : Option Bytes) : Thread.found op v ≠ .idle := by
  rcases found_cases op v with ⟨v', hf⟩ | ⟨key, data, hf⟩
  · rw [hf]
    simp
  · rw [hf]
    simp

end Thread

/-- Only thread `i` has gone on. -/
structure Alone (i : ι) (r r' : Running ι) : Prop where
  live : r'.live = r.live
  phase : r'.phase = r.phase
  others : ∀ j, j ≠ i → r'.threads j = r.threads j

omit [DecidableEq ι] [Fintype ι] in
theorem Alone.trans (h : Alone i r r') (h' : Alone i r' r'') : Alone i r r'' :=
  ⟨h'.live.trans h.live, h'.phase.trans h.phase,
    fun j hj => (h'.others j hj).trans (h.others j hj)⟩

omit [Fintype ι] in
theorem alone_set (i : ι) (r : Running ι) (t : Thread) (gate : Gentex) :
    Alone i r { r.set i t with gate := gate } :=
  ⟨rfl, rfl, fun _ hj => r.threads_set_of_ne hj t⟩

/-- Thread `i` can go on alone until its lookup has found something or nothing. -/
def CanFind (order : Cache.Order) (i : ι) (op : KeyOp) (r : Running ι) : Prop :=
  ∃ v r', Trace (Running.Calls order false) r [] r' ∧ r'.threads i = .found op v ∧ Alone i r r'

omit [Fintype ι] in
theorem CanFind.step (h : CanFind order i op r') (hstep : Running.Calls order false r none r')
    (ha : Alone i r r') : CanFind order i op r := by
  obtain ⟨v, r'', htrace, hi, ha'⟩ := h
  exact ⟨v, r'', (Trace.silent hstep).append htrace, hi, ha.trans ha'⟩

omit [Fintype ι] in
theorem CanFind.last {v : Option Bytes} {gate : Gentex}
    (hstep : Running.Calls order false r none { r.set i (.found op v) with gate := gate }) :
    CanFind order i op r :=
  ⟨v, _, .silent hstep, r.threads_set_self i _, alone_set i r _ gate⟩

theorem Mirrors.walking_ends (h : Mirrors cfg r s items file saved saving) {hold : Hold} {w : Walk}
    (hi : r.threads i = .walking op hold w) : CanFind order i op r := by
  have hserving := h.serving i
  rw [hi] at hserving
  generalize s.calls i = c at hserving
  cases hserving with
  | walking hseeks _ =>
    refine hseeks.ends (!op.isInsert) (P := fun w => ∀ (r : Running ι) (hold : Hold),
      Mirrors cfg r s items file saved saving → r.threads i = .walking op hold w →
        CanFind order i op r) (fun w v hw r hold h hi => ?_) (fun w w' hw hP r hold h hi => ?_)
      r hold h hi
    · have hdat : cfg.dat items <+: (r.files order).bytes .dat := (h.serves.reads h.runs).1
      have hw' := Walk.next_mono hw hdat
      rw [← h.runs.blockSize, ← h.runs.keySize, ← h.runs.hashOf] at hw'
      exact .last (.found hi hw')
    · have hdat : cfg.dat items <+: (r.files order).bytes .dat := (h.serves.reads h.runs).1
      have hw' := Walk.next_mono hw hdat
      rw [← h.runs.blockSize, ← h.runs.keySize, ← h.runs.hashOf] at hw'
      refine (hP _ _ (h.next_step hi hw' (r.live.hashOf op.key)) (r.threads_set_self i _)).step
        (.next hi hw') (alone_set i r _ r.gate)

theorem Mirrors.block_ends (h : Mirrors cfg r s items file saved saving) {n g : Nat}
    (hi : r.threads i = .block op n g) : CanFind order i op r := by
  have hsound : r.Sound order := h.sound
  obtain ⟨b, hb⟩ := hsound.block i op n g hi
  obtain ⟨s', h', -⟩ := h.read_step hi hb
  exact (h'.walking_ends (r.threads_set_self i _)).step (.read hi hb) (alone_set i r _ r.gate)

theorem Mirrors.looking_ends (h : Mirrors cfg r s items file saved saving)
    (hi : (r.threads i).looking? = some op) : CanFind order i op r := by
  cases ht : r.threads i with
  | block op' n g =>
    rw [ht] at hi
    cases hi
    exact h.block_ends ht
  | walking op' hold w =>
    rw [ht] at hi
    cases hi
    exact h.walking_ends ht
  | _ =>
    rw [ht] at hi
    cases hi

/-- A call that may take its locks. -/
theorem Mirrors.call_ends (h : Mirrors cfg r s items file saved saving)
    (hi : r.threads i = .called op) (hu : r.MayLook op) : CanFind order i op r := by
  cases hv : r.live.pooled op.key with
  | some v =>
    have hstep : Running.Calls order false r none { r.set i (.found op (some v)) with gate := r.gate } :=
      .pooled hi hu hv
    exact .last hstep
  | none =>
    cases hb : r.live.c1.find r.live.kh.blockSize (r.live.bucketOf op.key) with
    | some b =>
      obtain ⟨s', h', -⟩ := h.cached_step hi hu hv hb
      exact (h'.walking_ends (r.threads_set_self i _)).step (.cached hi hu hv hb)
        (alone_set i r _ r.gate)
    | none =>
      obtain ⟨s', h', -⟩ := h.block_step hi hu hv hb
      exact (h'.block_ends (r.threads_set_self i _)).step (.block hi hu hv hb)
        (alone_set i r _ r.gate.lockGen)

/-! ## The commit does not wait for ever -/

theorem Mirrors.trace {l : List (StoreEvent ι)} (h : Mirrors cfg r s items file saved saving)
    (ht : Trace (Running.Calls order false) r l r') :
    ∃ s', Mirrors cfg r' s' items file saved saving ∧ Trace DurableMap.Step s l s' := by
  induction ht generalizing s with
  | nil => exact ⟨s, h, .nil s⟩
  | cons hstep _ ih =>
    obtain ⟨s', h', htrace⟩ := h.calls hstep
    obtain ⟨s'', h'', htrace'⟩ := ih h'
    exact ⟨s'', h'', htrace.append htrace'⟩

omit [DecidableEq ι] in
/-- When no thread has locked a generation, `finish` does not wait. -/
theorem finished_of_held {g : Gentex} {held : ι → Option Nat} (h : g.Counts held)
    (hnone : ∀ i, held i = none) : g.Finished := by
  show g.prev = 0
  rw [h.prev, Finset.card_eq_zero, Gentex.lockers, Finset.filter_eq_empty_iff]
  intro i _
  simp [hnone i]

variable (order) in
/-- The lookups that are under way end one after the other. -/
theorem Mirrors.lookups_end (h : Mirrors cfg r s items file saved saving) :
    ∃ r', Trace (Running.Calls order false) r [] r' ∧ (∀ j, (r'.threads j).looking? = none) ∧
      (∀ j, r.threads j ≠ .idle → r'.threads j ≠ .idle) ∧ r'.phase = r.phase ∧
      r'.live = r.live := by
  -- By induction on the number of threads that are looking.
  generalize hn : (Finset.univ.filter fun i => (r.threads i).looking?.isSome = true).card = n
  induction n using Nat.strong_induction_on generalizing r s items file saved saving with
  | _ n ih =>
    by_cases hnone : ∀ i, (r.threads i).looking? = none
    · exact ⟨r, .nil r, hnone, fun _ hj => hj, rfl, rfl⟩
    obtain ⟨i, hi⟩ := not_forall.mp hnone
    obtain ⟨op, hop⟩ := Option.ne_none_iff_exists'.mp hi
    have hcan : CanFind order i op r := h.looking_ends hop
    obtain ⟨v, r₁, htrace, hfound, halone⟩ := hcan
    obtain ⟨s', h₁, -⟩ := h.trace htrace
    have hdone : (r₁.threads i).looking? = none := by
      rw [hfound]
      exact Thread.looking?_found op v
    have hlt : (Finset.univ.filter fun i => (r₁.threads i).looking?.isSome = true).card < n := by
      rw [← hn]
      refine Finset.card_lt_card (Finset.ssubset_iff_of_subset ?_ |>.mpr ⟨i, ?_, ?_⟩)
      · intro j hj
        rw [Finset.mem_filter] at hj ⊢
        have hji : j ≠ i := by
          rintro rfl
          rw [hdone] at hj
          cases hj.2
        rwa [← halone.others j hji]
      · rw [Finset.mem_filter, hop]
        exact ⟨Finset.mem_univ i, rfl⟩
      · simp [hdone]
    obtain ⟨r₂, htrace', hdone', hbusy, hphase, hlive⟩ := ih _ hlt h₁ rfl
    refine ⟨r₂, htrace.append htrace', hdone', fun j hj => hbusy j ?_,
      hphase.trans halone.phase, hlive.trans halone.live⟩
    by_cases hji : j = i
    · rw [hji, hfound]
      exact Thread.found_ne_idle op v
    · rwa [halone.others j hji]

theorem Mirrors.finish_ends (h : Mirrors cfg r s items file saved saving) :
    ∃ r', Trace (Running.Calls order false) r [] r' ∧ r'.gate.Finished ∧ r'.phase = r.phase ∧
      r'.live = r.live := by
  obtain ⟨r', htrace, hdone, -, hphase, hlive⟩ := h.lookups_end order
  obtain ⟨s', h', -⟩ := h.trace htrace
  exact ⟨r', htrace, finished_of_held h'.counts fun i => Thread.gen?_of_looking? (hdone i), hphase,
    hlive⟩

/-! ## No call waits for ever -/

variable (order) in
/-- An insert whose lookup has found nothing takes `m_` when no lookup holds it. -/
theorem Mirrors.insert_ends (h : Mirrors cfg r s items file saved saving) {key data : Bytes}
    (hi : r.threads i = .absent key data) (hdone : ∀ j, (r.threads j).looking? = none) :
    ∃ r', Running.Calls order false r none r' ∧
      r'.threads i = .answered (.insert key data) .inserted ∧ r'.phase = r.phase ∧
      ∀ j, j ≠ i → r'.threads j = r.threads j := by
  have hsound : r.Sound order := h.sound
  obtain ⟨p, hp⟩ := hsound.absent i key data hi
  have hm : r.Unshared := fun j => Thread.not_shared_of_looking? (hdone j)
  exact ⟨_, .insert hi hm hp, r.threads_set_self i _, rfl, fun j hj => r.threads_set_of_ne hj _⟩

variable (order) in
/-- The lookups end, and then the insert that holds `u_`. -/
theorem Mirrors.inserting_ends (h : Mirrors cfg r s items file saved saving) :
    ∃ r', Trace (Running.Calls order false) r [] r' ∧ (∀ j, (r'.threads j).looking? = none) ∧
      (∀ j, ¬ (r'.threads j).Inserting) ∧ (∀ j, r.threads j ≠ .idle → r'.threads j ≠ .idle) ∧
      r'.phase = r.phase := by
  obtain ⟨r₁, htrace, hdone, hbusy, hphase, -⟩ := h.lookups_end order
  obtain ⟨s', h₁, -⟩ := h.trace htrace
  by_cases hnone : ∀ j, ¬ (r₁.threads j).Inserting
  · exact ⟨r₁, htrace, hdone, hnone, hbusy, hphase⟩
  obtain ⟨i, hi⟩ := not_forall_not.mp hnone
  obtain ⟨key, data, ht⟩ := Thread.absent_of_inserting hi (hdone i)
  obtain ⟨r₂, hstep, hanswered, hphase', hsame⟩ := h₁.insert_ends order ht hdone
  refine ⟨r₂, htrace.append (.silent hstep), fun j => ?_, fun j hj => ?_, fun j hj => ?_,
    hphase'.trans hphase⟩
  · by_cases hji : j = i
    · rw [hji, hanswered]
      rfl
    · rw [hsame j hji, hdone j]
  · by_cases hji : j = i
    · rw [hji, hanswered] at hj
      exact hj
    · rw [hsame j hji] at hj
      exact hji (h₁.mutex j i hj hi)
  · by_cases hji : j = i
    · rw [hji, hanswered]
      simp
    · rw [hsame j hji]
      exact hbusy j hj

/-- Every call that is under way can be replied to, wherever the commit is. -/
theorem Mirrors.call_replies (h : Mirrors cfg r s items file saved saving)
    (hi : r.threads i ≠ .idle) :
    ∃ op v r', Trace (Running.Calls order false) r [.reply i op v] r' ∧ r'.phase = r.phase := by
  obtain ⟨r₁, htrace, hdone, hnone, hbusy, hphase⟩ := h.inserting_ends order
  obtain ⟨s₁, h₁, -⟩ := h.trace htrace
  have hanswered : ∃ op v r₂, Trace (Running.Calls order false) r₁ [] r₂ ∧
      r₂.threads i = .answered op v ∧ r₂.phase = r₁.phase := by
    cases ht : r₁.threads i with
    | idle => exact absurd ht (hbusy i hi)
    | answered op v => exact ⟨op, v, r₁, .nil r₁, ht, rfl⟩
    | called op =>
      have hcan : CanFind order i op r₁ := h₁.call_ends ht fun _ => hnone
      obtain ⟨v, r₂, htrace₂, hfound, halone⟩ := hcan
      obtain ⟨s₂, h₂, -⟩ := h₁.trace htrace₂
      have hdone₂ : ∀ j, (r₂.threads j).looking? = none := by
        intro j
        by_cases hji : j = i
        · rw [hji, hfound]
          exact Thread.looking?_found op v
        · rw [halone.others j hji, hdone j]
      rcases Thread.found_cases op v with ⟨v', hf⟩ | ⟨key, data, hf⟩
      · exact ⟨op, v', r₂, htrace₂, hfound.trans hf, halone.phase⟩
      · obtain ⟨r₃, hstep, hthread, hphase₃, -⟩ :=
          h₂.insert_ends order (hfound.trans hf) hdone₂
        exact ⟨_, _, r₃, htrace₂.append (.silent hstep), hthread, hphase₃.trans halone.phase⟩
    | absent key data => exact absurd (by rw [ht]; trivial) (hnone i)
    | block op n g =>
      have hlooking := hdone i
      rw [ht] at hlooking
      cases hlooking
    | walking op hold w =>
      have hlooking := hdone i
      rw [ht] at hlooking
      cases hlooking
  obtain ⟨op, v, r₂, htrace₂, hthread, hphase₂⟩ := hanswered
  exact ⟨op, v, _, (htrace.append htrace₂).append (.event (.reply hthread)), hphase₂.trans hphase⟩

end Metcalfe.Nudb
