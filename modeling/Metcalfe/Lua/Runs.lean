import Metcalfe.Library.Steps
import Metcalfe.Lua.Confinement

/-!
# Runs

Every operation that the policy permits preserves the invariant (`Confined.step`), and the state
that `sc.init` leaves has it (`start_confined`). So it holds along every run that keeps to the
policy (`run_confined`).
-/

namespace Metcalfe.Lua

open Policy

variable {N : Type} [LuaNumber N] [DecidableEq N] {P : Policy} {st : State N}

namespace Confined

theorem allClear_of_knows (h : Confined P st) {vs : List (Value N)} (hvs : st.knows vs = true) :
    P.AllClear vs := by
  intro v hv
  exact h.known v (of_decide_eq_true (List.all_eq_true.mp hvs v hv))

theorem assign (h : Confined P st) {v k w : Value N} (hclear : P.AllClear [v, k, w]) :
    Confined P (st.assign v k w) := by
  simp only [allClear_cons] at hclear
  have hstore := h.heap.settable (k := k) maxTagLoop hclear.1
  unfold State.assign
  split
  · rename_i r hr
    rw [hr] at hstore
    exact h.modify hstore fun ht => ht.rawset hclear.2.1 hclear.2.2.1
  · rename_i f object hf
    rw [hf] at hstore
    apply h.push
    apply good_call
    · simp [hstore.1, hstore.2, hclear]
    · intro _ _
      simp [Good]
  · exact h

/-- A function of `sc.init` starts. -/
theorem enter (h : Confined P st) {i : Nat} {f : InitFn} {args : List (Value N)}
    {next : List (Value N) → Prog N} (hi : st.pending[i]? = some ⟨.init f, args, next⟩)
    (hok : P.permits st (.enter i) = true) :
    Confined P (Lua.exec ((code f args).bind next) (st.drop i)) := by
  rcases h.good_frame hi with ⟨hclear, hnext⟩ | ⟨b, hb, -⟩
  · have hargs := (allClear_cons.mp hclear).2
    cases f with
    | printable => exact (h.drop i).exec (good_bind (good_printable hargs.first) hnext)
    | getledgerseq =>
      exact (h.drop i).exec (good_bind (good_getledgerseq hargs.first hargs.second) hnext)
    | sleep =>
      cases hguarded : P.guarded with
      | false => exact (h.drop i).exec (good_bind (good_sleep hguarded hargs.first) hnext)
      | true =>
        -- the global `type` is read first, and it is the original function
        have htype : gettable (st.drop i).heap (.str "type") maxTagLoop (.table .globals) =
            .found (.func (.builtin (.base .type))) := by
          simpa [permits, hguarded, typeIntact, hi, State.drop] using
            (Bool.and_eq_true_iff.mp hok).1
        simp only [code, sleep, Prog.global, Prog.bind, Lua.exec, htype]
        exact (h.drop i).exec (good_bind (good_sleepWith_type hargs.first) hnext)
  · cases hb

theorem builtin (h : Confined P st) {st' : State N} {i : Nat} {b : Builtin}
    {args vs : List (Value N)} {next : List (Value N) → Prog N}
    (hi : st.pending[i]? = some ⟨.builtin b, args, next⟩)
    (hok : P.permits st (.builtin i vs) = true) (hrespond : Lua.respond st b args vs = some st') :
    Confined P (Lua.exec (next vs) (st'.drop i)) := by
  rcases h.good_frame hi with ⟨hclear, hnext⟩ | ⟨b', hb', hgranted, hnext⟩
  · have hname : P.closed = true → b = .base .require → (first args).toStr? ≠ some "sqlite3" := by
      rintro hclosed rfl
      simpa [permits, hclosed, sparesSqlite, hi] using (Bool.and_eq_true_iff.mp hok).2
    obtain ⟨h', hvs⟩ := h.respond hclear hname hrespond
    exact (h'.drop i).exec (hnext vs hvs)
  · cases hb'
    obtain ⟨rfl, hreply⟩ := respond_granted hgranted hrespond
    exact (h.drop i).exec (hnext vs hreply)

theorem clear_rowFields {columns : List (Value N)} (hcolumns : columns.all Value.isPrim = true) :
    ∀ e ∈ rowFields columns, P.clear e.1 = true ∧ P.clear e.2 = true := by
  intro e he
  obtain ⟨c, hc, hce⟩ := List.mem_filterMap.mp he
  simp only [Option.ite_none_left_eq_some, Option.some.injEq] at hce
  obtain ⟨-, rfl⟩ := hce
  have hcolumn := List.all_eq_true.mp hcolumns c.1 (List.fst_mem_of_mem_zipIdx hc)
  exact ⟨clear_num _, clear_of_isPrim hcolumn⟩

theorem row (h : Confined P st) {i : Nat} {args columns : List (Value N)}
    {next : List (Value N) → Prog N}
    (hi : st.pending[i]? = some ⟨.builtin .dbNextPackedRow, args, next⟩)
    (hcolumns : columns.all Value.isPrim = true) :
    Confined P
      (Lua.exec (next [.table (.new st.fresh)]) ((st.allocate (rowFields columns)).drop i)) := by
  apply ((h.allocate (clear_rowFields hcolumns)).drop i).exec
  rcases h.good_frame hi with ⟨-, hnext⟩ | ⟨b, hb, -, hnext⟩
  · exact hnext _ (by simp)
  · cases hb
    exact hnext _ (Or.inr ⟨_, rfl⟩)

/-- A permitted operation preserves the invariant. -/
theorem step (h : Confined P st) {op : Op N} (hok : P.permits st op = true) :
    Confined P (step st op) := by
  cases op with
  | literal v =>
    simp only [Lua.step]
    split
    · exact h.learn (by simp [clear_of_isPrim (P := P) ‹_›])
    · exact h
  | function id =>
    have hclosure : P.clear (.func (.closure id) : Value N) = true := clear_of_isPlain rfl
    exact h.learn (by simp [hclosure])
  | newTable => exact (h.allocate (by simp)).learn (by simp)
  | index v k =>
    simp only [Lua.step]
    split
    · exact h.exec (good_index (h.allClear_of_knows ‹_›) fun w hw => by simp [Good, hw])
    · exact h
  | assign v k w =>
    simp only [Lua.step]
    split
    · exact h.assign (h.allClear_of_knows ‹_›)
    · exact h
  | binary op a b =>
    simp only [Lua.step]
    split
    · exact h.exec (good_binary (h.allClear_of_knows ‹_›) fun w hw => by simp [Good, hw])
    · exact h
  | call f args =>
    simp only [Lua.step]
    split
    · exact h.exec (good_call (h.allClear_of_knows ‹_›) fun vs hvs => hvs)
    · exact h
  | enter i =>
    simp only [Lua.step]
    split
    · exact h.enter ‹_› hok
    · exact h
  | builtin i vs =>
    simp only [Lua.step]
    split
    · split
      · exact h.builtin ‹_› hok ‹_›
      · exact h
    · exact h
  | row i columns =>
    simp only [Lua.step]
    split
    · split
      · exact h.row ‹_› ‹_›
      · exact h
    · exact h
  | ret i vs =>
    simp only [Lua.step]
    split
    · rename_i id args next hi
      split
      · rcases h.good_frame hi with ⟨-, hnext⟩ | ⟨b, hb, -⟩
        · exact (h.drop i).exec (hnext vs (h.allClear_of_knows ‹_›))
        · cases hb
      · exact h
    · exact h
  | raise i => exact h.drop i

end Confined

/-! ## After sc.init -/

/-- What `sc.init` leaves in the tables a contract may have. -/
theorem start_clearHeap : P.ClearHeap (start : State N).heap := by
  obtain ⟨closed, guarded⟩ := P
  intro r hr
  cases closed with
  | false | true =>
    cases r with
    | globals | stringMeta | new => exact ClearTable.of_all rfl rfl
    | loaded | preload | searchers => cases hr
    | lib l => cases l <;> first | exact ClearTable.of_all rfl rfl | cases hr
    | handleMeta kind => cases kind <;> first | exact ClearTable.of_all rfl rfl | cases hr

theorem start_confined : Confined P (start : State N) where
  known := by simp [start]
  heap := start_clearHeap
  loaded := by
    have hall : ((start : State N).heap .loaded).fields.all
        (fun e => P.clear e.2 || (P.closed && decide (e.1 = .str "sqlite3"))) = true := by
      obtain ⟨closed, guarded⟩ := P
      cases closed <;> rfl
    intro e he
    simpa using List.all_eq_true.mp hall e he
  fixed := by
    intro _ r hr
    cases r with
    | lib l =>
      cases of_decide_eq_true hr
      rfl
    | handleMeta kind => rfl
    | globals | loaded | preload | searchers | stringMeta | new => cases hr
  pending := by simp [start]
  trace := by simp [start]

/-- The invariant holds along every run that keeps to the policy. -/
theorem run_confined {ops : List (Op N)} (hok : Steps.along step P.permits start ops = true) :
    Confined P (run ops) :=
  Steps.invariant (fun _ _ hop h => h.step hop) start_confined hok

/-- Nobody gets `sqlite3` from `require`. -/
def unshared : Policy := ⟨true, false⟩

theorem permits_unshared : unshared.permits = sparesSqlite (N := N) := by
  ext st op
  simp [unshared, Policy.permits]

theorem run_unshared (ops : List (Op N)) (hok : Steps.along step sparesSqlite start ops = true) :
    Confined unshared (run ops) := by
  apply run_confined
  rw [permits_unshared]
  exact hok

end Metcalfe.Lua
