import Metcalfe.Lua.Code

/-!
# Confinement

The invariant `Confined` says that everything the contract knows is clear, that clear tables lead
to clear values only, that the tables of `sqlite3` are as they were where the policy closes them,
and that the code which waits in the frames is good. Good code preserves it up to its next call
(`Confined.exec`), and so does a C function that returns (`Confined.respond`): what the contract
may call gives it nothing it may not have.
-/

namespace Metcalfe.Lua

open Policy

variable {N : Type} [LuaNumber N]

structure Confined (P : Policy) (st : State N) : Prop where
  known : P.AllClear st.known
  heap : P.ClearHeap st.heap
  /-- `require` gives clear values, except for `sqlite3` where it is closed. -/
  loaded : ∀ e ∈ (st.heap .loaded).fields,
    P.clear e.2 = true ∨ (P.closed = true ∧ e.1 = .str "sqlite3")
  fixed : P.closed = true → ∀ r, (.table r : Value N).ofSqlite = true → st.heap r = opened r
  pending : ∀ frame ∈ st.pending, P.Good (.call (.func frame.callee) frame.args frame.next)
  trace : ∀ e ∈ st.trace, P.Ordered e.1 e.2

/-- Where nobody has changed the tables of `sqlite3`, neither has what `getledgerseq` reads
changed: the fields of the module, and the methods of a database, found along `__index`. -/
theorem Policy.Fixed.gettable [DecidableEq N] {heap : Heap N} {v k w : Value N} (hw : Fixed v k w)
    (hfixed : ∀ r, (.table r : Value N).ofSqlite = true → heap r = opened r) :
    gettable heap k maxTagLoop v = .found w := by
  have hmodule : ∀ key, ownField heap sqlite key = (opened (.lib .sqlite3)).rawget key := by
    intro key
    rw [← hfixed (.lib .sqlite3) rfl]
    rfl
  have hmethod : ∀ key, ownField heap (.table (.handleMeta .db)) key =
      (opened (.handleMeta .db)).rawget key := by
    intro key
    rw [← hfixed (.handleMeta .db) rfl]
    rfl
  have hdb : ∀ i key, Lua.gettable heap key maxTagLoop (.userdata .db i) =
      Lua.gettable heap key 99 (.table (.handleMeta .db)) := by
    intro i key
    exact gettable_index 99 rfl (hmethod (.str "__index"))
  cases hw with
  | open_ | flags =>
    rw [show maxTagLoop = 99 + 1 from rfl, gettable_own, hmodule]
    · rfl
    · rw [hmodule]
      nofun
  | rows i | close i =>
    rw [hdb, gettable_own, hmethod]
    · rfl
    · rw [hmethod]
      nofun

variable {P : Policy} {st : State N}

namespace Confined

/-! ## Parts of a step -/

theorem learn (h : Confined P st) {vs : List (Value N)} (hvs : P.AllClear vs) :
    Confined P (st.learn vs) :=
  { h with known := hvs.append h.known }

theorem drop (h : Confined P st) (i : Nat) : Confined P (st.drop i) :=
  { h with pending := fun frame hframe => h.pending frame (List.mem_of_mem_eraseIdx hframe) }

theorem good_frame (h : Confined P st) {i : Nat} {frame : Frame N}
    (hi : st.pending[i]? = some frame) :
    P.Good (.call (.func frame.callee) frame.args frame.next) :=
  h.pending frame (List.mem_of_getElem? hi)

/-- A call of the shell or an `open` that the policy restricts is not made with clear values. -/
theorem ordered_of_clear {b : Builtin} {args : List (Value N)}
    (h : P.clear (.func (.builtin b) : Value N) = true) : P.Ordered b args := by
  unfold Ordered
  split
  · simp [clear, Value.restricted, Builtin.restricted] at h
  · intro hclosed
    simp [clear, Value.ofSqlite, Builtin.ofSqlite, hclosed] at h
  · trivial

theorem push (h : Confined P st) {frame : Frame N}
    (hframe : P.Good (.call (.func frame.callee) frame.args frame.next)) :
    Confined P (st.push frame) where
  known := by
    simp only [State.push]
    split
    · rename_i hleaks
      apply AllClear.append _ h.known
      rcases hframe with ⟨hclear, -⟩ | ⟨b, hb, hgranted, -⟩
      · exact (allClear_cons.mp hclear).2
      · -- of the functions granted to `sc.init`, only `type` can be the contract's too
        simp only [Value.func.injEq] at hb
        rw [hb] at hleaks
        cases hgranted with
        | type hargs => exact hargs
        | execute | open_ | rows | nextRow | close => cases hleaks
    · exact h.known
  heap := h.heap
  loaded := h.loaded
  fixed := h.fixed
  pending := by
    intro other hother
    rcases List.mem_cons.mp hother with rfl | hother
    · exact hframe
    · exact h.pending other hother
  trace := by
    intro e he
    simp only [State.push] at he
    split at he
    · rename_i b hb
      rcases List.mem_cons.mp he with rfl | he
      · rcases hframe with ⟨hclear, -⟩ | ⟨b', hb', hgranted, -⟩
        · rw [hb] at hclear
          exact ordered_of_clear (allClear_cons.mp hclear).1
        · rw [hb] at hb'
          cases hb'
          cases hgranted with
          | execute hordered | open_ hordered => exact hordered
          | type | rows | nextRow | close => trivial
      · exact h.trace e he
    · exact h.trace e he

theorem modify (h : Confined P st) {r : Ref} {f : Table N → Table N}
    (hr : P.clear (.table r : Value N) = true)
    (hf : P.ClearTable (st.heap r) → P.ClearTable (f (st.heap r))) :
    Confined P (st.modify r f) where
  known := h.known
  heap := by
    intro r' hr'
    simp only [State.modify, Heap.modify]
    by_cases heq : r' = r
    · subst heq
      rw [Function.update_self]
      exact hf (h.heap r' hr')
    · rw [Function.update_of_ne heq]
      exact h.heap r' hr'
  loaded := by
    have hne : Ref.loaded ≠ r := by
      rintro rfl
      simp [clear, Value.restricted] at hr
    simp only [State.modify, Heap.modify, Function.update_of_ne hne]
    exact h.loaded
  fixed := by
    intro hclosed r' hr'
    have hne : r' ≠ r := by
      rintro rfl
      simp [clear, hclosed, hr'] at hr
    simp only [State.modify, Heap.modify, Function.update_of_ne hne]
    exact h.fixed hclosed r' hr'
  pending := h.pending
  trace := h.trace

theorem allocate (h : Confined P st) {fields : List (Value N × Value N)}
    (hfields : ∀ e ∈ fields, P.clear e.1 = true ∧ P.clear e.2 = true) :
    Confined P (st.allocate fields) := by
  have hnew : st.heap.modify (.new st.fresh) (fun _ => { fields, metatable := none }) =
      (st.allocate fields).heap := rfl
  have hmod := h.modify (r := .new st.fresh) (f := fun _ => { fields, metatable := none })
    (clear_new _) (fun _ => ⟨hfields, by simp⟩)
  exact { hmod with }

variable [DecidableEq N]

theorem invoke (h : Confined P st) {f : Value N} {args : List (Value N)}
    {next : List (Value N) → Prog N} (hcall : P.Good (.call f args next)) :
    Confined P (st.invoke f args next) := by
  unfold State.invoke
  split
  · rename_i g args' hcallee
    apply h.push
    unfold callee at hcallee
    split at hcallee
    · cases hcallee
      exact hcall
    · rename_i hfunc
      split at hcallee
      · rename_i g' hg'
        cases hcallee
        rcases hcall with ⟨hclear, hnext⟩ | ⟨b, hb, -⟩
        · have hcallable := h.heap.metamethod (allClear_cons.mp hclear).1 "__call"
          rw [hg'] at hcallable
          exact good_call (allClear_cons.mpr ⟨hcallable, hclear⟩) hnext
        · exact absurd hb (hfunc _)
      · cases hcallee
  · exact h

/-- Code that keeps to the policy preserves the invariant. -/
theorem exec {p : Prog N} (h : Confined P st) (hp : P.Good p) : Confined P (exec p st) := by
  induction p with
  | ret vs => exact h.learn hp
  | index v k next ih =>
    simp only [Lua.exec]
    rcases hp with ⟨hclear, hnext⟩ | ⟨hclosed, w, hw, hnext⟩
    · simp only [allClear_cons] at hclear
      have haccess := h.heap.gettable (k := k) maxTagLoop hclear.1
      split
      · rename_i w hw
        rw [hw] at haccess
        exact ih w (hnext w haccess)
      · rename_i f object hf
        rw [hf] at haccess
        apply h.push
        apply good_call
        · simp [haccess.1, haccess.2, hclear]
        · exact fun vs hvs => hnext _ hvs.first
      · exact h
    · rw [hw.gettable (h.fixed hclosed)]
      exact ih w hnext
  | binary op a b next ih =>
    obtain ⟨hclear, hraw, hmeta⟩ := hp
    simp only [Lua.exec]
    split
    · rename_i w hw
      exact ih w (hraw w hw)
    · rename_i hnone
      simp only [allClear_cons] at hclear
      apply h.invoke
      apply good_call
      · simp [h.heap.binaryHandler op hclear.1 hclear.2.1, hclear]
      · exact fun vs hvs => hmeta hnone _ hvs.first
  | call f args next ih => exact h.invoke hp
  | loop l next ih =>
    obtain ⟨hloop, hnext⟩ := hp
    apply h.invoke
    exact good_bind (p := .call l.iterator l.args l.turn) (good_turn hloop) hnext

/-! ## C functions -/

omit [LuaNumber N] [DecidableEq N] in
theorem reply_of_sqliteReturns {b : Builtin} {args vs : List (Value N)}
    (h : sqliteReturns b args vs = true) : Reply b args vs := by
  unfold sqliteReturns at h
  split at h
  · exact Or.inl ⟨_, rfl⟩
  · exact Or.inr rfl
  · exact ⟨_, rfl⟩
  · exact Or.inl rfl
  · trivial
  · cases h

omit [LuaNumber N] [DecidableEq N] in
theorem allClear_of_sqliteReturns {b : Builtin} {args vs : List (Value N)}
    (hb : P.clear (.func (.builtin b) : Value N) = true) (h : sqliteReturns b args vs = true) :
    P.AllClear vs := by
  unfold sqliteReturns at h
  split at h
  · exact allClear_cons.mpr ⟨clear_of_ofSqlite hb rfl rfl, allClear_nil⟩
  · simp
  · refine allClear_cons.mpr ⟨clear_of_ofSqlite hb rfl rfl, allClear_cons.mpr ⟨?_, allClear_nil⟩⟩
    exact clear_of_ofSqlite hb rfl rfl
  · simp
  · simp
  · cases h

/-- The functions granted to `sc.init` change nothing, and return what it relies on. -/
theorem respond_granted {st' : State N} {b : Builtin} {args vs : List (Value N)}
    (hgranted : P.Granted b args) (hrespond : respond st b args vs = some st') :
    st' = st ∧ Reply b args vs := by
  cases hgranted with
  | type =>
    simp only [Lua.respond, Option.ite_none_right_eq_some, Option.some.injEq] at hrespond
    exact ⟨hrespond.2.symm, hrespond.1.2⟩
  | execute =>
    simp only [Lua.respond, Option.ite_none_right_eq_some, Option.some.injEq] at hrespond
    exact ⟨hrespond.2.symm, List.all_eq_true.mp hrespond.1⟩
  | open_ | rows | nextRow | close =>
    simp only [Lua.respond, Option.ite_none_right_eq_some, Option.some.injEq] at hrespond
    exact ⟨hrespond.2.symm, reply_of_sqliteReturns hrespond.1⟩

theorem clear_of_obtainable (h : Confined P st) {args : List (Value N)} (hargs : P.AllClear args)
    {v : Value N} (hv : obtainable st args v = true) : P.clear v = true := by
  simp only [obtainable, Bool.or_eq_true, decide_eq_true_eq, List.any_eq_true] at hv
  rcases hv with ((hplain | hknown) | harg) | ⟨a, ha, hfield⟩
  · exact clear_of_isPlain hplain
  · exact h.known v hknown
  · exact hargs v harg
  · split at hfield
    · rename_i r
      obtain ⟨e, he, hev⟩ := List.any_eq_true.mp hfield
      have hclear := (h.heap r (hargs _ ha)).fields e he
      rcases of_decide_eq_true hev with rfl | rfl
      · exact hclear.1
      · exact hclear.2
    · cases hfield

theorem clear_getmetatable (h : Confined P st) {v : Value N} (hv : P.clear v = true) :
    P.clear (Base.getmetatable st.heap v) = true := by
  unfold Base.getmetatable
  split
  · exact clear_nil
  · rename_i m hm
    have hclear := h.heap.metatableOf hv hm
    dsimp only
    split
    · exact (h.heap m hclear).rawget _
    · exact hclear

section Base

variable {st' : State N} {args vs : List (Value N)}

theorem setmetatable (h : Confined P st) (hargs : P.AllClear args)
    (hrespond : Base.setmetatable st args vs = some st') : Confined P st' ∧ P.AllClear vs := by
  have hfirst := hargs.first
  have hsecond := hargs.second
  unfold Base.setmetatable at hrespond
  split at hrespond
  · rename_i r m hr hm
    rw [hr] at hfirst
    rw [hm] at hsecond
    simp only [Option.ite_none_right_eq_some, Option.some.injEq] at hrespond
    obtain ⟨⟨-, rfl⟩, rfl⟩ := hrespond
    refine ⟨h.modify hfirst fun ht => ⟨ht.fields, ?_⟩, by simp [hfirst]⟩
    rintro m' ⟨⟩
    exact hsecond
  · rename_i r hr _
    rw [hr] at hfirst
    simp only [Option.ite_none_right_eq_some, Option.some.injEq] at hrespond
    obtain ⟨⟨-, rfl⟩, rfl⟩ := hrespond
    exact ⟨h.modify hfirst fun ht => ⟨ht.fields, by nofun⟩, by simp [hfirst]⟩
  · cases hrespond

theorem rawget (h : Confined P st) (hargs : P.AllClear args)
    (hrespond : Base.rawget st args vs = some st') : Confined P st' ∧ P.AllClear vs := by
  have hfirst := hargs.first
  unfold Base.rawget at hrespond
  split at hrespond
  · rename_i r hr
    rw [hr] at hfirst
    simp only [Option.ite_none_right_eq_some, Option.some.injEq] at hrespond
    obtain ⟨rfl, rfl⟩ := hrespond
    exact ⟨h, by simp [(h.heap r hfirst).rawget]⟩
  · cases hrespond

theorem rawset (h : Confined P st) (hargs : P.AllClear args)
    (hrespond : Base.rawset st args vs = some st') : Confined P st' ∧ P.AllClear vs := by
  have hfirst := hargs.first
  unfold Base.rawset at hrespond
  split at hrespond
  · rename_i r hr
    rw [hr] at hfirst
    simp only [Option.ite_none_right_eq_some, Option.some.injEq] at hrespond
    obtain ⟨⟨-, rfl⟩, rfl⟩ := hrespond
    exact ⟨h.modify hfirst fun ht => ht.rawset hargs.second hargs.tail.second, by simp [hfirst]⟩
  · cases hrespond

theorem next (h : Confined P st) (hargs : P.AllClear args)
    (hrespond : Base.next st args vs = some st') : Confined P st' ∧ P.AllClear vs := by
  have hfirst := hargs.first
  unfold Base.next at hrespond
  split at hrespond
  · rename_i r hr
    rw [hr] at hfirst
    simp only [Option.ite_none_right_eq_some, Option.some.injEq] at hrespond
    obtain ⟨hvs, rfl⟩ := hrespond
    refine ⟨h, ?_⟩
    rcases hvs with rfl | ⟨e, he, rfl⟩
    · simp
    · simp [(h.heap r hfirst).fields e he]
  · cases hrespond

/-- What `package.loaded` has for a name, except for `sqlite3` where it is closed. -/
theorem clear_loaded (h : Confined P st) {name : String}
    (hname : P.closed = true → name ≠ "sqlite3") :
    P.clear ((st.heap .loaded).rawget (.str name)) = true := by
  rcases (st.heap .loaded).rawget_eq_nil_or_mem (.str name) with hnil | hmem
  · simp [hnil]
  · rcases h.loaded _ hmem with hclear | ⟨hclosed, hsqlite⟩
    · exact hclear
    · cases hsqlite
      exact absurd rfl (hname hclosed)

/-- A module is entered in `package.loaded`. -/
theorem load (h : Confined P st) {k v : Value N} (hv : P.clear v = true) :
    Confined P (st.modify .loaded fun t => t.rawset k v) where
  known := h.known
  heap := by
    intro r hr
    have hne : r ≠ .loaded := by
      rintro rfl
      simp [clear, Value.restricted] at hr
    simp only [State.modify, Heap.modify, Function.update_of_ne hne]
    exact h.heap r hr
  loaded := by
    intro e he
    simp only [State.modify, Heap.modify, Function.update_self] at he
    rcases Table.mem_rawset he with rfl | he
    · exact Or.inl hv
    · exact h.loaded e he
  fixed := by
    intro hclosed r hr
    have hne : r ≠ .loaded := by
      rintro rfl
      cases hr
    simp only [State.modify, Heap.modify, Function.update_of_ne hne]
    exact h.fixed hclosed r hr
  pending := h.pending
  trace := h.trace

theorem require (h : Confined P st) (hname : P.closed = true → (first args).toStr? ≠ some "sqlite3")
    (hrespond : Base.require st args vs = some st') : Confined P st' ∧ P.AllClear vs := by
  unfold Base.require at hrespond
  split at hrespond
  · cases hrespond
  · rename_i name hstr
    have hentry : P.clear ((st.heap .loaded).rawget (.str name)) = true := by
      apply h.clear_loaded
      rintro hclosed rfl
      exact hname hclosed hstr
    dsimp only at hrespond
    split at hrespond
    · simp only [Option.ite_none_right_eq_some, Option.some.injEq] at hrespond
      obtain ⟨rfl, rfl⟩ := hrespond
      exact ⟨h, by simp [hentry]⟩
    · split at hrespond
      · rename_i v
        simp only [Option.ite_none_right_eq_some, Option.some.injEq] at hrespond
        obtain ⟨⟨-, hv⟩, rfl⟩ := hrespond
        have hclear : P.clear v = true := by
          rcases hv with rfl | hv
          · exact clear_of_isPlain rfl
          · exact h.known v hv
        exact ⟨h.load hclear, by simp [hclear]⟩
      · cases hrespond

end Base

/-- A C function that the contract may have, called with clear values, returns clear values. -/
theorem respond (h : Confined P st) {st' : State N} {b : Builtin} {args vs : List (Value N)}
    (hclear : P.AllClear (.func (.builtin b) :: args))
    (hname : P.closed = true → b = .base .require → (first args).toStr? ≠ some "sqlite3")
    (hrespond : respond st b args vs = some st') : Confined P st' ∧ P.AllClear vs := by
  obtain ⟨hb, hargs⟩ := allClear_cons.mp hclear
  unfold Lua.respond at hrespond
  split at hrespond
  · -- type
    simp only [Option.ite_none_right_eq_some, Option.some.injEq] at hrespond
    obtain ⟨⟨-, rfl⟩, rfl⟩ := hrespond
    exact ⟨h, by simp⟩
  · exact h.require (fun hclosed => hname hclosed rfl) hrespond
  · -- getmetatable
    simp only [Option.ite_none_right_eq_some, Option.some.injEq] at hrespond
    obtain ⟨rfl, rfl⟩ := hrespond
    exact ⟨h, by simp [h.clear_getmetatable hargs.first]⟩
  · exact h.setmetatable hargs hrespond
  · exact h.rawget hargs hrespond
  · exact h.rawset hargs hrespond
  · exact h.next hargs hrespond
  · -- os.execute is not clear
    simp [clear, Value.restricted, Builtin.restricted] at hb
  all_goals try
    simp only [Option.ite_none_right_eq_some, Option.some.injEq] at hrespond
    obtain ⟨hvs, rfl⟩ := hrespond
    exact ⟨h, allClear_of_sqliteReturns hb hvs⟩
  -- the functions without a case of their own
  split at hrespond
  · rename_i hreveals
    simp [clear, Value.restricted, restricted_of_reveals hreveals] at hb
  · simp only [Option.ite_none_right_eq_some, Option.some.injEq] at hrespond
    obtain ⟨hvs, rfl⟩ := hrespond
    refine ⟨h, ?_⟩
    intro v hv
    have hv' := List.all_eq_true.mp hvs v hv
    simp only [Bool.or_eq_true, Bool.and_eq_true] at hv'
    rcases hv' with hv' | ⟨hfn, hv'⟩
    · exact h.clear_of_obtainable hargs hv'
    · exact clear_of_ofSqlite hb hfn hv'

end Confined

end Metcalfe.Lua
