import Metcalfe.Lua.Machine

/-!
# What contracts may have

A run of a contract is measured against a policy. A value is clear under it when the contract may
have the value. Clear tables lead to clear values only (`ClearHeap`), so reads, writes, operators
and calls on clear values end in clear values and clear functions, whatever metatables the
contract has set.
-/

namespace Metcalfe.Lua

variable {N : Type}

/-- What the run is asked to respect. -/
structure Policy where
  /-- Nobody gets `sqlite3` from `require`. -/
  closed : Bool
  /-- `sleep` starts only while the global `type` is the original function. -/
  guarded : Bool

/-- The functions that `sc.init` takes away: those of `debug`, `io` and `package`, those of `os`
but four, and the functions that compile code. -/
def Builtin.restricted : Builtin → Bool
  | .os f => f ∉ [OsFn.clock, .date, .difftime, .time]
  | b => b.reveals

/-- These functions, and the tables and files that lead to them. -/
def Value.restricted : Value N → Bool
  | .func (.builtin b) => b.restricted
  | .table (.lib l) => l = .package
  | .table .loaded | .table .preload | .table .searchers => true
  | .table (.handleMeta h) => h = .file
  | .userdata h _ => h = .file
  | _ => false

/-- `sleep` starts only while the global `type` is the original function. -/
def typeIntact [DecidableEq N] (st : State N) : Op N → Bool
  | .enter i =>
    match st.pending[i]? with
    | some ⟨.init .sleep, _, _⟩ =>
      gettable st.heap (.str "type") maxTagLoop (.table .globals) =
        .found (.func (.builtin (.base .type)))
    | _ => true
  | _ => true

/-- `require` is not asked for `sqlite3`. -/
def sparesSqlite [LuaNumber N] (st : State N) : Op N → Bool
  | .builtin i _ =>
    match st.pending[i]? with
    | some ⟨.builtin (.base .require), args, _⟩ => (first args).toStr? ≠ some "sqlite3"
    | _ => true
  | _ => true

namespace Policy

variable (P : Policy)

def permits [DecidableEq N] [LuaNumber N] (st : State N) (op : Op N) : Bool :=
  (!P.guarded || typeIntact st op) && (!P.closed || sparesSqlite st op)

/-! ## Clear values -/

def clear (v : Value N) : Bool := !v.restricted && !(P.closed && v.ofSqlite)

def AllClear (vs : List (Value N)) : Prop := ∀ v ∈ vs, P.clear v = true

structure ClearTable (t : Table N) : Prop where
  fields : ∀ e ∈ t.fields, P.clear e.1 = true ∧ P.clear e.2 = true
  metatable : ∀ m, t.metatable = some m → P.clear (.table m : Value N) = true

def ClearHeap (heap : Heap N) : Prop :=
  ∀ r, P.clear (.table r : Value N) = true → P.ClearTable (heap r)

variable {P} {heap : Heap N} {v w k : Value N} {vs ws : List (Value N)}

@[simp] theorem clear_nil : P.clear (.nil : Value N) = true := by
  simp [clear, Value.restricted, Value.ofSqlite]

@[simp] theorem clear_num (n : N) : P.clear (.num n) = true := by
  simp [clear, Value.restricted, Value.ofSqlite]

@[simp] theorem clear_str (s : String) : P.clear (.str s : Value N) = true := by
  simp [clear, Value.restricted, Value.ofSqlite]

@[simp] theorem clear_new (n : Nat) : P.clear (.table (.new n) : Value N) = true := by
  simp [clear, Value.restricted, Value.ofSqlite]

@[simp] theorem clear_globals : P.clear (.table .globals : Value N) = true := by
  simp [clear, Value.restricted, Value.ofSqlite]

theorem clear_of_isPlain (h : v.isPlain = true) : P.clear v = true := by
  unfold Value.isPlain at h
  split at h
  all_goals first
    | cases h; done
    | simp [clear, Value.restricted, Value.ofSqlite, Builtin.restricted, Builtin.reveals,
        Builtin.ofSqlite]

theorem clear_of_isPrim (h : v.isPrim = true) : P.clear v = true := by
  apply clear_of_isPlain
  unfold Value.isPrim at h
  split at h <;> first | rfl | cases h

theorem restricted_of_reveals {b : Builtin} (h : b.reveals = true) : b.restricted = true := by
  cases b with
  | os => cases h
  | base | lib | method => exact h
  | sqliteOpen | dbRows | dbClose | dbNextPackedRow => cases h

theorem not_restricted_of_ofSqlite (h : v.ofSqlite = true) : v.restricted = false := by
  unfold Value.ofSqlite at h
  split at h
  · rename_i b
    cases b with
    | sqliteOpen | dbRows | dbClose | dbNextPackedRow => rfl
    | base | os => cases h
    | lib l name =>
      cases of_decide_eq_true h
      rfl
    | method kind name => exact decide_eq_false (of_decide_eq_true h)
  · exact decide_eq_false (of_decide_eq_true h)
  · cases of_decide_eq_true h
    rfl
  · exact decide_eq_false (of_decide_eq_true h)
  · cases h

/-- A policy that leaves the contract one function of `sqlite3` leaves it all of `sqlite3`. -/
theorem clear_of_ofSqlite {b : Builtin} (hclear : P.clear (.func (.builtin b) : Value N) = true)
    (hb : b.ofSqlite = true) (hv : v.ofSqlite = true) : P.clear v = true := by
  simp only [clear, Value.ofSqlite, hb, Bool.and_true, Bool.and_eq_true,
    Bool.not_eq_true'] at hclear
  simp [clear, not_restricted_of_ofSqlite hv, hclear.2]

@[simp] theorem allClear_nil : P.AllClear ([] : List (Value N)) := by
  simp [AllClear]

@[simp] theorem allClear_cons : P.AllClear (v :: vs) ↔ P.clear v = true ∧ P.AllClear vs := by
  simp [AllClear]

theorem AllClear.append (h : P.AllClear vs) (h' : P.AllClear ws) : P.AllClear (vs ++ ws) := by
  intro v hv
  exact (List.mem_append.mp hv).elim (h v) (h' v)

theorem AllClear.tail (h : P.AllClear vs) : P.AllClear vs.tail := by
  intro v hv
  exact h v (List.mem_of_mem_tail hv)

theorem AllClear.first (h : P.AllClear vs) : P.clear (first vs) = true := by
  cases vs with
  | nil => exact clear_nil
  | cons v vs => exact h v List.mem_cons_self

theorem AllClear.second (h : P.AllClear vs) : P.clear (second vs) = true := h.tail.first

theorem ClearTable.of_all {t : Table N}
    (hfields : (t.fields.all fun e => P.clear e.1 && P.clear e.2) = true)
    (hmetatable : (t.metatable.all fun m => P.clear (.table m : Value N)) = true) :
    P.ClearTable t where
  fields := by
    intro e he
    exact Bool.and_eq_true_iff.mp (List.all_eq_true.mp hfields e he)
  metatable := by
    intro m hm
    rw [hm] at hmetatable
    exact hmetatable

/-! ## Accesses -/

variable [DecidableEq N]

theorem ClearTable.rawget {t : Table N} (h : P.ClearTable t) (k : Value N) :
    P.clear (t.rawget k) = true := by
  rcases t.rawget_eq_nil_or_mem k with hnil | hmem
  · rw [hnil]
    exact clear_nil
  · exact (h.fields _ hmem).2

theorem ClearTable.rawset {t : Table N} (h : P.ClearTable t) (hk : P.clear k = true)
    (hw : P.clear w = true) : P.ClearTable (t.rawset k w) where
  fields := by
    intro e he
    rcases Table.mem_rawset he with rfl | hmem
    · exact ⟨hk, hw⟩
    · exact h.fields e hmem
  metatable := h.metatable

theorem ClearHeap.ownField (h : P.ClearHeap heap) (hv : P.clear v = true) :
    P.clear (ownField heap v k) = true := by
  unfold Lua.ownField
  split
  · exact (h _ hv).rawget k
  · exact clear_nil

omit [DecidableEq N] in
theorem ClearHeap.metatableOf (h : P.ClearHeap heap) (hv : P.clear v = true) {m : Ref}
    (hm : metatableOf heap v = some m) : P.clear (.table m : Value N) = true := by
  cases v with
  | table r => exact (h r hv).metatable m hm
  | str s =>
    cases hm
    simp [clear, Value.restricted, Value.ofSqlite]
  | userdata kind id =>
    cases hm
    simpa [clear, Value.restricted, Value.ofSqlite] using hv
  | nil | bool | num | func | thread => cases hm

theorem ClearHeap.metamethod (h : P.ClearHeap heap) (hv : P.clear v = true) (event : String) :
    P.clear (metamethod heap v event) = true := by
  unfold Lua.metamethod
  split
  · rename_i m hm
    exact (h m (h.metatableOf hv hm)).rawget _
  · exact clear_nil

/-- What an access to a clear value ends with is clear. -/
def ClearAccess (P : Policy) : Access N → Prop
  | .found w => P.clear w = true
  | .calls f object => P.clear (.func f : Value N) = true ∧ P.clear object = true
  | .error => True

theorem ClearHeap.gettable (h : P.ClearHeap heap) (loop : Nat) (hv : P.clear v = true) :
    P.ClearAccess (gettable heap k loop v) := by
  induction loop generalizing v with
  | zero => trivial
  | succ loop ih =>
    have hindex := h.metamethod hv "__index"
    simp only [Lua.gettable]
    split
    · exact h.ownField hv
    · split
      · exact clear_nil
      · trivial
      · rename_i f hf
        rw [hf] at hindex
        exact ⟨hindex, hv⟩
      · exact ih hindex

/-- A write through a clear value goes to a clear table. -/
def ClearStore (P : Policy) : Store N → Prop
  | .writes r => P.clear (.table r : Value N) = true
  | .calls f object => P.clear (.func f : Value N) = true ∧ P.clear object = true
  | .error => True

theorem ClearHeap.settable (h : P.ClearHeap heap) (loop : Nat) (hv : P.clear v = true) :
    P.ClearStore (settable heap k loop v) := by
  induction loop generalizing v with
  | zero => trivial
  | succ loop ih =>
    have hnewindex := h.metamethod hv "__newindex"
    simp only [Lua.settable]
    split
    · split
      · trivial
      · exact hv
    · trivial
    · rename_i hf
      rw [hf] at hnewindex
      split
      · exact hv
      · exact ⟨hnewindex, hv⟩
    · rename_i hf
      rw [hf] at hnewindex
      exact ⟨hnewindex, hv⟩
    · split
      · exact hv
      · exact ih hnewindex
    · exact ih hnewindex

theorem ClearHeap.binaryHandler (h : P.ClearHeap heap) (op : Binary) (hv : P.clear v = true)
    (hw : P.clear w = true) : P.clear (binaryHandler heap op v w) = true := by
  simp only [Lua.binaryHandler]
  split
  · exact h.metamethod hw _
  · exact h.metamethod hv _

end Policy

end Metcalfe.Lua
