import Metcalfe.Lua.Policy

/-!
# The code of sc.init under a policy

The functions of `sc.init` hold two things a contract must not get: `execute` and, where `sqlite3`
is closed to contracts, `sqlite`. `Good` says of a piece of code that it keeps to the policy
whatever the contract answers: each operation works with clear values, or the code knows more
about the result than the contract can change. `printable` and `getledgerseq` are good under every
policy. `sleep` is good where the shell's commands are not restricted, and from the point on where
it has got the original `type`.
-/

namespace Metcalfe.Lua

variable {N : Type} [LuaNumber N]

namespace Policy

section Code

variable (P : Policy)

/-- The calls that the policy restricts: the commands given to the shell and the files opened as
databases. -/
def Ordered (b : Builtin) (args : List (Value N)) : Prop :=
  match b with
  | .os .execute => P.guarded = true →
    ∃ n : N, args = [.str ("sleep " ++ LuaNumber.toStr (LuaNumber.div n (LuaNumber.ofNat 1000)))]
  | .sqliteOpen => P.closed = true → args = [.str "db/ledger.db", openReadonly]
  | _ => True

/-- The calls of C functions after which a function of `sc.init` relies on what they return. -/
inductive Granted : Builtin → List (Value N) → Prop where
  | type {args : List (Value N)} (h : P.AllClear args) : Granted (.base .type) args
  | execute {args : List (Value N)} (h : P.Ordered (.os .execute) args) :
    Granted (.os .execute) args
  | open_ {args : List (Value N)} (h : P.Ordered .sqliteOpen args) : Granted .sqliteOpen args
  | rows (args : List (Value N)) : Granted .dbRows args
  | nextRow (args : List (Value N)) : Granted .dbNextPackedRow args
  | close (args : List (Value N)) : Granted .dbClose args

/-- What these C functions return. -/
def Reply (b : Builtin) (args vs : List (Value N)) : Prop :=
  match b with
  | .base .type => vs = [.str (first args).typeName]
  | .os .execute => ∀ v ∈ vs, v.isPrim = true
  | .sqliteOpen => (∃ i, vs = [.userdata .db i]) ∨ first vs = .nil
  | .dbRows => ∃ i, vs = [.func (.builtin .dbNextPackedRow), .userdata .vm i]
  | .dbNextPackedRow => vs = [] ∨ ∃ n, vs = [.table (.new n)]
  | _ => True

/-- The fields of `sqlite3` and of its databases that `getledgerseq` reads. -/
inductive Fixed : Value N → Value N → Value N → Prop where
  | open_ : Fixed sqlite (.str "open") (.func (.builtin .sqliteOpen))
  | flags : Fixed sqlite (.str "OPEN_READONLY") openReadonly
  | rows (i : Nat) : Fixed (.userdata .db i) (.str "rows") (.func (.builtin .dbRows))
  | close (i : Nat) : Fixed (.userdata .db i) (.str "close") (.func (.builtin .dbClose))

def GoodLoop : Loop N → Prop
  | .pairs f s control => P.AllClear [f, s, control]
  | .rows db f s control min max =>
    P.AllClear [db, f, s, control, min, max] ∨
      (P.closed = true ∧ (∃ i, db = .userdata .db i) ∧ f = .func (.builtin .dbNextPackedRow) ∧
        P.AllClear [min, max])

/-- The code keeps to the policy. -/
def Good : Prog N → Prop
  | .ret vs => P.AllClear vs
  | .index v k next =>
    (P.AllClear [v, k] ∧ ∀ w, P.clear w = true → Good (next w)) ∨
      (P.closed = true ∧ ∃ w, Fixed v k w ∧ Good (next w))
  | .binary op a b next =>
    P.AllClear [a, b] ∧ (∀ w, op.raw a b = some w → Good (next w)) ∧
      (op.raw a b = none → ∀ w, P.clear w = true → Good (next w))
  | .call f args next =>
    (P.AllClear (f :: args) ∧ ∀ vs, P.AllClear vs → Good (next vs)) ∨
      ∃ b, f = .func (.builtin b) ∧ P.Granted b args ∧ ∀ vs, Reply b args vs → Good (next vs)
  | .loop l next => P.GoodLoop l ∧ ∀ vs, P.AllClear vs → Good (next vs)

end Code

variable {P : Policy}

/-! ## Rules for code on clear values -/

theorem good_bind {p : Prog N} {next : List (Value N) → Prog N} (hp : P.Good p)
    (hnext : ∀ vs, P.AllClear vs → P.Good (next vs)) : P.Good (p.bind next) := by
  induction p with
  | ret vs => exact hnext vs hp
  | index v k cont ih =>
    rcases hp with ⟨hclear, hcont⟩ | ⟨hclosed, w, hw, hcont⟩
    · exact Or.inl ⟨hclear, fun w hw => ih w (hcont w hw)⟩
    · exact Or.inr ⟨hclosed, w, hw, ih w hcont⟩
  | binary op a b cont ih =>
    obtain ⟨hclear, hraw, hmeta⟩ := hp
    exact ⟨hclear, fun w hw => ih w (hraw w hw), fun hnone w hw => ih w (hmeta hnone w hw)⟩
  | call f args cont ih =>
    rcases hp with ⟨hclear, hcont⟩ | ⟨b, hb, hgranted, hcont⟩
    · exact Or.inl ⟨hclear, fun vs hvs => ih vs (hcont vs hvs)⟩
    · exact Or.inr ⟨b, hb, hgranted, fun vs hvs => ih vs (hcont vs hvs)⟩
  | loop l cont ih =>
    obtain ⟨hloop, hcont⟩ := hp
    exact ⟨hloop, fun vs hvs => ih vs (hcont vs hvs)⟩

theorem good_index {v k : Value N} {next : Value N → Prog N} (hclear : P.AllClear [v, k])
    (hnext : ∀ w, P.clear w = true → P.Good (next w)) : P.Good (.index v k next) :=
  Or.inl ⟨hclear, hnext⟩

theorem good_global {name : String} {next : Value N → Prog N}
    (hnext : ∀ w, P.clear w = true → P.Good (next w)) : P.Good (.global name next) :=
  good_index (by simp) hnext

theorem good_call {f : Value N} {args : List (Value N)} {next : List (Value N) → Prog N}
    (hclear : P.AllClear (f :: args)) (hnext : ∀ vs, P.AllClear vs → P.Good (next vs)) :
    P.Good (.call f args next) :=
  Or.inl ⟨hclear, hnext⟩

theorem clear_of_raw {op : Binary} {a b w : Value N} (h : op.raw a b = some w) :
    P.clear w = true := by
  cases op with
  | add | div | concat =>
    simp only [Binary.raw, Option.bind_eq_some_iff, Option.map_eq_some_iff] at h
    obtain ⟨x, -, y, -, rfl⟩ := h
    simp

theorem good_binary {op : Binary} {a b : Value N} {next : Value N → Prog N}
    (hclear : P.AllClear [a, b]) (hnext : ∀ w, P.clear w = true → P.Good (next w)) :
    P.Good (.binary op a b next) :=
  ⟨hclear, fun w hw => hnext w (clear_of_raw hw), fun _ => hnext⟩

/-! ## The functions of sc.init -/

theorem good_printable {t : Value N} (h : P.clear t = true) : P.Good (printable t) := by
  apply good_global
  intro pairs hpairs
  apply good_call
  · simp [hpairs, h]
  intro vs hvs
  exact ⟨by simp [GoodLoop, hvs.first, hvs.second, hvs.tail.second], fun vs hvs => hvs⟩

theorem good_print (message : String) :
    P.Good (.global "print" fun print : Value N =>
      .call print [.str message] fun _ => .ret []) := by
  apply good_global
  intro print hprint
  apply good_call
  · simp [hprint]
  · intro _ _
    simp [Good]

/-- The query of `getledgerseq`. The operators may run code of the contract, which gets none of
the database. -/
theorem good_query {stime etime : Value N} {next : Value N → Prog N} (hs : P.clear stime = true)
    (he : P.clear etime = true) (hnext : ∀ sql, P.clear sql = true → P.Good (next sql)) :
    P.Good (.binary .add etime (.num (LuaNumber.ofNat 1)) fun etime =>
      .binary .concat (.str " AND ClosingTime < ") etime fun sql =>
      .binary .concat stime sql fun sql =>
      .binary .concat
        (.str "SELECT MIN(LedgerSeq), MAX(LedgerSeq) FROM Ledgers WHERE ClosingTime >= ") sql
        next) := by
  apply good_binary
  · simp [he]
  intro etime hetime
  apply good_binary
  · simp [hetime]
  intro bound hbound
  apply good_binary
  · simp [hs, hbound]
  intro range hrange
  apply good_binary
  · simp [hrange]
  exact hnext

theorem good_getledgerseq {stime etime : Value N} (hs : P.clear stime = true)
    (he : P.clear etime = true) : P.Good (getledgerseq stime etime) := by
  cases hclosed : P.closed with
  | false =>
    have hsqlite : P.clear (sqlite : Value N) = true := by
      simp [clear, sqlite, Value.restricted, hclosed]
    apply good_index
    · simp [hsqlite]
    intro open_ hopen
    apply good_index
    · simp [hsqlite]
    intro flags hflags
    apply good_call
    · simp [hopen, hflags]
    intro vs hvs
    split
    · simp [Good]
    · apply good_query hs he
      intro sql hsql
      apply good_index
      · simp [hvs.first]
      intro rows hrows
      apply good_call
      · simp [hrows, hvs.first, hsql]
      intro it hit
      refine ⟨Or.inl ?_, fun vs hvs => hvs⟩
      simp [hvs.first, hit.first, hit.second, hit.tail.second]
  | true =>
    refine Or.inr ⟨hclosed, _, .open_, Or.inr ⟨hclosed, _, .flags, ?_⟩⟩
    refine Or.inr ⟨_, rfl, .open_ fun _ => rfl, ?_⟩
    intro vs hvs
    rcases hvs with ⟨i, rfl⟩ | hnil
    · apply good_query hs he
      intro sql hsql
      refine Or.inr ⟨hclosed, _, .rows i, Or.inr ⟨_, rfl, .rows _, ?_⟩⟩
      intro it hit
      obtain ⟨j, rfl⟩ := hit
      exact ⟨Or.inr ⟨hclosed, ⟨i, rfl⟩, rfl, by simp⟩, fun vs hvs => hvs⟩
    · simp [hnil, Value.truthy, Good]

variable [DecidableEq N]

/-- The call at the head of a turn, with the turn. -/
theorem good_turn {l : Loop N} (h : P.GoodLoop l) : P.Good (.call l.iterator l.args l.turn) := by
  cases l with
  | pairs f s control =>
    apply good_call h
    intro vs hvs
    simp only [GoodLoop, allClear_cons] at h
    simp only [Loop.turn]
    split
    · simp [Good]
    · apply good_global
      intro print hprint
      apply good_call
      · simp [hprint, hvs.first, hvs.second]
      · intro _ _
        simp [Good, GoodLoop, h, hvs.first]
  | rows db f s control min max =>
    rcases h with h | ⟨hclosed, ⟨i, rfl⟩, rfl, hlast⟩
    · simp only [allClear_cons] at h
      apply good_call
      · simp [Loop.iterator, Loop.args, h]
      intro vs hvs
      simp only [Loop.turn]
      split
      · apply good_index
        · simp [h]
        intro close hclose
        apply good_call
        · simp [hclose, h]
        · intro _ _
          simp [Good, h]
      · apply good_index
        · simp [hvs.first]
        intro min hmin
        apply good_index
        · simp [hvs.first]
        intro max hmax
        simp [Good, GoodLoop, h, hvs.first, hmin, hmax]
    · -- the iterator is the one of `sqlite3`: it returns a new table or nothing
      refine Or.inr ⟨_, rfl, .nextRow _, ?_⟩
      intro vs hvs
      rcases hvs with rfl | ⟨n, rfl⟩
      · refine Or.inr ⟨hclosed, _, .close i, Or.inr ⟨_, rfl, .close _, ?_⟩⟩
        intro _ _
        exact hlast
      · apply good_index
        · simp [first]
        intro min hmin
        apply good_index
        · simp [first]
        intro max hmax
        exact ⟨Or.inr ⟨hclosed, ⟨i, rfl⟩, rfl, by simp [hmin, hmax]⟩, fun vs hvs => hvs⟩

/-- With the original `type`, the shell gets a number's command. -/
theorem good_sleepWith_type {sleepTime : Value N} (h : P.clear sleepTime = true) :
    P.Good (sleepWith (.func (.builtin (.base .type))) sleepTime) := by
  refine Or.inr ⟨_, rfl, .type (by simp [h]), ?_⟩
  intro vs hvs
  subst hvs
  dsimp only
  split
  · exact good_print _
  · rename_i hnumber
    obtain ⟨n, rfl⟩ := Value.typeName_eq_number (v := sleepTime) (by simpa [first] using hnumber)
    -- neither operator consults a metatable
    have hdiv : Binary.div.raw (.num n) (.num (LuaNumber.ofNat 1000)) =
        some (.num (LuaNumber.div n (LuaNumber.ofNat 1000))) := rfl
    refine ⟨by simp, ?_, by simp [hdiv]⟩
    intro seconds hseconds
    rw [hdiv] at hseconds
    cases hseconds
    refine ⟨by simp, ?_, by simp [Binary.raw, Value.toStr?]⟩
    intro command hcommand
    cases hcommand
    refine Or.inr ⟨_, rfl, .execute fun _ => ⟨n, rfl⟩, ?_⟩
    intro vs hvs v hv
    exact clear_of_isPrim (hvs v hv)

theorem good_sleep {sleepTime : Value N} (hguarded : P.guarded = false)
    (h : P.clear sleepTime = true) : P.Good (sleep sleepTime) := by
  apply good_global
  intro type htype
  apply good_call
  · simp [htype, h]
  intro vs hvs
  split
  · exact good_print _
  · apply good_binary
    · simp [h]
    intro seconds hseconds
    apply good_binary
    · simp [hseconds]
    intro command hcommand
    refine Or.inr ⟨_, rfl, .execute (by simp [Ordered, hguarded]), ?_⟩
    intro vs hvs v hv
    exact clear_of_isPrim (hvs v hv)

end Policy

end Metcalfe.Lua
