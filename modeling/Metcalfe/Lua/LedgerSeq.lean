import Metcalfe.Lua.Activation

/-!
# The calls of getledgerseq

One call of `getledgerseq` in a run in which nobody gets `sqlite3`: it opens the database
(`Activation.getledgerseq`), builds the text of its query (`queryText`) and reads the rows
(`Activation.fetch`). The operators between may call functions of the contract; everything else it
calls is `sqlite3`'s.
-/

namespace Metcalfe.Lua

open Policy

variable {N : Type} [LuaNumber N]

/-! ## The code after the call of open -/

/-- The text before the first time of the query. -/
def selectText : String :=
  "SELECT MIN(LedgerSeq), MAX(LedgerSeq) FROM Ledgers WHERE ClosingTime >= "

/-- The text between the two times. -/
def boundText : String := " AND ClosingTime < "

def fetch (db sql : Value N) : Prog N :=
  .index db (.str "rows") fun rows =>
  .call rows [db, sql] fun it =>
  .loop (.rows db (first it) (second it) (second it.tail)
    (.num (LuaNumber.ofNat 0)) (.num (LuaNumber.ofNat 0))) .ret

-- The operators that build the text, each with the code after it, from the last to the first.

def pasteSelect (db sql : Value N) : Prog N := .binary .concat (.str selectText) sql (fetch db)

def pasteStart (db stime sql : Value N) : Prog N := .binary .concat stime sql (pasteSelect db)

def pasteBound (db stime etime : Value N) : Prog N :=
  .binary .concat (.str boundText) etime (pasteStart db stime)

def searchSpan (db stime etime : Value N) : Prog N :=
  .binary .add etime (.num (LuaNumber.ofNat 1)) (pasteBound db stime)

def openArgs : List (Value N) := [.str "db/ledger.db", openReadonly]

/-- The database was opened, or was not, with this answer. -/
def opening (a : Answer N) : Called N := ⟨.builtin .sqliteOpen, openArgs, some a⟩

/-- The call of `db:rows`. -/
def rowsCall (i : Nat) (sql : Value N) (a : Option (Answer N)) : Called N :=
  ⟨.builtin .dbRows, [.userdata .db i, sql], a⟩

section Text

variable [DecidableEq N]

/-- The text of the query, with the tables after it is built and the calls that are left. None where
one of the operators raises an error. -/
def queryText (heap : Heap N) (stime etime : Value N) (es : List (Called N)) :
    Option (Value N × Heap N × List (Called N)) := do
  let (etime, heap, es) ← Binary.add.evaluate heap etime (.num (LuaNumber.ofNat 1)) es
  let (sql, heap, es) ← Binary.concat.evaluate heap (.str boundText) etime es
  let (sql, heap, es) ← Binary.concat.evaluate heap stime sql es
  Binary.concat.evaluate heap (.str selectText) sql es

end Text

variable [DecidableEq N] {prepare : String → Option String} {heap : Heap N} {stime etime : Value N}
  {es : List (Called N)} {o : Ending N} {i : Nat}

theorem advance_getledgerseq (hsealed : Sealed heap) (stime etime : Value N) :
    advance heap (getledgerseq stime etime) = .calls (.builtin .sqliteOpen) openArgs fun vs =>
      if (first vs).truthy = false then .ret [.nil] else searchSpan (first vs) stime etime := by
  unfold getledgerseq
  rw [advance_index (Fixed.open_.gettable hsealed.fixed),
    advance_index (Fixed.flags.gettable hsealed.fixed)]
  rfl

omit [LuaNumber N] [DecidableEq N] in
theorem handle_of_sqliteReturns {args vs : List (Value N)}
    (h : sqliteReturns .sqliteOpen args vs = true) :
    (∃ i, vs = [.userdata .db i]) ∨ first vs = .nil :=
  Confined.reply_of_sqliteReturns h

omit [LuaNumber N] [DecidableEq N] in
theorem eq_nil_of_sqliteReturns {args vs : List (Value N)}
    (h : sqliteReturns .dbNextPackedRow args vs = true) : vs = [] := by
  unfold sqliteReturns at h
  split at h
  all_goals first
    | rfl
    | contradiction

/-! ## The rows -/

omit [LuaNumber N] in
/-- A table without a metatable gives its own fields. -/
theorem gettable_of_metatable_none {r : Ref} (h : (heap r).metatable = none) (k : Value N) :
    ∃ w, gettable heap k maxTagLoop (.table r) = .found w := by
  have hindex : metamethod heap (.table r) "__index" = .nil := by
    simp [metamethod, metatableOf, h]
  rw [show maxTagLoop = 99 + 1 from rfl]
  simp only [gettable, hindex]
  split
  · exact ⟨_, rfl⟩
  · exact ⟨_, rfl⟩

/-- The calls of the iterator that gave a row or ended the loop. -/
def Stepped (es : List (Called N)) : Prop :=
  ∀ c ∈ es, c.callee = .builtin .dbNextPackedRow ∧ c.answer.isSome = true

/-- The loop over the rows: a step fails, or the last one is followed by `db:close`. -/
theorem Activation.loop {s control min max : Value N} (hsealed : Sealed heap)
    (h : Activation prepare heap (.loop (.rows (.userdata .db i)
      (.func (.builtin .dbNextPackedRow)) s control min max) .ret) es o) :
    ∃ turns rest, es = turns ++ rest ∧ Stepped turns ∧
      ((o = .raised ∧ ∃ args, rest = [⟨.builtin .dbNextPackedRow, args, none⟩]) ∨
        ∃ vs a, o = .returned vs ∧ rest = [⟨.builtin .dbClose, [.userdata .db i], some a⟩]) := by
  induction es generalizing heap control min max with
  | nil =>
    rcases h.of_calls rfl with ⟨-, hes, -⟩ | ⟨a, rest, -, hes, -⟩ <;> cases hes
  | cons e es ih =>
    rcases h.of_calls rfl with ⟨-, hes, ho⟩ | ⟨a, rest, ha, hes, hrest⟩
    · exact ⟨[], _, rfl, nofun, Or.inl ⟨ho, _, hes⟩⟩
    · cases hes
      have hstep : Stepped [⟨.builtin .dbNextPackedRow, [s, control], some a⟩] := by
        simp [Stepped]
      obtain ⟨vs, heap'⟩ := a
      rcases ha with ⟨hvs, rfl⟩ | ⟨n, columns, hcolumns, rfl, rfl⟩
      · -- no row is left: the handle is closed
        cases eq_nil_of_sqliteReturns hvs
        have hclose := hrest.congr (advance_index ((Fixed.close i).gettable hsealed.fixed))
        rcases hclose.of_calls rfl with ⟨hraises, -, -⟩ | ⟨a', rest', -, rfl, hret⟩
        · exact absurd rfl (hraises i)
        · obtain ⟨rfl, rfl⟩ := hret.of_returned rfl
          exact ⟨[_], _, rfl, hstep, Or.inr ⟨_, a', rfl, rfl⟩⟩
      · -- a row: its columns are read, and the loop goes on
        have hfields := Confined.clear_rowFields (P := unshared) hcolumns
        have hplain : (Function.update heap (.new n) ⟨rowFields columns, none⟩
            (.new n)).metatable = none := by
          rw [Function.update_self]
        obtain ⟨min', hmin⟩ := gettable_of_metatable_none hplain (.num (LuaNumber.ofNat 1))
        obtain ⟨max', hmax⟩ := gettable_of_metatable_none hplain (.num (LuaNumber.ofNat 2))
        have hloop := (hrest.congr (advance_index hmin)).congr (advance_index hmax)
        obtain ⟨turns, rest, rfl, hturns, hend⟩ := ih (hsealed.update n hfields) hloop
        refine ⟨_ :: turns, rest, rfl, ?_, hend⟩
        exact List.forall_mem_cons.mpr ⟨⟨rfl, rfl⟩, hturns⟩

theorem advance_fetch (hsealed : Sealed heap) (sql : Value N) :
    advance heap (fetch (.userdata .db i) sql) =
      .calls (.builtin .dbRows) [.userdata .db i, sql] fun it =>
      .loop (.rows (.userdata .db i) (first it) (second it) (second it.tail)
        (.num (LuaNumber.ofNat 0)) (.num (LuaNumber.ofNat 0))) .ret :=
  advance_index ((Fixed.rows i).gettable hsealed.fixed)

/-- The query is not compiled, or its rows are read. -/
theorem Activation.fetch {sql : Value N} (hsealed : Sealed heap)
    (h : Activation prepare heap (fetch (.userdata .db i) sql) es o) :
    (statement prepare [.userdata .db i, sql] = none ∧ es = [rowsCall i sql none] ∧
        o = .raised) ∨
      ∃ a turns rest, (statement prepare [.userdata .db i, sql]).isSome = true ∧
        es = rowsCall i sql (some a) :: (turns ++ rest) ∧ Stepped turns ∧
        ((o = .raised ∧ ∃ args, rest = [⟨.builtin .dbNextPackedRow, args, none⟩]) ∨
          ∃ vs a, o = .returned vs ∧ rest = [⟨.builtin .dbClose, [.userdata .db i], some a⟩]) := by
  rcases h.of_calls (advance_fetch hsealed sql) with
    ⟨hraises, rfl, rfl⟩ | ⟨a, rest, ⟨hvs, hstatement, hheap⟩, rfl, hrest⟩
  · rcases hraises with hdb | hnone
    · exact absurd rfl (hdb i)
    · exact Or.inl ⟨hnone, rfl, rfl⟩
  · obtain ⟨vs, heap'⟩ := a
    obtain ⟨j, rfl⟩ : ∃ j, vs = [.func (.builtin .dbNextPackedRow), .userdata .vm j] :=
      Confined.reply_of_sqliteReturns hvs
    cases hheap
    obtain ⟨turns, rest, rfl, hturns, hend⟩ := hrest.loop hsealed
    exact Or.inr ⟨_, turns, rest, hstatement, rfl, hturns, hend⟩

/-! ## The text and the whole call -/

/-- One of the operators raises an error, or the text is built and its rows are read. -/
theorem Activation.searchSpan (hsealed : Sealed heap) (hs : unshared.clear stime = true)
    (he : unshared.clear etime = true)
    (h : Activation prepare heap (searchSpan (.userdata .db i) stime etime) es o) :
    (queryText heap stime etime es = none ∧ o = .raised ∧ Foreign es) ∨
      ∃ sql heap' before rest, queryText heap stime etime es = some (sql, heap', rest) ∧
        es = before ++ rest ∧ Foreign before ∧ Sealed heap' ∧
        Activation prepare heap' (Lua.fetch (.userdata .db i) sql) rest o := by
  rcases h.binary hsealed he (clear_num _) with
    ⟨hadd, ho, hes⟩ | ⟨time, heap₁, before₁, es₁, hadd, rfl, hbefore₁, htime, hsealed₁, h₁⟩
  · exact Or.inl ⟨by simp [queryText, hadd], ho, hes⟩
  rcases h₁.binary hsealed₁ (clear_str _) htime with
    ⟨hbound, ho, hes⟩ | ⟨bound, heap₂, before₂, es₂, hbound, rfl, hbefore₂, hclear₂, hsealed₂, h₂⟩
  · exact Or.inl ⟨by simp [queryText, hadd, hbound], ho, hbefore₁.append hes⟩
  rcases h₂.binary hsealed₂ hs hclear₂ with
    ⟨hspan, ho, hes⟩ | ⟨span, heap₃, before₃, es₃, hspan, rfl, hbefore₃, hclear₃, hsealed₃, h₃⟩
  · refine Or.inl ⟨by simp [queryText, hadd, hbound, hspan], ho, ?_⟩
    exact hbefore₁.append (hbefore₂.append hes)
  rcases h₃.binary hsealed₃ (clear_str _) hclear₃ with
    ⟨hsql, ho, hes⟩ | ⟨sql, heap₄, before₄, es₄, hsql, rfl, hbefore₄, -, hsealed₄, h₄⟩
  · refine Or.inl ⟨by simp [queryText, hadd, hbound, hspan, hsql], ho, ?_⟩
    exact hbefore₁.append (hbefore₂.append (hbefore₃.append hes))
  · refine Or.inr ⟨sql, heap₄, before₁ ++ (before₂ ++ (before₃ ++ before₄)), es₄, ?_, ?_, ?_,
      hsealed₄, h₄⟩
    · simp [queryText, hadd, hbound, hspan, hsql]
    · simp only [List.append_assoc]
    · exact hbefore₁.append (hbefore₂.append (hbefore₃.append hbefore₄))

/-- Where the database does not open, the function returns nil. -/
theorem advance_of_first_eq_nil {vs : List (Value N)} (h : first vs = .nil) (p : Prog N) :
    advance heap (if (first vs).truthy = false then .ret [.nil] else p) = .returned [.nil] := by
  simp [h, Value.truthy, advance]

/-- The database does not open, or the query is made with its handle. -/
theorem Activation.getledgerseq (hsealed : Sealed heap)
    (h : Activation prepare heap (getledgerseq stime etime) es o) :
    ∃ vs rest, es = opening ⟨vs, heap⟩ :: rest ∧
      ((first vs = .nil ∧ rest = [] ∧ o = .returned [.nil]) ∨
        ∃ i, vs = [.userdata .db i] ∧
          Activation prepare heap (Lua.searchSpan (.userdata .db i) stime etime) rest o) := by
  rcases h.of_calls (advance_getledgerseq hsealed stime etime) with
    ⟨hraises, -, -⟩ | ⟨a, rest, ⟨hvs, hheap⟩, rfl, hrest⟩
  · -- the file and the flags are of the types that `open` takes
    simp [Raises, openArgs, first, second, Value.toStr?, openReadonly, Value.toNum?] at hraises
  · obtain ⟨vs, heap'⟩ := a
    cases hheap
    refine ⟨vs, rest, rfl, ?_⟩
    rcases handle_of_sqliteReturns hvs with ⟨i, rfl⟩ | hnil
    · exact Or.inr ⟨i, rfl, hrest⟩
    · obtain ⟨rfl, rfl⟩ := hrest.of_returned (advance_of_first_eq_nil hnil _)
      exact Or.inl ⟨hnil, rfl, rfl⟩

end Metcalfe.Lua
