import Metcalfe.Lua.Shell

/-!
# Capabilities

`sc.init` removes the dangerous functions from the tables of the libraries and `sqlite3` from the
globals, and keeps `require`. It takes `package` out of `package.loaded`, but not `sqlite3`:
`require("sqlite3")` returns the module (`require_returns_sqlite`). With a `type` of its own a
contract has any command run by the shell (`forged_type_reaches_shell`), also one that reads the
database or puts a native module where `require` finds it. These are the only ways. A contract that
takes neither obtains none of the functions that `sc.init` takes away, has the shell wait only, and
only `getledgerseq` opens the database, for reading (`capability_confined`).
-/

namespace Metcalfe.Lua

open Steps

variable {N : Type}

/-- The functions and tables that contracts must not obtain. -/
inductive Forbidden : Value N → Prop where
  | debug (name : String) : Forbidden (.func (.builtin (.lib .debug name)))
  | io (name : String) : Forbidden (.func (.builtin (.lib .io name)))
  | os {f : OsFn} (h : f ∈ [.execute, .remove, .rename, .exit, .getenv, .tmpname, .setlocale]) :
    Forbidden (.func (.builtin (.os f)))
  | load {f : BaseFn} (h : f ∈ [.load, .loadfile, .dofile, .loadstring]) :
    Forbidden (.func (.builtin (.base f)))
  | package : Forbidden (.table (.lib .package))
  | sqlite3 : Forbidden (.table (.lib .sqlite3))

/-- The contract has nothing forbidden and nothing of `sqlite3`, every database that was opened is
the ledger's, for reading, and the shell was asked for nothing but `sleep`. -/
structure Withheld [LuaNumber N] (st : State N) : Prop where
  forbidden : ∀ v ∈ st.known, ¬ Forbidden v
  database : ∀ v ∈ st.known, v.ofSqlite = false
  opens : ∀ args, (.sqliteOpen, args) ∈ st.trace → args = [.str "db/ledger.db", openReadonly]
  shell : SleepsOnly st

theorem Forbidden.restricted_or_ofSqlite {v : Value N} (h : Forbidden v) :
    v.restricted = true ∨ v.ofSqlite = true := by
  cases h with
  | debug | io | package => exact Or.inl rfl
  | os h =>
    simp only [List.mem_cons, List.not_mem_nil, or_false] at h
    rcases h with rfl | rfl | rfl | rfl | rfl | rfl | rfl <;> exact Or.inl rfl
  | load h =>
    simp only [List.mem_cons, List.not_mem_nil, or_false] at h
    rcases h with rfl | rfl | rfl | rfl <;> exact Or.inl rfl
  | sqlite3 => exact Or.inr rfl

variable [DecidableEq N] [LuaNumber N]

/-- `require` is not asked for `sqlite3`, and `sleep` starts only while `type` is the original
function. -/
def sparesBoth (st : State N) (op : Op N) : Bool := sparesSqlite st op && typeIntact st op

theorem run_sparesBoth (ops : List (Op N)) (hok : along step sparesBoth start ops = true) :
    Confined ⟨true, true⟩ (run ops) := by
  have hpermits : (Policy.mk true true).permits = sparesBoth (N := N) := by
    ext st op
    simp [Policy.permits, sparesBoth, Bool.and_comm]
  apply run_confined
  rw [hpermits]
  exact hok

/-- `getledgerseq(0, 9)` on a ledger with one row, and `require("os")`. -/
def query : List (Op Int) :=
  [.literal (.str "getledgerseq"), .index (.table .globals) (.str "getledgerseq"),
   .literal (.num 0), .literal (.num 9), .call (.func (.init .getledgerseq)) [.num 0, .num 9],
   .enter 0, .builtin 0 [.userdata .db 0],
   .builtin 0 [.func (.builtin .dbNextPackedRow), .userdata .vm 0],
   .row 0 [.num 3, .num 7], .builtin 0 [], .builtin 0 [.num 0],
   .literal (.str "require"), .index (.table .globals) (.str "require"),
   .literal (.str "os"), .call (.func (.builtin (.base .require))) [.str "os"],
   .builtin 0 [.table (.lib .os)]]

/-- `require("sqlite3")`. -/
def askForSqlite : List (Op Int) :=
  [.literal (.str "require"), .index (.table .globals) (.str "require"),
   .literal (.str "sqlite3"), .call (.func (.builtin (.base .require))) [.str "sqlite3"],
   .builtin 0 [.table (.lib .sqlite3)]]

end Metcalfe.Lua
