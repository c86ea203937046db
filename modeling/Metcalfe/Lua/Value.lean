import Mathlib.Logic.Function.Basic

/-!
# Lua values, tables and metatables

The part of Lua 5.2 that `sc.init` and a contract work with: values, tables, the metatable of a
value, and the accesses that may end in a metamethod. What an access does is given as data
(`Access`, `Store`): either it is done, or a function has to be called first, or it raises an
error.

Numbers are a parameter. `LuaNumber` has the operations on them that `sc.init` uses; no law is
asked of them.
-/

namespace Metcalfe.Lua

/-- The arithmetic of a Lua number, its rendering by `%.14g` and its reading from a string. -/
class LuaNumber (N : Type) where
  ofNat : Nat → N
  add : N → N → N
  div : N → N → N
  toStr : N → String
  ofStr : String → Option N

/-- Whole numbers, as far as their quotients are whole. -/
instance : LuaNumber Int where
  ofNat n := n
  add a b := a + b
  div a b := a / b
  toStr n := toString n
  ofStr := String.toInt?

/-- The functions that `luaopen_base` and `luaopen_package` put among the globals. `ipairsaux` is
the iterator that `ipairs` returns. -/
inductive BaseFn where
  | assert | collectgarbage | dofile | error | getmetatable | ipairs | load | loadfile | loadstring
  | module | next | pairs | pcall | print | rawequal | rawget | rawlen | rawset | require | select
  | setmetatable | tonumber | tostring | type | unpack | xpcall | ipairsaux
deriving DecidableEq, Repr

inductive OsFn where
  | clock | date | difftime | execute | exit | getenv | remove | rename | setlocale | time | tmpname
deriving DecidableEq, Repr

inductive Lib where
  | coroutine | table | io | os | string | bit32 | math | debug | package | sqlite3
deriving DecidableEq, Repr

/-- The userdata of `liolib.c` and of `lsqlite3.c`. -/
inductive Handle where
  | file | db | vm | bu | ctx
deriving DecidableEq, Repr

/-- A C function. Those of `lsqlite3.c` that `getledgerseq` calls have constructors of their own;
`lib` and `method` are the functions that only their place distinguishes. -/
inductive Builtin where
  | base (f : BaseFn)
  | os (f : OsFn)
  | sqliteOpen
  | dbRows
  | dbClose
  | dbNextPackedRow
  | lib (l : Lib) (name : String)
  | method (h : Handle) (name : String)
deriving DecidableEq, Repr

/-- The functions of `sc.init` that a contract can call. -/
inductive InitFn where
  | printable | sleep | getledgerseq
deriving DecidableEq, Repr

/-- `closure` is a function of the contract. -/
inductive Func where
  | builtin (b : Builtin)
  | init (f : InitFn)
  | closure (id : Nat)
deriving DecidableEq, Repr

/-- The tables the state has when `sc.init` starts, and those made later. -/
inductive Ref where
  | globals
  | lib (l : Lib)
  | loaded
  | preload
  | searchers
  | stringMeta
  | handleMeta (h : Handle)
  | new (n : Nat)
deriving DecidableEq, Repr

inductive Value (N : Type) where
  | nil
  | bool (b : Bool)
  | num (n : N)
  | str (s : String)
  | table (r : Ref)
  | func (f : Func)
  | userdata (h : Handle) (id : Nat)
  | thread (id : Nat)
deriving DecidableEq, Repr

/-- A table: its fields, none of them nil, and its metatable. -/
structure Table (N : Type) where
  fields : List (Value N × Value N)
  metatable : Option Ref

abbrev Heap (N : Type) : Type := Ref → Table N

variable {N : Type}

/-- The first of a list of results or arguments, nil where there is none. -/
def first (vs : List (Value N)) : Value N := vs.headD .nil

def second (vs : List (Value N)) : Value N := first vs.tail

/-- Not false and not nil. -/
def Value.truthy : Value N → Bool
  | .nil => false
  | .bool b => b
  | _ => true

/-- What `type` returns. -/
def Value.typeName : Value N → String
  | .nil => "nil"
  | .bool _ => "boolean"
  | .num _ => "number"
  | .str _ => "string"
  | .table _ => "table"
  | .func _ => "function"
  | .userdata _ _ => "userdata"
  | .thread _ => "thread"

theorem Value.typeName_eq_number {v : Value N} (h : v.typeName = "number") : ∃ n, v = .num n := by
  cases v with
  | num n => exact ⟨n, rfl⟩
  | nil | bool | str | table | func | userdata | thread => simp [typeName] at h

/-- A string or a number, as `lua_tolstring` gives it. -/
def Value.toStr? [LuaNumber N] : Value N → Option String
  | .str s => some s
  | .num n => some (LuaNumber.toStr n)
  | _ => none

/-- A number or a numeral, as `luaV_tonumber` gives it. -/
def Value.toNum? [LuaNumber N] : Value N → Option N
  | .num n => some n
  | .str s => LuaNumber.ofStr s
  | _ => none

variable [DecidableEq N]

/-! ## Raw access -/

namespace Table

def rawget (t : Table N) (k : Value N) : Value N := (t.fields.lookup k).getD .nil

def rawset (t : Table N) (k v : Value N) : Table N :=
  let rest := t.fields.filter fun e => e.1 ≠ k
  { t with fields := if v = .nil then rest else (k, v) :: rest }

theorem mem_rawset {t : Table N} {k v : Value N} {e : Value N × Value N}
    (h : e ∈ (t.rawset k v).fields) : e = (k, v) ∨ e ∈ t.fields := by
  simp only [rawset] at h
  split at h
  · exact Or.inr ((List.mem_filter.mp h).1)
  · rcases List.mem_cons.mp h with h | h
    · exact Or.inl h
    · exact Or.inr ((List.mem_filter.mp h).1)

theorem rawget_eq_nil_or_mem (t : Table N) (k : Value N) :
    t.rawget k = .nil ∨ (k, t.rawget k) ∈ t.fields := by
  unfold rawget
  cases h : t.fields.lookup k with
  | none => exact Or.inl rfl
  | some v =>
    right
    obtain ⟨before, after, heq, -⟩ := List.lookup_eq_some_iff.mp h
    rw [heq]
    simp

end Table

/-! ## Metatables -/

/-- The metatable of a value. Only tables have one of their own; numbers, functions and the other
types have none, and `debug.setmetatable` is the only function that could give them one. -/
def metatableOf (heap : Heap N) : Value N → Option Ref
  | .table r => (heap r).metatable
  | .str _ => some .stringMeta
  | .userdata h _ => some (.handleMeta h)
  | _ => none

/-- `luaT_gettmbyobj`. -/
def metamethod (heap : Heap N) (v : Value N) (event : String) : Value N :=
  match metatableOf heap v with
  | some m => (heap m).rawget (.str event)
  | none => .nil

/-- The field of the value itself, where it is a table. -/
def ownField (heap : Heap N) (v k : Value N) : Value N :=
  match v with
  | .table r => (heap r).rawget k
  | _ => .nil

/-- How reading a field ends. -/
inductive Access (N : Type) where
  | found (v : Value N)
  /-- An `__index` that is a function, to be called with the object and the key. -/
  | calls (f : Func) (object : Value N)
  | error
deriving DecidableEq

/-- `luaV_gettable`, with at most `loop` turns along `__index`. -/
def gettable (heap : Heap N) (k : Value N) : (loop : Nat) → Value N → Access N
  | 0, _ => .error
  | loop + 1, v =>
    if ownField heap v k ≠ .nil then .found (ownField heap v k)
    else match metamethod heap v "__index", v with
      | .nil, .table _ => .found .nil
      | .nil, _ => .error
      | .func f, _ => .calls f v
      | next, _ => gettable heap k loop next

theorem gettable_own {heap : Heap N} {v k : Value N} (loop : Nat) (h : ownField heap v k ≠ .nil) :
    gettable heap k (loop + 1) v = .found (ownField heap v k) := by
  simp [gettable, h]

theorem gettable_index {heap : Heap N} {v k : Value N} (loop : Nat) {r : Ref}
    (hown : ownField heap v k = .nil) (hindex : metamethod heap v "__index" = .table r) :
    gettable heap k (loop + 1) v = gettable heap k loop (.table r) := by
  simp [gettable, hown, hindex]

/-- How writing a field ends. -/
inductive Store (N : Type) where
  | writes (r : Ref)
  /-- A `__newindex` that is a function, to be called with the object, the key and the value. -/
  | calls (f : Func) (object : Value N)
  | error
deriving DecidableEq

/-- `luaV_settable`, with at most `loop` turns along `__newindex`. A field that is there is
overwritten without asking the metatable. -/
def settable (heap : Heap N) (k : Value N) : (loop : Nat) → Value N → Store N
  | 0, _ => .error
  | loop + 1, v =>
    match v, metamethod heap v "__newindex" with
    | .table r, .nil => if k = .nil then .error else .writes r
    | _, .nil => .error
    | .table r, .func f => if (heap r).rawget k ≠ .nil then .writes r else .calls f v
    | _, .func f => .calls f v
    | .table r, next => if (heap r).rawget k ≠ .nil then .writes r else settable heap k loop next
    | _, next => settable heap k loop next

/-- `MAXTAGLOOP`. -/
def maxTagLoop : Nat := 100

/-- The function that a call runs, with its arguments: the callee, or its `__call` with the callee
as a further argument (`tryfuncTM`). -/
def callee (heap : Heap N) (f : Value N) (args : List (Value N)) : Option (Func × List (Value N)) :=
  match f with
  | .func g => some (g, args)
  | _ => match metamethod heap f "__call" with
    | .func g => some (g, f :: args)
    | _ => none

/-! ## Arithmetic and concatenation -/

inductive Binary where
  | add | div | concat
deriving DecidableEq, Repr

def Binary.event : Binary → String
  | .add => "__add"
  | .div => "__div"
  | .concat => "__concat"

/-- The operation on operands that need no metamethod. -/
def Binary.raw [LuaNumber N] (op : Binary) (a b : Value N) : Option (Value N) :=
  match op with
  | .add => (a.toNum?.bind fun x => b.toNum?.map fun y => .num (LuaNumber.add x y))
  | .div => (a.toNum?.bind fun x => b.toNum?.map fun y => .num (LuaNumber.div x y))
  | .concat => (a.toStr?.bind fun s => b.toStr?.map fun t => .str (s ++ t))

/-- The handler that `call_binTM` calls: the one of the first operand, else of the second. -/
def binaryHandler (heap : Heap N) (op : Binary) (a b : Value N) : Value N :=
  let h := metamethod heap a op.event
  if h = .nil then metamethod heap b op.event else h

end Metcalfe.Lua
