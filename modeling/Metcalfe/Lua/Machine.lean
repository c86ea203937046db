import Metcalfe.Lua.Script

/-!
# Contracts

A contract runs after `sc.init`. It is an arbitrary Lua program, so a run is an arbitrary list of
operations on the values it has obtained so far (`known`), starting with the globals table. An
operation that raises an error leaves the state as it is.

A call that is not finished is a frame in `pending`: the callee, its arguments and the code that
waits for the results. A function of `sc.init` runs its own code (`enter`), a C function returns
what it may return in the state (`builtin`), and a function of the contract returns any values the
contract knows (`ret`); what it does before is other operations of the run. Frames finish in any
order, since coroutines may suspend them, and any of them may be given up (`raise`).

Where a C function calls functions or writes fields on behalf of its caller (`pcall`,
`table.sort`, `table.insert`, `coroutine.wrap`, the callbacks of `sqlite3`), these are calls and
writes of the contract: the arguments are known to it then (`leaks`). The operators that are not
in `Binary` end in a primitive value or in the call of a metamethod, which are operations of their
own. `trace` is not in the source. It records the calls of C functions, and nothing reads it.

The shell and the files are outside the state. A command changes nothing here, and `require` finds
no native module: so it is while the shell is asked for `sleep` only. What a run does after any
other command, which may put a native module where `require` finds it, is not followed.
-/

namespace Metcalfe.Lua

variable {N : Type}

/-- A call that is not finished. -/
structure Frame (N : Type) where
  callee : Func
  args : List (Value N)
  next : List (Value N) → Prog N

structure State (N : Type) where
  heap : Heap N
  /-- The number of the next new table. -/
  fresh : Nat
  known : List (Value N)
  pending : List (Frame N)
  trace : List (Builtin × List (Value N))

/-- Nil, booleans, numbers and strings. -/
def Value.isPrim : Value N → Bool
  | .nil | .bool _ | .num _ | .str _ => true
  | _ => false

/-- The values that a C function may make: primitive values, functions and threads of the contract,
and the iterators of `pairs` and `ipairs`. -/
def Value.isPlain : Value N → Bool
  | .nil | .bool _ | .num _ | .str _ | .thread _ => true
  | .func (.closure _) => true
  | .func (.builtin (.base .next)) | .func (.builtin (.base .ipairsaux)) => true
  | _ => false

/-- The functions of `lsqlite3.c`. -/
def Builtin.ofSqlite : Builtin → Bool
  | .sqliteOpen | .dbRows | .dbClose | .dbNextPackedRow => true
  | .lib l _ => l = .sqlite3
  | .method h _ => h ≠ .file
  | _ => false

/-- The functions, userdata and tables of `lsqlite3.c`. -/
def Value.ofSqlite : Value N → Bool
  | .func (.builtin b) => b.ofSqlite
  | .userdata h _ => h ≠ .file
  | .table (.lib l) => l = .sqlite3
  | .table (.handleMeta h) => h ≠ .file
  | _ => false

/-- The functions that may return anything: they read files, compile code or look into other
functions. -/
def Builtin.reveals : Builtin → Bool
  | .base .dofile | .base .load | .base .loadfile | .base .loadstring | .base .module => true
  | .lib l _ => l = .io ∨ l = .debug ∨ l = .package
  | .method h _ => h = .file
  | _ => false

/-- The callee may hand its arguments to functions of the contract. -/
def Func.leaks : Func → Bool
  | .closure _ => true
  | .init _ => false
  | .builtin (.os .execute) => false
  | .builtin .sqliteOpen | .builtin .dbRows | .builtin .dbClose | .builtin .dbNextPackedRow => false
  | .builtin _ => true

namespace State

def learn (st : State N) (vs : List (Value N)) : State N := { st with known := vs ++ st.known }

def push (st : State N) (frame : Frame N) : State N :=
  { st with
    pending := frame :: st.pending
    known := if frame.callee.leaks then frame.args ++ st.known else st.known
    trace := match frame.callee with
      | .builtin b => (b, frame.args) :: st.trace
      | _ => st.trace }

def drop (st : State N) (i : Nat) : State N := { st with pending := st.pending.eraseIdx i }

variable [DecidableEq N]

/-- The contract has obtained the values. -/
def knows (st : State N) (vs : List (Value N)) : Bool := vs.all fun v => decide (v ∈ st.known)

def modify (st : State N) (r : Ref) (f : Table N → Table N) : State N :=
  { st with heap := st.heap.modify r f }

/-- Make a table. -/
def allocate (st : State N) (fields : List (Value N × Value N)) : State N :=
  { st with
    heap := Function.update st.heap (.new st.fresh) { fields, metatable := none }
    fresh := st.fresh + 1 }

def invoke (st : State N) (f : Value N) (args : List (Value N)) (next : List (Value N) → Prog N) :
    State N :=
  match callee st.heap f args with
  | some (g, args) => st.push ⟨g, args, next⟩
  | none => st

/-- `v[k] = w`. -/
def assign (st : State N) (v k w : Value N) : State N :=
  match settable st.heap k maxTagLoop v with
  | .writes r => st.modify r fun t => t.rawset k w
  | .calls f object => st.push ⟨f, [object, k, w], fun _ => .ret []⟩
  | .error => st

end State

/-! ## Functions of sc.init -/

section Exec

variable [DecidableEq N] [LuaNumber N]

/-- Run the code up to its next call; what it returns goes to the contract. -/
def exec : Prog N → State N → State N
  | .ret vs, st => st.learn vs
  | .index v k next, st =>
    match gettable st.heap k maxTagLoop v with
    | .found w => exec (next w) st
    | .calls f object => st.push ⟨f, [object, k], fun vs => next (first vs)⟩
    | .error => st
  | .binary op a b next, st =>
    match op.raw a b with
    | some w => exec (next w) st
    | none => st.invoke (binaryHandler st.heap op a b) [a, b] fun vs => next (first vs)
  | .call f args next, st => st.invoke f args next
  | .loop l next, st => st.invoke l.iterator l.args fun vs => (l.turn vs).bind next

/-! ## C functions -/

/-- The function may have read the value off its arguments or got it from the contract. -/
def obtainable (st : State N) (args : List (Value N)) (v : Value N) : Bool :=
  v.isPlain || decide (v ∈ st.known) || decide (v ∈ args) ||
    args.any fun
      | .table r => (st.heap r).fields.any fun e => decide (e.1 = v ∨ e.2 = v)
      | _ => false

namespace Base

/-- The value `getmetatable` returns. -/
def getmetatable (heap : Heap N) (v : Value N) : Value N :=
  match metatableOf heap v with
  | none => .nil
  | some m =>
    let protect := (heap m).rawget (.str "__metatable")
    if protect ≠ .nil then protect else .table m

def setmetatable (st : State N) (args vs : List (Value N)) : Option (State N) :=
  match first args, second args with
  | .table r, .table m =>
    if metamethod st.heap (.table r) "__metatable" = .nil ∧ vs = [.table r] then
      some (st.modify r fun t => { t with metatable := some m })
    else none
  | .table r, .nil =>
    if metamethod st.heap (.table r) "__metatable" = .nil ∧ vs = [.table r] then
      some (st.modify r fun t => { t with metatable := none })
    else none
  | _, _ => none

def rawget (st : State N) (args vs : List (Value N)) : Option (State N) :=
  match first args with
  | .table r => if vs = [(st.heap r).rawget (second args)] then some st else none
  | _ => none

def rawset (st : State N) (args vs : List (Value N)) : Option (State N) :=
  match first args with
  | .table r =>
    if second args ≠ .nil ∧ vs = [.table r] then
      some (st.modify r fun t => t.rawset (second args) (second args.tail))
    else none
  | _ => none

/-- `next`. The order of the traversal is not specified. -/
def next (st : State N) (args vs : List (Value N)) : Option (State N) :=
  match first args with
  | .table r => if vs = [.nil] ∨ ∃ e ∈ (st.heap r).fields, vs = [e.1, e.2] then some st else none
  | _ => none

/-- `require`. A Lua module on `package.path` is code like the contract's: what its chunk does is
other operations of the run, and it returns a value the run has obtained. The directory
`lua/5.2` that `sc.init` searches is not in the repository; no native module is found there, unless
a command of the shell has put it there. -/
def require (st : State N) (args vs : List (Value N)) : Option (State N) :=
  match (first args).toStr? with
  | none => none
  | some name =>
    let entry := (st.heap .loaded).rawget (.str name)
    if entry.truthy then
      if vs = [entry] then some st else none
    else match vs with
      | [v] =>
        if v ≠ .nil ∧ (v = .bool true ∨ v ∈ st.known) then
          some (st.modify .loaded fun t => t.rawset (.str name) v)
        else none
      | _ => none

end Base

/-- What the functions of `lsqlite3.c` return that `getledgerseq` calls. -/
def sqliteReturns (b : Builtin) (args vs : List (Value N)) : Bool :=
  match b, first args, vs with
  | .sqliteOpen, _, [.userdata .db _] => true
  | .sqliteOpen, _, [.nil, .num _, .str _] => true
  | .dbRows, .userdata .db _, [.func (.builtin .dbNextPackedRow), .userdata .vm _] => true
  | .dbNextPackedRow, .userdata .vm _, [] => true
  | .dbClose, .userdata .db _, [.num _] => true
  | _, _, _ => false

/-- The C function returns `vs`: the state it leaves, none where it cannot return them. -/
def respond (st : State N) (b : Builtin) (args vs : List (Value N)) : Option (State N) :=
  match b with
  | .base .type => if args ≠ [] ∧ vs = [.str (first args).typeName] then some st else none
  | .base .require => Base.require st args vs
  | .base .getmetatable => if vs = [Base.getmetatable st.heap (first args)] then some st else none
  | .base .setmetatable => Base.setmetatable st args vs
  | .base .rawget => Base.rawget st args vs
  | .base .rawset => Base.rawset st args vs
  | .base .next => Base.next st args vs
  | .os .execute => if vs.all Value.isPrim then some st else none
  | .sqliteOpen | .dbRows | .dbNextPackedRow | .dbClose =>
    if sqliteReturns b args vs then some st else none
  | b =>
    if b.reveals then some st
    else if vs.all fun v => obtainable st args v || (b.ofSqlite && v.ofSqlite) then some st
    else none

/-! ## Operations -/

inductive Op (N : Type) where
  /-- A literal: nil, a boolean, a number or a string. -/
  | literal (v : Value N)
  /-- A function expression. -/
  | function (id : Nat)
  /-- A table constructor. -/
  | newTable
  | index (v k : Value N)
  | assign (v k w : Value N)
  | binary (op : Binary) (a b : Value N)
  | call (f : Value N) (args : List (Value N))
  /-- A function of `sc.init` starts. -/
  | enter (i : Nat)
  /-- A C function returns. -/
  | builtin (i : Nat) (vs : List (Value N))
  /-- `db_next_packed_row` returns a row with these columns. -/
  | row (i : Nat) (columns : List (Value N))
  /-- A function of the contract returns. -/
  | ret (i : Nat) (vs : List (Value N))
  /-- An error ends the frame. -/
  | raise (i : Nat)

/-- The fields of a row: its columns by their numbers, those that are not NULL. -/
def rowFields (columns : List (Value N)) : List (Value N × Value N) :=
  (columns.zipIdx 1).filterMap fun e =>
    if e.1 = .nil then none else some (.num (LuaNumber.ofNat e.2), e.1)

def step (st : State N) : Op N → State N
  | .literal v => if v.isPrim then st.learn [v] else st
  | .function id => st.learn [.func (.closure id)]
  | .newTable => (st.allocate []).learn [.table (.new st.fresh)]
  | .index v k => if st.knows [v, k] then exec (.index v k fun w => .ret [w]) st else st
  | .assign v k w => if st.knows [v, k, w] then st.assign v k w else st
  | .binary op a b => if st.knows [a, b] then exec (.binary op a b fun w => .ret [w]) st else st
  | .call f args => if st.knows (f :: args) then exec (.call f args .ret) st else st
  | .enter i =>
    match st.pending[i]? with
    | some ⟨.init f, args, next⟩ => exec ((code f args).bind next) (st.drop i)
    | _ => st
  | .builtin i vs =>
    match st.pending[i]? with
    | some ⟨.builtin b, args, next⟩ =>
      match respond st b args vs with
      | some st' => exec (next vs) (st'.drop i)
      | none => st
    | _ => st
  | .row i columns =>
    match st.pending[i]? with
    | some ⟨.builtin .dbNextPackedRow, _, next⟩ =>
      if columns.all Value.isPrim then
        exec (next [.table (.new st.fresh)]) ((st.allocate (rowFields columns)).drop i)
      else st
    | _ => st
  | .ret i vs =>
    match st.pending[i]? with
    | some ⟨.closure _, _, next⟩ => if st.knows vs then exec (next vs) (st.drop i) else st
    | _ => st
  | .raise i => st.drop i

/-- The state that `sc.init` leaves to the contract. -/
def start : State N where
  heap := scInit opened
  fresh := 0
  known := [.table .globals]
  pending := []
  trace := []

def run (ops : List (Op N)) : State N := ops.foldl step start

end Exec

end Metcalfe.Lua
