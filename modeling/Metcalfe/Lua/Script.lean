import Metcalfe.Lua.Value

/-!
# sc.init

The script `lua/5.1/sc.init`: the three functions it leaves to contracts, and what it does to the
tables of a Lua 5.2 state in which the standard libraries and `sqlite3` are open.

Every read of a global, every operator and every call inside these functions may run code of the
contract, so a function is a `Prog`: the operations it performs, each with what is done with its
result. The upvalues `execute` and `sqlite` are the functions and tables they were bound to.
-/

namespace Metcalfe.Lua

/-- The `for` loops of `printable` and of `getledgerseq`, between two turns: the iterator, its
state and its control variable. -/
inductive Loop (N : Type) where
  | pairs (f s control : Value N)
  | rows (db f s control min max : Value N)

/-- A piece of Lua code. -/
inductive Prog (N : Type) where
  | ret (vs : List (Value N))
  | index (v k : Value N) (next : Value N → Prog N)
  | binary (op : Binary) (a b : Value N) (next : Value N → Prog N)
  | call (f : Value N) (args : List (Value N)) (next : List (Value N) → Prog N)
  | loop (l : Loop N) (next : List (Value N) → Prog N)

variable {N : Type}

/-- Go on with `k` where the code returns. -/
def Prog.bind : Prog N → (List (Value N) → Prog N) → Prog N
  | .ret vs, k => k vs
  | .index v key next, k => .index v key fun w => (next w).bind k
  | .binary op a b next, k => .binary op a b fun w => (next w).bind k
  | .call f args next, k => .call f args fun vs => (next vs).bind k
  | .loop l next, k => .loop l fun vs => (next vs).bind k

/-- Read a global: a field of the table `_ENV`. -/
def Prog.global (name : String) (next : Value N → Prog N) : Prog N :=
  .index (.table .globals) (.str name) next

namespace Loop

/-- The call at the head of a turn. -/
def iterator : Loop N → Value N
  | .pairs f _ _ => f
  | .rows _ f _ _ _ _ => f

def args : Loop N → List (Value N)
  | .pairs _ s control => [s, control]
  | .rows _ _ s control _ _ => [s, control]

variable [LuaNumber N] [DecidableEq N]

/-- One turn after the call of the iterator, or what follows the loop where it has ended. -/
def turn : Loop N → List (Value N) → Prog N
  | .pairs f s _, vs =>
    if first vs = .nil then .ret []
    else
      .global "print" fun print =>
      .call print [first vs, second vs] fun _ =>
      .loop (.pairs f s (first vs)) .ret
  | .rows db f s _ min max, vs =>
    if first vs = .nil then
      .index db (.str "close") fun close =>
      .call close [db] fun _ =>
      .ret [min, max]
    else
      .index (first vs) (.num (LuaNumber.ofNat 1)) fun min =>
      .index (first vs) (.num (LuaNumber.ofNat 2)) fun max =>
      .loop (.rows db f s (first vs) min max) .ret

end Loop

variable [LuaNumber N] [DecidableEq N]

/-! ## The functions -/

def printable (t : Value N) : Prog N :=
  .global "pairs" fun pairs =>
  .call pairs [t] fun vs =>
  .loop (.pairs (first vs) (second vs) (second vs.tail)) .ret

/-- The upvalue `execute`. -/
def execute : Value N := .func (.builtin (.os .execute))

/-- `sleep`, from the call of the function that the global `type` gave. -/
def sleepWith (type sleepTime : Value N) : Prog N :=
  .call type [sleepTime] fun vs =>
  if first vs ≠ .str "number" then
    .global "print" fun print =>
    .call print [.str "sleepTime is not valid number"] fun _ =>
    .ret []
  else
    .binary .div sleepTime (.num (LuaNumber.ofNat 1000)) fun seconds =>
    .binary .concat (.str "sleep ") seconds fun command =>
    .call execute [command] .ret

def sleep (sleepTime : Value N) : Prog N := .global "type" fun type => sleepWith type sleepTime

/-- The upvalue `sqlite`. -/
def sqlite : Value N := .table (.lib .sqlite3)

def getledgerseq (stime etime : Value N) : Prog N :=
  .index sqlite (.str "open") fun open_ =>
  .index sqlite (.str "OPEN_READONLY") fun flags =>
  .call open_ [.str "db/ledger.db", flags] fun vs =>
  if (first vs).truthy = false then .ret [.nil]
  else
    .binary .add etime (.num (LuaNumber.ofNat 1)) fun etime =>
    -- `..` associates to the right
    .binary .concat (.str " AND ClosingTime < ") etime fun sql =>
    .binary .concat stime sql fun sql =>
    .binary .concat
      (.str "SELECT MIN(LedgerSeq), MAX(LedgerSeq) FROM Ledgers WHERE ClosingTime >= ")
      sql fun sql =>
    .index (first vs) (.str "rows") fun rows =>
    .call rows [first vs, sql] fun it =>
    .loop (.rows (first vs) (first it) (second it) (second it.tail)
      (.num (LuaNumber.ofNat 0)) (.num (LuaNumber.ofNat 0))) .ret

def code : InitFn → List (Value N) → Prog N
  | .printable, args => printable (first args)
  | .sleep, args => sleep (first args)
  | .getledgerseq, args => getledgerseq (first args) (second args)

/-! ## The state in which the script is run -/

def baseFns : List (String × BaseFn) :=
  [("assert", .assert), ("collectgarbage", .collectgarbage), ("dofile", .dofile),
   ("error", .error), ("getmetatable", .getmetatable), ("ipairs", .ipairs), ("load", .load),
   ("loadfile", .loadfile), ("loadstring", .loadstring), ("module", .module), ("next", .next),
   ("pairs", .pairs), ("pcall", .pcall), ("print", .print), ("rawequal", .rawequal),
   ("rawget", .rawget), ("rawlen", .rawlen), ("rawset", .rawset), ("require", .require),
   ("select", .select), ("setmetatable", .setmetatable), ("tonumber", .tonumber),
   ("tostring", .tostring), ("type", .type), ("unpack", .unpack), ("xpcall", .xpcall)]

def osFns : List (String × OsFn) :=
  [("clock", .clock), ("date", .date), ("difftime", .difftime), ("execute", .execute),
   ("exit", .exit), ("getenv", .getenv), ("remove", .remove), ("rename", .rename),
   ("setlocale", .setlocale), ("time", .time), ("tmpname", .tmpname)]

def libs : List (String × Lib) :=
  [("coroutine", .coroutine), ("table", .table), ("io", .io), ("os", .os), ("string", .string),
   ("bit32", .bit32), ("math", .math), ("debug", .debug), ("package", .package),
   ("sqlite3", .sqlite3)]

/-- The functions of a library, except those with constructors of their own. -/
def libNames : Lib → List String
  | .coroutine => ["create", "resume", "running", "status", "wrap", "yield"]
  | .table => ["concat", "insert", "maxn", "pack", "remove", "sort", "unpack"]
  | .io =>
    ["close", "flush", "input", "lines", "open", "output", "popen", "read", "tmpfile", "type",
     "write"]
  | .os => []
  | .string =>
    ["byte", "char", "dump", "find", "format", "gmatch", "gsub", "len", "lower", "match", "rep",
     "reverse", "sub", "upper"]
  | .bit32 =>
    ["arshift", "band", "bnot", "bor", "btest", "bxor", "extract", "lrotate", "lshift", "replace",
     "rrotate", "rshift"]
  | .math =>
    ["abs", "acos", "asin", "atan", "atan2", "ceil", "cos", "cosh", "deg", "exp", "floor", "fmod",
     "frexp", "ldexp", "log", "log10", "max", "min", "modf", "pow", "rad", "random", "randomseed",
     "sin", "sinh", "sqrt", "tan", "tanh"]
  | .debug =>
    ["debug", "gethook", "getinfo", "getlocal", "getmetatable", "getregistry", "getupvalue",
     "getuservalue", "sethook", "setlocal", "setmetatable", "setupvalue", "setuservalue",
     "traceback", "upvalueid", "upvaluejoin"]
  | .package => ["loadlib", "searchpath", "seeall"]
  | .sqlite3 =>
    ["lversion", "version", "complete", "temp_directory", "open_memory", "open_ptr", "backup_init",
     "__newindex"]

/-- The methods of a kind of userdata, except those with constructors of their own: `dblib`,
`vmlib`, `dbbulib` and `ctxlib` of `lsqlite3.c`. -/
def methodNames : Handle → List String
  | .file => ["close", "flush", "lines", "read", "seek", "setvbuf", "write", "__gc", "__tostring"]
  | .db =>
    ["isopen", "last_insert_rowid", "changes", "total_changes", "errcode", "error_code", "errmsg",
     "error_message", "interrupt", "db_filename", "create_function", "create_aggregate",
     "create_collation", "load_extension", "trace", "progress_handler", "busy_timeout",
     "busy_handler", "update_hook", "commit_hook", "rollback_hook", "prepare", "urows", "nrows",
     "exec", "execute", "close_vm", "get_ptr", "__tostring", "__gc"]
  | .vm =>
    ["isopen", "step", "reset", "finalize", "columns", "bind", "bind_values", "bind_names",
     "bind_blob", "bind_parameter_count", "bind_parameter_name", "get_value", "get_values",
     "get_name", "get_names", "get_type", "get_types", "get_uvalues", "get_unames", "get_utypes",
     "get_named_values", "get_named_types", "rows", "urows", "nrows", "last_insert_rowid", "idata",
     "inames", "itypes", "data", "type", "__tostring", "__gc"]
  | .bu => ["step", "remaining", "pagecount", "finish", "__gc"]
  | .ctx =>
    ["user_data", "get_aggregate_data", "set_aggregate_data", "aggregate_count", "result",
     "result_null", "result_number", "result_double", "result_int", "result_text", "result_blob",
     "result_error", "__tostring"]

def builtinField (name : String) (b : Builtin) : Value N × Value N :=
  (.str name, .func (.builtin b))

def tableField (name : String) (r : Ref) : Value N × Value N := (.str name, .table r)

/-- The value of `SQLITE_OPEN_READONLY`. -/
def openReadonly : Value N := .num (LuaNumber.ofNat 1)

/-- The fields of a library's table that are not in `libNames`. -/
def ownFields : Lib → List (Value N × Value N)
  | .os => osFns.map fun e => builtinField e.1 (.os e.2)
  | .io =>
    [(.str "stdin", .userdata .file 0), (.str "stdout", .userdata .file 1),
     (.str "stderr", .userdata .file 2)]
  | .package =>
    [tableField "loaded" .loaded, tableField "preload" .preload, tableField "searchers" .searchers]
  | .sqlite3 => [builtinField "open" .sqliteOpen, (.str "OPEN_READONLY", openReadonly)]
  | _ => []

def luaVersion : String := "Lua 5.2"

/-- The tables of the state: the libraries were opened with `luaL_requiref`, so that each is a
global and an entry of `package.loaded`. The module table of `sqlite3` is its own metatable, and
the metatables of its userdata are their own `__index`. -/
def opened : Heap N
  | .globals =>
    { fields := baseFns.map (fun e => builtinField e.1 (.base e.2))
        ++ libs.map (fun e => tableField e.1 (.lib e.2))
        ++ [tableField "_G" .globals, (.str "_VERSION", .str luaVersion)]
      metatable := none }
  | .lib l =>
    { fields := ownFields l ++ (libNames l).map fun name => builtinField name (.lib l name)
      metatable := if l = .sqlite3 then some (.lib .sqlite3) else none }
  | .loaded =>
    { fields := tableField "_G" .globals :: libs.map fun e => tableField e.1 (.lib e.2)
      metatable := none }
  | .stringMeta => { fields := [tableField "__index" (.lib .string)], metatable := none }
  | .handleMeta h =>
    { fields := tableField "__index" (.handleMeta h)
        :: (if h = .db then [builtinField "rows" .dbRows, builtinField "close" .dbClose] else [])
        ++ (methodNames h).map fun name => builtinField name (.method h name)
      metatable := none }
  | .preload | .searchers | .new _ => { fields := [], metatable := none }

/-! ## The script -/

def striptable (reserve : List String) (t : Table N) : Table N :=
  { t with
    fields := t.fields.filter fun e =>
      match e.1 with
      | .str k => decide (k ∈ reserve)
      | _ => false }

/-- `G_vtable`. -/
def gVtable : List String :=
  ["table", "bit32", "string", "math", "coroutine", "debug", "io", "os", "_G",
   "tonumber", "type", "pairs", "ipairs", "tostring", "select", "next", "assert", "unpack", "error",
   "_VERSION", "pcall", "xpcall", "require", "print", "rawlen", "rawget", "rawset", "rawequal",
   "printable", "setmetatable", "getmetatable", "collectgarbage", "getledgerseq"]

/-- The version's number, `5.x` where it has no digit. -/
def version : String :=
  match luaVersion.toList.dropWhile fun c => !c.isDigit with
  | [] => "5.x"
  | digits => String.ofList digits

def Heap.modify (heap : Heap N) (r : Ref) (f : Table N → Table N) : Heap N :=
  Function.update heap r (f (heap r))

def Heap.assign (heap : Heap N) (r : Ref) (name : String) (v : Value N) : Heap N :=
  heap.modify r fun t => t.rawset (.str name) v

/-- What `sc.init` does. The tables it works on have no metatables at that time, except that of
`sqlite3`, which it does not touch. -/
def scInit (heap : Heap N) : Heap N :=
  let heap := heap.assign .globals "printable" (.func (.init .printable))
  let heap := heap.modify (.lib .debug) (striptable [])
  let heap := heap.modify (.lib .io) (striptable [])
  let heap := heap.assign (.lib .os) "sleep" (.func (.init .sleep))
  let heap := heap.modify (.lib .os) (striptable ["date", "time", "difftime", "clock", "sleep"])
  let heap := heap.assign (.lib .package) "path" (.str ("./lua/" ++ version ++ "/?.lua"))
  let heap := heap.assign (.lib .package) "cpath" (.str ("./lua/" ++ version ++ "/?.so"))
  let heap := heap.assign .loaded "package" .nil
  let heap := heap.assign .globals "package" .nil
  let heap := heap.assign .globals "getledgerseq" (.func (.init .getledgerseq))
  heap.modify .globals (striptable gVtable)

end Metcalfe.Lua
