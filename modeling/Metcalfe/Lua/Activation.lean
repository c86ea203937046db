import Metcalfe.Lua.Runs

/-!
# One call of a function of sc.init

A run of a contract interleaves the frames of all its calls. Here one call is followed on its own:
its code runs up to a call (`advance`), the callee raises an error or returns (`Raises`,
`Answers`), and the code goes on in the tables as they are then. `exec_eq_resume` and
`step_answers` say that the machine's frames do just this.

SQLite is a parameter: `prepare` gives the statement that `sqlite3_prepare_v2` compiles of a text, the
first one in it, where it compiles one.
-/

namespace Metcalfe.Lua

open Policy

variable {N : Type}

/-! ## Up to the next call -/

/-- Where a piece of code stops. -/
inductive Pause (N : Type) where
  | returned (vs : List (Value N))
  | calls (f : Func) (args : List (Value N)) (next : List (Value N) → Prog N)
  /-- An operation on values raised an error. -/
  | raised

section Advance

variable [DecidableEq N]

/-- A call, of a function or of a value with a `__call`. -/
def dispatch (heap : Heap N) (f : Value N) (args : List (Value N))
    (next : List (Value N) → Prog N) : Pause N :=
  match callee heap f args with
  | some (g, args) => .calls g args next
  | none => .raised

variable [LuaNumber N]

def advance (heap : Heap N) : Prog N → Pause N
  | .ret vs => .returned vs
  | .index v k next =>
    match gettable heap k maxTagLoop v with
    | .found w => advance heap (next w)
    | .calls f object => .calls f [object, k] fun vs => next (first vs)
    | .error => .raised
  | .binary op a b next =>
    match op.raw a b with
    | some w => advance heap (next w)
    | none => dispatch heap (binaryHandler heap op a b) [a, b] fun vs => next (first vs)
  | .call f args next => dispatch heap f args next
  | .loop l next => dispatch heap l.iterator l.args fun vs => (l.turn vs).bind next

omit [DecidableEq N] [LuaNumber N] in
/-- What the machine does with code that has stopped. -/
def State.resume (st : State N) : Pause N → State N
  | .returned vs => st.learn vs
  | .calls f args next => st.push ⟨f, args, next⟩
  | .raised => st

omit [LuaNumber N] in
theorem invoke_eq_resume (st : State N) (f : Value N) (args : List (Value N))
    (next : List (Value N) → Prog N) :
    st.invoke f args next = st.resume (dispatch st.heap f args next) := by
  unfold State.invoke dispatch
  cases callee st.heap f args <;> rfl

theorem exec_eq_resume (p : Prog N) (st : State N) :
    exec p st = st.resume (advance st.heap p) := by
  induction p with
  | ret vs => rfl
  | index v k next ih =>
    simp only [exec, advance]
    cases gettable st.heap k maxTagLoop v with
    | found w => exact ih w
    | calls f object => rfl
    | error => rfl
  | binary op a b next ih =>
    simp only [exec, advance]
    cases op.raw a b with
    | some w => exact ih w
    | none => exact invoke_eq_resume st _ _ _
  | call f args next => exact invoke_eq_resume st f args next
  | loop l next => exact invoke_eq_resume st _ _ _

theorem advance_index {heap : Heap N} {v k w : Value N} {next : Value N → Prog N}
    (h : gettable heap k maxTagLoop v = .found w) :
    advance heap (.index v k next) = advance heap (next w) := by
  simp only [advance, h]

theorem advance_binary {heap : Heap N} {op : Binary} {a b w : Value N} {next : Value N → Prog N}
    (h : op.raw a b = some w) : advance heap (.binary op a b next) = advance heap (next w) := by
  simp only [advance, h]

theorem advance_handler (heap : Heap N) {op : Binary} {a b : Value N} (next : Value N → Prog N)
    (h : op.raw a b = none) : advance heap (.binary op a b next) =
      dispatch heap (binaryHandler heap op a b) [a, b] fun vs => next (first vs) := by
  simp only [advance, h]

end Advance

/-! ## The tables -/

variable [LuaNumber N]

/-- The tables in a run in which nobody gets `sqlite3`: those of `sqlite3` are as they were, and
the others do not lead to it. -/
structure Sealed (heap : Heap N) : Prop where
  clear : unshared.ClearHeap heap
  fixed : ∀ r, (.table r : Value N).ofSqlite = true → heap r = opened r

theorem Confined.toSealed {st : State N} (h : Confined unshared st) : Sealed st.heap :=
  ⟨h.heap, h.fixed rfl⟩

namespace Sealed

variable {heap : Heap N}

/-- A new table with clear fields and without a metatable. -/
theorem update (h : Sealed heap) (n : Nat) {fields : List (Value N × Value N)}
    (hfields : ∀ e ∈ fields, unshared.clear e.1 = true ∧ unshared.clear e.2 = true) :
    Sealed (Function.update heap (.new n) ⟨fields, none⟩) where
  clear := by
    intro r hr
    by_cases heq : r = .new n
    · subst heq
      rw [Function.update_self]
      exact ⟨hfields, by simp⟩
    · rw [Function.update_of_ne heq]
      exact h.clear r hr
  fixed := by
    intro r hr
    have hne : r ≠ .new n := by
      rintro rfl
      cases hr
    rw [Function.update_of_ne hne]
    exact h.fixed r hr

variable [DecidableEq N]

/-- The handler of an operator on values of the contract is a function of the contract's too. -/
theorem clear_handler (h : Sealed heap) {op : Binary} {a b : Value N} {g : Func}
    {args : List (Value N)} (ha : unshared.clear a = true) (hb : unshared.clear b = true)
    (hcallee : callee heap (binaryHandler heap op a b) [a, b] = some (g, args)) :
    unshared.clear (.func g : Value N) = true := by
  have hclear := h.clear.binaryHandler op ha hb
  unfold callee at hcallee
  split at hcallee
  · rename_i heq
    cases hcallee
    rwa [heq] at hclear
  · split at hcallee
    · rename_i g' hg'
      cases hcallee
      have hcall := h.clear.metamethod hclear "__call"
      rwa [hg'] at hcall
    · cases hcallee

end Sealed

/-! ## How a call ends -/

/-- The part of a string that a C function sees which takes it without its length. -/
def cString (s : String) : String := String.ofList (s.toList.takeWhile fun c => c ≠ '\x00')

section Callee

variable (prepare : String → Option String)

/-- The statement that `db_rows` compiles. -/
def statement (args : List (Value N)) : Option String :=
  (second args).toStr?.bind fun text => prepare (cString text)

/-- The call may raise an error. The handles in `getledgerseq` are open until it closes them, since
nobody else has them. -/
def Raises (f : Func) (args : List (Value N)) : Prop :=
  match f with
  | .builtin .sqliteOpen =>
    (first args).toStr? = none ∨ (second args ≠ .nil ∧ (second args).toNum? = none)
  | .builtin .dbRows => (∀ i, first args ≠ .userdata .db i) ∨ statement prepare args = none
  | .builtin .dbClose => ∀ i, first args ≠ .userdata .db i
  | _ => True

/-- The call may return `vs` and leave the tables as `heap'`. The functions that `getledgerseq`
has of `sqlite3` run no code of the contract; of the contract's functions, and of the C functions it
may have, nothing else is known. -/
def Answers [DecidableEq N] (heap : Heap N) (f : Func) (args vs : List (Value N))
    (heap' : Heap N) : Prop :=
  match f with
  | .builtin .sqliteOpen => sqliteReturns .sqliteOpen args vs = true ∧ heap' = heap
  | .builtin .dbRows =>
    sqliteReturns .dbRows args vs = true ∧ (statement prepare args).isSome = true ∧ heap' = heap
  | .builtin .dbClose => sqliteReturns .dbClose args vs = true ∧ heap' = heap
  | .builtin .dbNextPackedRow =>
    (sqliteReturns .dbNextPackedRow args vs = true ∧ heap' = heap) ∨
      ∃ n columns, columns.all Value.isPrim = true ∧ vs = [.table (.new n)] ∧
        heap' = Function.update heap (.new n) ⟨rowFields columns, none⟩
  | _ => unshared.AllClear vs ∧ Sealed heap'

end Callee

section Machine

variable [DecidableEq N] {prepare : String → Option String} {st : State N} {i : Nat}
  {args vs : List (Value N)} {next : List (Value N) → Prog N}

/-- A C function that is not one of those that `getledgerseq` has of `sqlite3`. -/
theorem Confined.answer (h : Confined unshared st) {st' : State N} {b : Builtin}
    (hi : st.pending[i]? = some ⟨.builtin b, args, next⟩)
    (hok : sparesSqlite st (.builtin i vs) = true) (hrespond : Lua.respond st b args vs = some st')
    (hreply : unshared.Granted b args → Reply b args vs → unshared.AllClear vs) :
    unshared.AllClear vs ∧ Sealed st'.heap := by
  rcases h.good_frame hi with ⟨hclear, -⟩ | ⟨b', hb', hgranted, -⟩
  · have hname : unshared.closed = true → b = .base .require →
        (first args).toStr? ≠ some "sqlite3" := by
      rintro - rfl
      simpa [sparesSqlite, hi] using hok
    obtain ⟨h', hvs⟩ := h.respond hclear hname hrespond
    exact ⟨hvs, h'.toSealed⟩
  · cases hb'
    obtain ⟨rfl, hvs⟩ := respond_granted hgranted hrespond
    exact ⟨hreply hgranted hvs, h.toSealed⟩

theorem answers_of_respond (h : Confined unshared st) {st' : State N} {b : Builtin}
    (hi : st.pending[i]? = some ⟨.builtin b, args, next⟩)
    (hok : sparesSqlite st (.builtin i vs) = true)
    (hprepare : b = .dbRows → (statement prepare args).isSome = true)
    (hrespond : respond st b args vs = some st') :
    Answers prepare st.heap (.builtin b) args vs st'.heap := by
  cases b with
  | sqliteOpen | dbClose =>
    simp only [respond, Option.ite_none_right_eq_some, Option.some.injEq] at hrespond
    obtain ⟨hvs, rfl⟩ := hrespond
    exact ⟨hvs, rfl⟩
  | dbRows =>
    simp only [respond, Option.ite_none_right_eq_some, Option.some.injEq] at hrespond
    obtain ⟨hvs, rfl⟩ := hrespond
    exact ⟨hvs, hprepare rfl, rfl⟩
  | dbNextPackedRow =>
    simp only [respond, Option.ite_none_right_eq_some, Option.some.injEq] at hrespond
    obtain ⟨hvs, rfl⟩ := hrespond
    exact Or.inl ⟨hvs, rfl⟩
  | base f =>
    refine h.answer hi hok hrespond ?_
    intro hgranted hreply
    cases hgranted
    rw [hreply]
    simp
  | os f =>
    refine h.answer hi hok hrespond ?_
    intro hgranted hreply
    cases hgranted
    exact fun v hv => clear_of_isPrim (hreply v hv)
  | lib | method =>
    refine h.answer hi hok hrespond ?_
    intro hgranted
    cases hgranted

/-- Whatever operation lets a frame of a run go on, it is an answer to its call, and the code goes
on up to its next call. -/
theorem step_answers (h : Confined unshared st) {f : Func} {op : Op N}
    (hi : st.pending[i]? = some ⟨f, args, next⟩) (hok : sparesSqlite st op = true)
    (hop : (∃ vs, op = .builtin i vs) ∨ (∃ columns, op = .row i columns) ∨ ∃ vs, op = .ret i vs)
    (hprepare : f = .builtin .dbRows → (statement prepare args).isSome = true) :
    step st op = st ∨ ∃ (vs : List (Value N)) (st' : State N),
      Answers prepare st.heap f args vs st'.heap ∧
        step st op = (st'.drop i).resume (advance st'.heap (next vs)) := by
  rcases hop with ⟨vs, rfl⟩ | ⟨columns, rfl⟩ | ⟨vs, rfl⟩
  · cases f with
    | builtin b =>
      simp only [step, hi]
      cases hrespond : respond st b args vs with
      | none => exact Or.inl rfl
      | some st' =>
        refine Or.inr ⟨vs, st', ?_, exec_eq_resume _ _⟩
        exact answers_of_respond h hi hok (fun hb => hprepare (by rw [hb])) hrespond
    | init | closure => exact Or.inl (by simp only [step, hi])
  · simp only [step, hi]
    split
    · rename_i heq
      cases heq
      split
      · rename_i hcolumns
        refine Or.inr ⟨_, st.allocate (rowFields columns), ?_, exec_eq_resume _ _⟩
        exact Or.inr ⟨st.fresh, columns, hcolumns, rfl, rfl⟩
      · exact Or.inl rfl
    · exact Or.inl rfl
  · cases f with
    | closure id =>
      simp only [step, hi]
      split
      · rename_i hknows
        exact Or.inr ⟨vs, st, ⟨h.allClear_of_knows hknows, h.toSealed⟩, exec_eq_resume _ _⟩
      · exact Or.inl rfl
    | builtin | init => exact Or.inl (by simp only [step, hi])

end Machine

/-! ## Activations -/

/-- What a call returned, and the tables as it left them. -/
structure Answer (N : Type) where
  values : List (Value N)
  heap : Heap N

/-- A call made by the code; no answer where it raised an error. -/
structure Called (N : Type) where
  callee : Func
  args : List (Value N)
  answer : Option (Answer N)

/-- How control leaves the code. -/
inductive Ending (N : Type) where
  | returned (vs : List (Value N))
  | raised

variable [DecidableEq N]

/-- With these tables the code may make these calls, one after the other, and end so. -/
inductive Activation (prepare : String → Option String) :
    Heap N → Prog N → List (Called N) → Ending N → Prop where
  | returned {heap : Heap N} {p : Prog N} {vs : List (Value N)}
    (h : advance heap p = .returned vs) : Activation prepare heap p [] (.returned vs)
  | raised {heap : Heap N} {p : Prog N} (h : advance heap p = .raised) :
    Activation prepare heap p [] .raised
  | fails {heap : Heap N} {p : Prog N} {f : Func} {args : List (Value N)}
    {next : List (Value N) → Prog N} (h : advance heap p = .calls f args next)
    (hraises : Raises prepare f args) : Activation prepare heap p [⟨f, args, none⟩] .raised
  | answered {heap : Heap N} {p : Prog N} {f : Func} {args : List (Value N)}
    {next : List (Value N) → Prog N} {a : Answer N} {es : List (Called N)} {o : Ending N}
    (h : advance heap p = .calls f args next) (ha : Answers prepare heap f args a.values a.heap)
    (hnext : Activation prepare a.heap (next a.values) es o) :
    Activation prepare heap p (⟨f, args, some a⟩ :: es) o

variable {prepare : String → Option String} {heap : Heap N} {p q : Prog N} {es : List (Called N)}
  {o : Ending N}

namespace Activation

/-- Only the next stop of the code matters. -/
theorem congr (h : Activation prepare heap p es o) (heq : advance heap p = advance heap q) :
    Activation prepare heap q es o := by
  cases h with
  | returned h => exact .returned (heq ▸ h)
  | raised h => exact .raised (heq ▸ h)
  | fails h hraises => exact .fails (heq ▸ h) hraises
  | answered h ha hnext => exact .answered (heq ▸ h) ha hnext

theorem of_returned {vs : List (Value N)} (h : Activation prepare heap p es o)
    (heq : advance heap p = .returned vs) : es = [] ∧ o = .returned vs := by
  cases h with
  | returned h =>
    rw [heq] at h
    cases h
    exact ⟨rfl, rfl⟩
  | raised h | fails h | answered h =>
    rw [heq] at h
    cases h

theorem of_raised (h : Activation prepare heap p es o) (heq : advance heap p = .raised) :
    es = [] ∧ o = .raised := by
  cases h with
  | raised h => exact ⟨rfl, rfl⟩
  | returned h | fails h | answered h =>
    rw [heq] at h
    cases h

theorem of_calls {f : Func} {args : List (Value N)} {next : List (Value N) → Prog N}
    (h : Activation prepare heap p es o) (heq : advance heap p = .calls f args next) :
    (Raises prepare f args ∧ es = [⟨f, args, none⟩] ∧ o = .raised) ∨
      ∃ a rest, Answers prepare heap f args a.values a.heap ∧ es = ⟨f, args, some a⟩ :: rest ∧
        Activation prepare a.heap (next a.values) rest o := by
  cases h with
  | returned h | raised h =>
    rw [heq] at h
    cases h
  | fails h hraises =>
    rw [heq] at h
    cases h
    exact Or.inl ⟨hraises, rfl, rfl⟩
  | answered h ha hnext =>
    rw [heq] at h
    cases h
    exact Or.inr ⟨_, _, ha, rfl, hnext⟩

end Activation

/-! ## Operators -/

/-- The result of an operator, with the tables after it and the calls that are left: a handler's
result is read off the first call. None where the operator raises an error. -/
def Binary.evaluate (heap : Heap N) (op : Binary) (a b : Value N) (es : List (Called N)) :
    Option (Value N × Heap N × List (Called N)) :=
  match op.raw a b with
  | some w => some (w, heap, es)
  | none =>
    match callee heap (binaryHandler heap op a b) [a, b], es with
    | some _, ⟨_, _, some a⟩ :: es => some (first a.values, a.heap, es)
    | _, _ => none

/-- The functions called are not functions of `sqlite3`. -/
def Foreign (es : List (Called N)) : Prop :=
  ∀ c ∈ es, unshared.clear (.func c.callee : Value N) = true

omit [LuaNumber N] [DecidableEq N] in
theorem foreign_nil : Foreign ([] : List (Called N)) := nofun

omit [LuaNumber N] [DecidableEq N] in
theorem foreign_singleton {c : Called N} (h : unshared.clear (.func c.callee : Value N) = true) :
    Foreign [c] := by
  simpa [Foreign] using h

omit [LuaNumber N] [DecidableEq N] in
theorem Foreign.append {es' : List (Called N)} (h : Foreign es) (h' : Foreign es') :
    Foreign (es ++ es') := by
  intro c hc
  exact (List.mem_append.mp hc).elim (h c) (h' c)

theorem answers_iff_of_clear {f : Func} {args vs : List (Value N)} {heap' : Heap N}
    (hf : unshared.clear (.func f : Value N) = true) :
    Answers prepare heap f args vs heap' ↔ unshared.AllClear vs ∧ Sealed heap' := by
  unfold Answers
  split
  all_goals first
    | rfl
    | cases hf

/-- An operator on values of the contract raises an error, or the code goes on with a value of the
contract. -/
theorem Activation.binary {op : Binary} {a b : Value N} {next : Value N → Prog N}
    (hsealed : Sealed heap) (ha : unshared.clear a = true) (hb : unshared.clear b = true)
    (h : Activation prepare heap (.binary op a b next) es o) :
    (op.evaluate heap a b es = none ∧ o = .raised ∧ Foreign es) ∨
      ∃ w heap' before rest, op.evaluate heap a b es = some (w, heap', rest) ∧
        es = before ++ rest ∧ Foreign before ∧ unshared.clear w = true ∧ Sealed heap' ∧
        Activation prepare heap' (next w) rest o := by
  cases hraw : op.raw a b with
  | some w =>
    refine Or.inr ⟨w, heap, [], es, ?_, rfl, foreign_nil, clear_of_raw hraw, hsealed, ?_⟩
    · simp only [Binary.evaluate, hraw]
    · exact h.congr (advance_binary hraw)
  | none =>
    have hstop := advance_handler heap next hraw
    cases hcallee : callee heap (binaryHandler heap op a b) [a, b] with
    | none =>
      simp only [dispatch, hcallee] at hstop
      obtain ⟨rfl, rfl⟩ := h.of_raised hstop
      exact Or.inl ⟨by simp only [Binary.evaluate, hraw, hcallee], rfl, foreign_nil⟩
    | some call =>
      obtain ⟨g, args⟩ := call
      have hg := hsealed.clear_handler ha hb hcallee
      simp only [dispatch, hcallee] at hstop
      rcases h.of_calls hstop with ⟨-, rfl, rfl⟩ | ⟨answer, rest, hanswer, rfl, hrest⟩
      · exact Or.inl ⟨by simp only [Binary.evaluate, hraw, hcallee], rfl, foreign_singleton hg⟩
      · obtain ⟨hvs, hsealed'⟩ := (answers_iff_of_clear hg).mp hanswer
        refine Or.inr ⟨_, _, [_], rest, ?_, rfl, foreign_singleton hg, hvs.first, hsealed', hrest⟩
        simp only [Binary.evaluate, hraw, hcallee]

/-- The handler of an operator may return any values of the contract. -/
theorem Activation.of_handler {op : Binary} {a b : Value N} (next : Value N → Prog N) {g : Func}
    {args vs : List (Value N)} {heap' : Heap N} (hsealed : Sealed heap)
    (ha : unshared.clear a = true) (hb : unshared.clear b = true) (hraw : op.raw a b = none)
    (hcallee : callee heap (binaryHandler heap op a b) [a, b] = some (g, args))
    (hvs : unshared.AllClear vs) (hsealed' : Sealed heap')
    (h : Activation prepare heap' (next (first vs)) es o) :
    ∃ before, Foreign before ∧
      Activation prepare heap (.binary op a b next) (before ++ es) o := by
  have hg := hsealed.clear_handler ha hb hcallee
  have hstop := advance_handler heap next hraw
  simp only [dispatch, hcallee] at hstop
  refine ⟨[⟨g, args, some ⟨vs, heap'⟩⟩], foreign_singleton hg, ?_⟩
  exact .answered hstop ((answers_iff_of_clear hg).mpr ⟨hvs, hsealed'⟩) h

end Metcalfe.Lua
