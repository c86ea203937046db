import Mathlib.Data.List.TakeWhile
import Metcalfe.Lua.LedgerSeq

/-!
# The query of getledgerseq

`getledgerseq` pastes its arguments into the text of a query. `sleep`, which pastes its argument
into a command, asks for a number first; `getledgerseq` does not. So it runs only its own query
where the pasted texts are decimal numerals and no metamethod comes in between
(`Sealed.runsOwnQuery_iff`); of any other text SQLite compiles and executes the first statement.
-/

namespace Metcalfe.Lua

open Policy Steps

/-! ## Numerals -/

/-- The rest after a sign. -/
def unsigned : List Char → List Char
  | '-' :: cs => cs
  | '+' :: cs => cs
  | cs => cs

/-- Digits with at most one point among them, and at least one digit. -/
def isDecimal (cs : List Char) : Bool :=
  let whole := cs.takeWhile Char.isDigit
  match cs.dropWhile Char.isDigit with
  | [] => !whole.isEmpty
  | '.' :: fraction => fraction.all Char.isDigit && !(whole ++ fraction).isEmpty
  | _ => false

def isExponent : List Char → Bool
  | 'e' :: cs | 'E' :: cs => !(unsigned cs).isEmpty && (unsigned cs).all Char.isDigit
  | cs => cs.isEmpty

/-- A decimal numeral, with a sign and an exponent where it has them. -/
def isNumeral (s : String) : Bool :=
  let cs := unsigned s.toList
  let inMantissa : Char → Bool := fun c => c ≠ 'e' && c ≠ 'E'
  isDecimal (cs.takeWhile inMantissa) && isExponent (cs.dropWhile inMantissa)

example : isNumeral "1650000000" = true ∧ isNumeral "-1.5e+15" = true ∧ isNumeral "0 OR 1" = false ∧
    isNumeral "inf" = false ∧ isNumeral "0x10" = false ∧ isNumeral "" = false := by decide

/-- The end of a C string or of a statement. -/
def isEnd (c : Char) : Bool := c = '\x00' || c = ';'

/-- Neither a space nor an end. -/
def Tight (cs : List Char) : Prop := ∀ c ∈ cs, c ≠ ' ' ∧ isEnd c = false

theorem tight_cons {c : Char} {cs : List Char} :
    Tight (c :: cs) ↔ (c ≠ ' ' ∧ isEnd c = false) ∧ Tight cs :=
  List.forall_mem_cons

theorem Tight.append {cs cs' : List Char} (h : Tight cs) (h' : Tight cs') : Tight (cs ++ cs') := by
  intro c hc
  exact (List.mem_append.mp hc).elim (h c) (h' c)

theorem tight_of_isDigit {cs : List Char} (h : cs.all Char.isDigit = true) : Tight cs := by
  intro c hc
  have hdigit := List.all_eq_true.mp h c hc
  constructor
  · rintro rfl
    cases hdigit
  · simp only [isEnd, Bool.or_eq_false_iff, decide_eq_false_iff_not]
    constructor
    · rintro rfl
      cases hdigit
    · rintro rfl
      cases hdigit

theorem tight_of_unsigned {cs : List Char} (h : Tight (unsigned cs)) : Tight cs := by
  unfold unsigned at h
  split at h
  · exact tight_cons.mpr ⟨by decide, h⟩
  · exact tight_cons.mpr ⟨by decide, h⟩
  · exact h

theorem tight_of_isDecimal {cs : List Char} (h : isDecimal cs = true) : Tight cs := by
  rw [← List.takeWhile_append_dropWhile (p := Char.isDigit) (l := cs)]
  apply Tight.append
  · exact tight_of_isDigit (List.all_eq_true.mpr fun c hc => List.mem_takeWhile_imp hc)
  · simp only [isDecimal] at h
    split at h
    · rename_i heq
      rw [heq]
      nofun
    · rename_i fraction heq
      rw [heq]
      simp only [Bool.and_eq_true] at h
      exact tight_cons.mpr ⟨by decide, tight_of_isDigit h.1⟩
    · cases h

theorem tight_of_isExponent {cs : List Char} (h : isExponent cs = true) : Tight cs := by
  unfold isExponent at h
  split at h
  · simp only [Bool.and_eq_true] at h
    exact tight_cons.mpr ⟨by decide, tight_of_unsigned (tight_of_isDigit h.2)⟩
  · simp only [Bool.and_eq_true] at h
    exact tight_cons.mpr ⟨by decide, tight_of_unsigned (tight_of_isDigit h.2)⟩
  · rw [List.isEmpty_iff.mp h]
    nofun

theorem tight_of_isNumeral {s : String} (h : isNumeral s = true) : Tight s.toList := by
  simp only [isNumeral, Bool.and_eq_true] at h
  apply tight_of_unsigned
  rw [← List.takeWhile_append_dropWhile (p := fun c => c ≠ 'e' && c ≠ 'E')
    (l := unsigned s.toList)]
  exact (tight_of_isDecimal h.1).append (tight_of_isExponent h.2)

/-! ## Texts -/

/-- The text of the query for decimal numerals. -/
def OwnText (text : String) : Prop :=
  ∃ a b, isNumeral a = true ∧ isNumeral b = true ∧ text = selectText ++ (a ++ (boundText ++ b))

/-- The text before the first NUL or semicolon. -/
def upToEnd (s : String) : String := String.ofList (s.toList.takeWhile fun c => !isEnd c)

/-- Two texts that make the query for decimal numerals when they are pasted into it. SQLite reads
up to a NUL and compiles one statement, so the first of them may bring the rest of the query with
it. -/
def OwnParts (a b : String) : Prop :=
  (isNumeral a = true ∧ isNumeral (upToEnd b) = true) ∨
    ((∃ c ∈ a.toList, isEnd c = true) ∧ ∃ a' b', isNumeral a' = true ∧ isNumeral b' = true ∧
      upToEnd a = a' ++ (boundText ++ b'))

theorem toList_upToEnd (s : String) :
    (upToEnd s).toList = s.toList.takeWhile fun c => !isEnd c := by
  simp [upToEnd]

theorem upToEnd_append_of_forall {s : String} (t : String) (h : ∀ c ∈ s.toList, isEnd c = false) :
    upToEnd (s ++ t) = s ++ upToEnd t := by
  apply String.toList_inj.mp
  rw [toList_upToEnd, String.toList_append, String.toList_append, toList_upToEnd,
    List.takeWhile_append_of_pos]
  intro c hc
  rw [h c hc]
  rfl

theorem upToEnd_append_of_mem {s : String} (t : String) {c : Char} (hc : c ∈ s.toList)
    (hend : isEnd c = true) : upToEnd (s ++ t) = upToEnd s := by
  apply String.toList_inj.mp
  rw [toList_upToEnd, String.toList_append, toList_upToEnd, List.takeWhile_append, if_neg]
  intro hlength
  -- otherwise no character of the first text would end it
  rw [← (List.takeWhile_prefix _).eq_of_length hlength] at hc
  have hnot := List.mem_takeWhile_imp hc
  rw [hend] at hnot
  cases hnot

theorem count_space_of_tight {cs : List Char} (h : Tight cs) : cs.count ' ' = 0 :=
  List.count_eq_zero.mpr fun hmem => (h ' ' hmem).1 rfl

/-- The two texts can be read off the query. -/
theorem parts_of_append_eq {a b a' b' : String} (ha' : isNumeral a' = true)
    (hb' : isNumeral b' = true) (h : a ++ (boundText ++ b) = a' ++ (boundText ++ b')) :
    a = a' ∧ b = b' := by
  have hlist : a.toList ++ (boundText.toList ++ b.toList) =
      a'.toList ++ (boundText.toList ++ b'.toList) := by
    simpa only [String.toList_append] using congrArg String.toList h
  have htight' := tight_of_isNumeral ha'
  -- all the spaces are those of the text between
  have hspaces : a.toList.count ' ' = 0 := by
    have hcount := congrArg (List.count ' ') hlist
    simp only [List.count_append, count_space_of_tight htight',
      count_space_of_tight (tight_of_isNumeral hb')] at hcount
    omega
  have hfirst : ∀ s t : String, s.toList.count ' ' = 0 →
      (s.toList ++ (boundText.toList ++ t.toList)).takeWhile (fun c => c ≠ ' ') = s.toList := by
    intro s t hs
    rw [List.takeWhile_append_of_pos]
    · exact List.append_nil _
    · intro c hc
      have hne : c ≠ ' ' := by
        rintro rfl
        exact List.count_eq_zero.mp hs hc
      simpa using hne
  have heq : a = a' := by
    apply String.toList_inj.mp
    rw [← hfirst a b hspaces, hlist, hfirst a' b' (count_space_of_tight htight')]
  subst heq
  refine ⟨rfl, String.toList_inj.mp ?_⟩
  exact List.append_cancel_left (List.append_cancel_left hlist)

theorem isEnd_selectText : ∀ c ∈ selectText.toList, isEnd c = false := by
  have hall : selectText.toList.all (fun c => !isEnd c) = true := by decide
  simpa using hall

theorem isEnd_boundText : ∀ c ∈ boundText.toList, isEnd c = false := by
  have hall : boundText.toList.all (fun c => !isEnd c) = true := by decide
  simpa using hall

theorem ownText_upToEnd_iff {a b : String} :
    OwnText (upToEnd (selectText ++ (a ++ (boundText ++ b)))) ↔ OwnParts a b := by
  rw [upToEnd_append_of_forall _ isEnd_selectText]
  by_cases hends : ∃ c ∈ a.toList, isEnd c = true
  · obtain ⟨c, hc, hend⟩ := hends
    rw [upToEnd_append_of_mem _ hc hend]
    constructor
    · rintro ⟨a', b', ha', hb', heq⟩
      exact Or.inr ⟨⟨c, hc, hend⟩, a', b', ha', hb', (String.append_right_inj selectText).mp heq⟩
    · rintro (⟨ha, -⟩ | ⟨-, a', b', ha', hb', heq⟩)
      · rw [((tight_of_isNumeral ha) c hc).2] at hend
        cases hend
      · exact ⟨a', b', ha', hb', by rw [heq]⟩
  · have hnone : ∀ c ∈ a.toList, isEnd c = false := by
      intro c hc
      rw [← Bool.not_eq_true]
      exact fun hend => hends ⟨c, hc, hend⟩
    rw [upToEnd_append_of_forall _ hnone, upToEnd_append_of_forall _ isEnd_boundText]
    constructor
    · rintro ⟨a', b', ha', hb', heq⟩
      obtain ⟨rfl, rfl⟩ := parts_of_append_eq ha' hb' ((String.append_right_inj selectText).mp heq)
      exact Or.inl ⟨ha', hb'⟩
    · rintro (⟨ha, hb⟩ | ⟨hmem, -⟩)
      · exact ⟨a, upToEnd b, ha, hb, rfl⟩
      · exact absurd hmem hends

/-! ## The first statement -/

/-- Letters, digits, commas, comparisons and parentheses. -/
def isWord (s : String) : Bool := s.toList.all fun c => c.isAlphanum || c ∈ "(),<=>".toList

/-- A `SELECT` of words and numerals: without quotation marks, comments and parameters. -/
def IsPlainSelect (s : String) : Prop :=
  ∃ words : List String, s = words.foldl (fun s w => s ++ (" " ++ w)) "SELECT" ∧
    ∀ w ∈ words, (isWord w || isNumeral w) = true

/-- What is relied on of `sqlite3_prepare_v2`: it compiles the first statement of a text. -/
structure FirstStatement (prepare : String → Option String) : Prop where
  /-- A statement ends with the text or before a semicolon. -/
  ends : ∀ {text s}, prepare text = some s → ∃ rest, text = s ++ rest ∧
    (rest = "" ∨ ∃ more, rest = ";" ++ more)
  /-- A semicolon ends a plain `SELECT`. -/
  select : ∀ {s more s'}, IsPlainSelect s → prepare (s ++ (";" ++ more)) = some s' → s' = s

theorem isPlainSelect_of_ownText {text : String} (h : OwnText text) : IsPlainSelect text := by
  obtain ⟨a, b, ha, hb, rfl⟩ := h
  refine ⟨["MIN(LedgerSeq),", "MAX(LedgerSeq)", "FROM", "Ledgers", "WHERE", "ClosingTime", ">=", a,
    "AND", "ClosingTime", "<", b], ?_, ?_⟩
  · have hselect : selectText = "SELECT MIN(LedgerSeq), MAX(LedgerSeq) FROM Ledgers WHERE" ++
        (" " ++ ("ClosingTime" ++ (" " ++ (">=" ++ " ")))) := rfl
    have hbound : boundText = " " ++ ("AND" ++ (" " ++ ("ClosingTime" ++ (" " ++ ("<" ++ " "))))) :=
      rfl
    simp only [hselect, hbound, List.foldl, String.append_assoc]
    rfl
  · simp [ha, hb]
    decide

theorem not_mem_of_isWord {w : String} (h : (isWord w || isNumeral w) = true) :
    ';' ∉ w.toList := by
  intro hmem
  rcases Bool.or_eq_true_iff.mp h with hword | hnumeral
  · have hc := List.all_eq_true.mp hword _ hmem
    revert hc
    decide
  · cases (tight_of_isNumeral hnumeral _ hmem).2

theorem not_mem_of_isPlainSelect {text : String} (h : IsPlainSelect text) : ';' ∉ text.toList := by
  obtain ⟨words, rfl, hwords⟩ := h
  suffices hinit : ∀ init : String, ';' ∉ init.toList →
      ';' ∉ (words.foldl (fun s w => s ++ (" " ++ w)) init).toList from hinit "SELECT" (by decide)
  induction words with
  | nil => exact fun init hinit => hinit
  | cons w words ih =>
    intro init hinit
    obtain ⟨hw, hwords⟩ := List.forall_mem_cons.mp hwords
    apply ih hwords
    simp [hinit, not_mem_of_isWord hw]

theorem not_mem_of_ownText {text : String} (h : OwnText text) : ';' ∉ text.toList :=
  not_mem_of_isPlainSelect (isPlainSelect_of_ownText h)

/-- The text before the first semicolon. -/
def upToSemicolon (s : String) : String := String.ofList (s.toList.takeWhile fun c => c ≠ ';')

theorem upToEnd_eq (s : String) : upToEnd s = upToSemicolon (cString s) := by
  apply String.toList_inj.mp
  simp [upToEnd, upToSemicolon, cString, isEnd, List.takeWhile_takeWhile, and_comm]

theorem exists_eq_upToSemicolon (s : String) : ∃ rest, s = upToSemicolon s ++ rest ∧
    (rest = "" ∨ ∃ more, rest = ";" ++ more) := by
  refine ⟨String.ofList (s.toList.dropWhile fun c => c ≠ ';'), ?_, ?_⟩
  · apply String.toList_inj.mp
    simp [upToSemicolon]
  · cases hdrop : s.toList.dropWhile fun c => c ≠ ';' with
    | nil => exact Or.inl rfl
    | cons c cs =>
      have hhead := List.head?_dropWhile_not (fun c => decide (c ≠ ';')) s.toList
      rw [hdrop] at hhead
      obtain rfl : c = ';' := by simpa using hhead
      exact Or.inr ⟨String.ofList cs, String.ofList_cons⟩

theorem upToSemicolon_append {s rest : String} (h : ';' ∉ s.toList)
    (hrest : rest = "" ∨ ∃ more, rest = ";" ++ more) : upToSemicolon (s ++ rest) = s := by
  apply String.toList_inj.mp
  have hs : ∀ c ∈ s.toList, decide (c ≠ ';') = true := by
    intro c hc
    exact decide_eq_true (ne_of_mem_of_not_mem hc h)
  rw [upToSemicolon, String.toList_ofList, String.toList_append, List.takeWhile_append_of_pos hs]
  obtain rfl | ⟨more, rfl⟩ := hrest <;> simp

/-- Of the texts that SQLite compiles, those whose first statement is the query for numerals. -/
theorem FirstStatement.ownText_iff {prepare : String → Option String} (h : FirstStatement prepare)
    {text s : String} (hs : prepare (cString text) = some s) :
    OwnText s ↔ OwnText (upToEnd text) := by
  obtain ⟨rest, htext, hrest⟩ := h.ends hs
  constructor
  · intro hown
    rwa [upToEnd_eq, htext, upToSemicolon_append (not_mem_of_ownText hown) hrest]
  · intro hown
    obtain ⟨rest', htext', hrest'⟩ := exists_eq_upToSemicolon (cString text)
    rw [← upToEnd_eq] at htext'
    obtain rfl | ⟨more, rfl⟩ := hrest'
    · -- without a semicolon the statement is the whole text
      rw [String.append_empty] at htext'
      have hmem : ';' ∉ (s ++ rest).toList := by
        rw [← htext, htext']
        exact not_mem_of_ownText hown
      rw [String.toList_append, List.mem_append, not_or] at hmem
      rwa [← upToSemicolon_append hmem.1 hrest, ← htext, ← upToEnd_eq]
    · rw [htext'] at hs
      rwa [h.select (isPlainSelect_of_ownText hown) hs]

/-! ## Executed statements -/

variable {N : Type} [LuaNumber N]

section Executed

variable (prepare : String → Option String)

/-- The statement that the call compiles. The loop over its rows steps it at once. -/
def Called.executed (c : Called N) : Option String :=
  match c.callee, c.answer with
  | .builtin .dbRows, some _ => statement prepare c.args
  | _, _ => none

def executed (es : List (Called N)) : List String := es.filterMap (Called.executed prepare)

/-- An error without a statement, or one statement: the query for decimal numerals. -/
def OwnQuery (es : List (Called N)) (o : Ending N) : Prop :=
  (o = .raised ∧ executed prepare es = []) ∨ ∃ text, OwnText text ∧ executed prepare es = [text]

end Executed

variable {prepare : String → Option String}

@[simp] theorem executed_nil : executed prepare ([] : List (Called N)) = [] := rfl

@[simp] theorem executed_append (es es' : List (Called N)) :
    executed prepare (es ++ es') = executed prepare es ++ executed prepare es' :=
  List.filterMap_append

@[simp] theorem executed_opening (a : Answer N) (es : List (Called N)) :
    executed prepare (opening a :: es) = executed prepare es := rfl

@[simp] theorem executed_rowsCall_none (i : Nat) (sql : Value N) (es : List (Called N)) :
    executed prepare (rowsCall i sql none :: es) = executed prepare es := rfl

theorem executed_rowsCall_some {i : Nat} {sql : Value N} {text : String} (a : Answer N)
    (es : List (Called N)) (h : statement prepare [.userdata .db i, sql] = some text) :
    executed prepare (rowsCall i sql (some a) :: es) = text :: executed prepare es :=
  List.filterMap_cons_some h

theorem executed_eq_nil {es : List (Called N)} (h : ∀ c ∈ es, c.callee ≠ .builtin .dbRows) :
    executed prepare es = [] := by
  apply List.filterMap_eq_nil_iff.mpr
  rintro ⟨f, args, a⟩ hc
  have hf : f ≠ .builtin .dbRows := h _ hc
  unfold Called.executed
  dsimp only
  split
  · exact absurd rfl hf
  · rfl

theorem Foreign.executed {es : List (Called N)} (h : Foreign es) : executed prepare es = [] := by
  apply executed_eq_nil
  intro c hc heq
  have hc' := h c hc
  rw [heq] at hc'
  cases hc'

theorem Stepped.executed {es : List (Called N)} (h : Stepped es) : executed prepare es = [] := by
  apply executed_eq_nil
  intro c hc heq
  rw [(h c hc).1] at heq
  cases heq

/-! ## The arguments -/

section Raw

variable {etime a b : Value N} {time : N} {s t : String}

theorem raw_add (h : etime.toNum? = some time) :
    Binary.add.raw etime (.num (LuaNumber.ofNat 1)) =
      some (.num (LuaNumber.add time (LuaNumber.ofNat 1))) := by
  simp only [Binary.raw, h]
  rfl

theorem raw_add_eq_none (h : etime.toNum? = none) : Binary.add.raw etime b = none := by
  simp [Binary.raw, h]

theorem raw_concat (ha : a.toStr? = some s) (hb : b.toStr? = some t) :
    Binary.concat.raw a b = some (.str (s ++ t)) := by
  simp [Binary.raw, ha, hb]

theorem raw_concat_table (a : Value N) (r : Ref) : Binary.concat.raw a (.table r) = none := by
  simp [Binary.raw, Value.toStr?]

theorem raw_concat_eq_none (h : a.toStr? = none) : Binary.concat.raw a b = none := by
  simp [Binary.raw, h]

end Raw

variable [DecidableEq N]

/-- The operator, where it needs a metamethod, has one to call. -/
def handled (heap : Heap N) (op : Binary) (a b : Value N) : Bool :=
  (callee heap (binaryHandler heap op a b) [a, b]).isSome

/-- No metamethod is called, and the pasted texts make the query for decimal numerals, or a text
that SQLite does not compile. -/
def PlainArgs (prepare : String → Option String) (heap : Heap N) (stime etime : Value N) : Prop :=
  match etime.toNum? with
  | none => handled heap .add etime (.num (LuaNumber.ofNat 1)) = false
  | some time =>
    let b := LuaNumber.toStr (LuaNumber.add time (LuaNumber.ofNat 1))
    match stime.toStr? with
    | none => handled heap .concat stime (.str (boundText ++ b)) = false
    | some a =>
      OwnParts a b ∨ prepare (cString (selectText ++ (a ++ (boundText ++ b)))) = none

/-- After this answer of `sqlite.open`, whatever else the functions it calls return. -/
def RunsOwnQuery (prepare : String → Option String) (heap : Heap N) (stime etime : Value N)
    (vs : List (Value N)) : Prop :=
  ∀ es o, Activation prepare heap (getledgerseq stime etime) (opening ⟨vs, heap⟩ :: es) o →
    OwnQuery prepare (opening ⟨vs, heap⟩ :: es) o

section Span

variable {heap : Heap N} {stime etime : Value N} {db : Value N} {time : N}

theorem advance_not_handled {op : Binary} {a b : Value N} (next : Value N → Prog N)
    (hraw : op.raw a b = none) (h : handled heap op a b = false) :
    advance heap (.binary op a b next) = .raised := by
  rw [advance_handler heap next hraw]
  simp only [handled, Option.isSome_eq_false_iff, Option.isNone_iff_eq_none] at h
  simp only [dispatch, h]

theorem advance_bound (he : etime.toNum? = some time) :
    advance heap (searchSpan db stime etime) = advance heap (pasteStart db stime
      (.str (boundText ++ LuaNumber.toStr (LuaNumber.add time (LuaNumber.ofNat 1))))) := by
  unfold searchSpan
  rw [advance_binary (raw_add he)]
  unfold pasteBound
  rw [advance_binary (raw_concat rfl rfl)]

theorem advance_text {a : String} (he : etime.toNum? = some time) (hs : stime.toStr? = some a) :
    advance heap (searchSpan db stime etime) = advance heap (fetch db (.str (selectText ++ (a ++
      (boundText ++ LuaNumber.toStr (LuaNumber.add time (LuaNumber.ofNat 1))))))) := by
  rw [advance_bound he]
  unfold pasteStart
  rw [advance_binary (raw_concat hs rfl)]
  unfold pasteSelect
  rw [advance_binary (raw_concat rfl rfl)]

end Span

namespace Sealed

variable {prepare : String → Option String} {heap : Heap N} {stime etime : Value N}
  {es : List (Called N)} {o : Ending N} {i : Nat}

/-! ## Plain arguments -/

/-- Of a text, `db:rows` executes what SQLite compiles. -/
theorem executed_fetch (hsealed : Sealed heap) {text : String}
    (h : Activation prepare heap (fetch (.userdata .db i) (.str text)) es o) :
    (o = .raised ∧ executed prepare es = []) ∨
      ∃ s, prepare (cString text) = some s ∧ executed prepare es = [s] := by
  rcases h.fetch hsealed with ⟨-, rfl, ho⟩ | ⟨a, turns, rest, hcompiled, rfl, hturns, hend⟩
  · exact Or.inl ⟨ho, rfl⟩
  · have hrest : executed prepare rest = [] := by
      rcases hend with ⟨-, args, rfl⟩ | ⟨vs, a', -, rfl⟩ <;> rfl
    obtain ⟨s, hs⟩ := Option.isSome_iff_exists.mp hcompiled
    refine Or.inr ⟨s, hs, ?_⟩
    rw [executed_rowsCall_some a _ hs, executed_append, hturns.executed, hrest, List.nil_append]

theorem ownQuery_of_plainArgs (hsealed : Sealed heap) (hfirst : FirstStatement prepare)
    (hplain : PlainArgs prepare heap stime etime)
    (h : Activation prepare heap (searchSpan (.userdata .db i) stime etime) es o) :
    OwnQuery prepare es o := by
  unfold PlainArgs at hplain
  split at hplain
  · rename_i he
    obtain ⟨rfl, rfl⟩ := h.of_raised (advance_not_handled _ (raw_add_eq_none he) hplain)
    exact Or.inl ⟨rfl, rfl⟩
  · rename_i time he
    dsimp only at hplain
    split at hplain
    · rename_i hs
      have hraised := advance_not_handled (pasteSelect (.userdata .db i))
        (raw_concat_eq_none hs) hplain
      obtain ⟨rfl, rfl⟩ := h.of_raised ((advance_bound he).trans hraised)
      exact Or.inl ⟨rfl, rfl⟩
    · rename_i a hs
      rcases hsealed.executed_fetch (h.congr (advance_text he hs)) with
        hraised | ⟨text, hcompiled, hes⟩
      · exact Or.inl hraised
      · rw [hcompiled] at hplain
        have hparts := hplain.resolve_right nofun
        exact Or.inr ⟨text, (hfirst.ownText_iff hcompiled).mpr (ownText_upToEnd_iff.mpr hparts), hes⟩

/-! ## Other arguments -/

theorem activation_of_handle (hsealed : Sealed heap)
    (h : Activation prepare heap (searchSpan (.userdata .db i) stime etime) es o) :
    Activation prepare heap (getledgerseq stime etime)
      (opening ⟨[.userdata .db i], heap⟩ :: es) o :=
  .answered (advance_getledgerseq hsealed stime etime) ⟨rfl, rfl⟩ h

/-- A text that SQLite compiles can be executed, and the first step can fail. -/
theorem exists_executed (hsealed : Sealed heap) {text s : String}
    (hcompiled : prepare (cString text) = some s) :
    ∃ es, executed prepare es = [s] ∧
      Activation prepare heap (fetch (.userdata .db i) (.str text)) es .raised := by
  have hs : statement prepare [(.userdata .db i : Value N), .str text] = some s := hcompiled
  refine ⟨[rowsCall i (.str text)
    (some ⟨[.func (.builtin .dbNextPackedRow), .userdata .vm 0], heap⟩), _],
    executed_rowsCall_some _ _ hs,
    .answered (advance_fetch hsealed _) ⟨rfl, ?_, rfl⟩ (.fails rfl trivial)⟩
  exact Option.isSome_of_eq_some hs

theorem not_runsOwnQuery {text : String} (hsealed : Sealed heap) (htext : ¬ OwnText text)
    (hes : executed prepare es = [text])
    (h : Activation prepare heap (searchSpan (.userdata .db i) stime etime) es o) :
    ¬ RunsOwnQuery prepare heap stime etime [.userdata .db i] := by
  intro hruns
  rcases hruns _ _ (hsealed.activation_of_handle h) with ⟨-, hnone⟩ | ⟨text', hown, hsome⟩
  · rw [executed_opening, hes] at hnone
    cases hnone
  · rw [executed_opening, hes] at hsome
    cases hsome
    exact htext hown

end Sealed

/-- A condition that a metamethod may paste in the place of both times. -/
def otherText : String := "0 OR 1"

theorem cString_otherText : cString (selectText ++ otherText) = selectText ++ otherText := by decide

theorem not_ownText_otherText : ¬ OwnText (selectText ++ otherText) := by
  rintro ⟨a, b, -, -, heq⟩
  rw [String.append_right_inj] at heq
  -- the text is shorter than what stands between the times
  have hlength := congrArg (fun s : String => s.toList.length) heq
  have hbound : boundText.toList.length = 19 := rfl
  have hother : otherText.toList.length = 6 := rfl
  simp only [String.toList_append, List.length_append, hbound, hother] at hlength
  omega

omit [LuaNumber N] [DecidableEq N] in
theorem ofSqlite_of_clear {v : Value N} (h : unshared.clear v = true) : v.ofSqlite = false := by
  simpa [unshared, Policy.clear] using (Bool.and_eq_true_iff.mp h).2

/-- Tables whose `__concat` is a function of the contract, except those of `sqlite3`. -/
def concatHeap : Heap N := fun r =>
  if (.table r : Value N).ofSqlite then opened r
  else ⟨[(.str "__concat", .func (.closure 0))], some (.new 0)⟩

omit [DecidableEq N] in
theorem concatHeap_of_clear {r : Ref} (h : unshared.clear (.table r : Value N) = true) :
    (concatHeap : Heap N) r = ⟨[(.str "__concat", .func (.closure 0))], some (.new 0)⟩ := by
  simp [concatHeap, ofSqlite_of_clear h]

omit [DecidableEq N] in
theorem sealed_concatHeap : Sealed (concatHeap : Heap N) where
  clear := by
    intro r hr
    rw [concatHeap_of_clear hr]
    exact ClearTable.of_all rfl rfl
  fixed := by
    intro r hr
    simp [concatHeap, hr]

/-- Every value of the contract is concatenated with such a table by its `__concat`. -/
theorem callee_concatHeap {v : Value N} (hv : unshared.clear v = true) :
    callee concatHeap (binaryHandler concatHeap .concat v (.table (.new 0)))
      [v, .table (.new 0)] = some (.closure 0, [v, .table (.new 0)]) := by
  have hnew : metamethod concatHeap (.table (.new 0) : Value N) "__concat" =
      .func (.closure 0) := by
    simp [metamethod, metatableOf, concatHeap_of_clear, Table.rawget]
  have hmeta : metamethod concatHeap v "__concat" = .nil ∨
      metamethod concatHeap v "__concat" = .func (.closure 0) := by
    cases v with
    | table r =>
      right
      simp [metamethod, metatableOf, concatHeap_of_clear hv, concatHeap_of_clear, Table.rawget]
    | str s =>
      right
      rfl
    | userdata kind id => cases kind <;> cases hv
    | nil | bool | num | func | thread => exact Or.inl rfl
  have hhandler : binaryHandler concatHeap .concat v (.table (.new 0)) = .func (.closure 0) := by
    rcases hmeta with hnil | hclosure
    · simp [binaryHandler, Binary.event, hnil, hnew]
    · simp [binaryHandler, Binary.event, hclosure]
  rw [hhandler]
  rfl

namespace Sealed

variable {prepare : String → Option String} {heap : Heap N} {stime etime : Value N}
  {es : List (Called N)} {o : Ending N} {i : Nat}

/-- A function of the contract is called for `etime + 1`: it returns a table, and the `__concat` of
this table returns the text. -/
theorem exists_executed_of_add (hsealed : Sealed heap) (hs : unshared.clear stime = true)
    (he : unshared.clear etime = true)
    (hother : prepare (selectText ++ otherText) = some (selectText ++ otherText))
    (hnum : etime.toNum? = none)
    (hhandled : handled heap .add etime (.num (LuaNumber.ofNat 1)) = true) :
    ∃ es, executed prepare es = [selectText ++ otherText] ∧
      Activation prepare heap (searchSpan (.userdata .db i) stime etime) es .raised := by
  obtain ⟨⟨g, args⟩, hcallee⟩ := Option.isSome_iff_exists.mp hhandled
  have hc := sealed_concatHeap (N := N)
  have htable : unshared.AllClear [(.table (.new 0) : Value N)] := by simp
  have htext : unshared.AllClear [(.str otherText : Value N)] := by simp
  have hcompiled : prepare (cString (selectText ++ otherText)) =
      some (selectText ++ otherText) := by rwa [cString_otherText]
  obtain ⟨es, hes, h⟩ := hc.exists_executed (i := i) hcompiled
  have h₄ := h.congr (q := pasteSelect (.userdata .db i) (.str otherText))
    (advance_binary (raw_concat rfl rfl)).symm
  obtain ⟨before₃, hbefore₃, h₃⟩ := Activation.of_handler (pasteSelect _) hc hs
    (clear_new 0) (raw_concat_table stime _) (callee_concatHeap hs) htext hc h₄
  obtain ⟨before₂, hbefore₂, h₂⟩ := Activation.of_handler (pasteStart _ stime) hc
    (clear_str boundText) (clear_new 0) (raw_concat_table _ _) (callee_concatHeap (clear_str _))
    htable hc h₃
  obtain ⟨before₁, hbefore₁, h₁⟩ := Activation.of_handler (pasteBound _ stime) hsealed he
    (clear_num _) (raw_add_eq_none hnum) hcallee htable hc h₂
  refine ⟨_, ?_, h₁⟩
  simp [hbefore₁.executed, hbefore₂.executed, hbefore₃.executed, hes]

/-- A function of the contract is called for the concatenation with `stime`: it returns the
text. -/
theorem exists_executed_of_concat (hsealed : Sealed heap) (hs : unshared.clear stime = true)
    (hother : prepare (selectText ++ otherText) = some (selectText ++ otherText)) {time : N}
    (hnum : etime.toNum? = some time) (hstr : stime.toStr? = none)
    (hhandled : handled heap .concat stime (.str (boundText ++
      LuaNumber.toStr (LuaNumber.add time (LuaNumber.ofNat 1)))) = true) :
    ∃ es, executed prepare es = [selectText ++ otherText] ∧
      Activation prepare heap (searchSpan (.userdata .db i) stime etime) es .raised := by
  obtain ⟨⟨g, args⟩, hcallee⟩ := Option.isSome_iff_exists.mp hhandled
  have htext : unshared.AllClear [(.str otherText : Value N)] := by simp
  have hcompiled : prepare (cString (selectText ++ otherText)) =
      some (selectText ++ otherText) := by rwa [cString_otherText]
  obtain ⟨es, hes, h⟩ := hsealed.exists_executed (i := i) hcompiled
  have h₂ := h.congr (q := pasteSelect (.userdata .db i) (.str otherText))
    (advance_binary (raw_concat rfl rfl)).symm
  obtain ⟨before, hbefore, h₁⟩ := Activation.of_handler (pasteSelect _) hsealed hs
    (clear_str _) (raw_concat_eq_none hstr) hcallee htext hsealed h₂
  refine ⟨_, ?_, h₁.congr (advance_bound hnum).symm⟩
  simp [hbefore.executed, hes]

theorem plainArgs_of_runsOwnQuery (hsealed : Sealed heap) (hs : unshared.clear stime = true)
    (he : unshared.clear etime = true) (hfirst : FirstStatement prepare)
    (hother : prepare (selectText ++ otherText) = some (selectText ++ otherText))
    (h : RunsOwnQuery prepare heap stime etime [.userdata .db i]) :
    PlainArgs prepare heap stime etime := by
  unfold PlainArgs
  split
  · rename_i hnum
    by_contra hhandled
    obtain ⟨es, hes, hact⟩ := hsealed.exists_executed_of_add (i := i) hs he hother hnum
      (Bool.not_eq_false _ ▸ hhandled)
    exact hsealed.not_runsOwnQuery not_ownText_otherText hes hact h
  · rename_i time hnum
    dsimp only
    split
    · rename_i hstr
      by_contra hhandled
      obtain ⟨es, hes, hact⟩ := hsealed.exists_executed_of_concat (i := i) hs hother hnum hstr
        (Bool.not_eq_false _ ▸ hhandled)
      exact hsealed.not_runsOwnQuery not_ownText_otherText hes hact h
    · rename_i a hstr
      by_contra hplain
      rw [not_or] at hplain
      obtain ⟨text, hcompiled⟩ := Option.ne_none_iff_exists'.mp hplain.2
      obtain ⟨es, hes, hact⟩ := hsealed.exists_executed (i := i) hcompiled
      have htext : ¬ OwnText text := by
        rw [hfirst.ownText_iff hcompiled, ownText_upToEnd_iff]
        exact hplain.1
      exact hsealed.not_runsOwnQuery htext hes (hact.congr (advance_text hnum hstr).symm) h

/-! ## The answers of open -/

/-- Where the database opens, and its handle is used for a query with plain arguments. -/
theorem runsOwnQuery_iff (hsealed : Sealed heap) (hs : unshared.clear stime = true)
    (he : unshared.clear etime = true) (hfirst : FirstStatement prepare)
    (hother : prepare (selectText ++ otherText) = some (selectText ++ otherText))
    {vs : List (Value N)} (hopen : sqliteReturns .sqliteOpen openArgs vs = true) :
    RunsOwnQuery prepare heap stime etime vs ↔
      (∃ i, vs = [.userdata .db i]) ∧ PlainArgs prepare heap stime etime := by
  constructor
  · intro h
    rcases handle_of_sqliteReturns hopen with ⟨i, rfl⟩ | hnil
    · exact ⟨⟨i, rfl⟩, hsealed.plainArgs_of_runsOwnQuery hs he hfirst hother h⟩
    · -- the function returns nil without a statement
      have hact : Activation prepare heap (getledgerseq stime etime) [opening ⟨vs, heap⟩]
          (.returned [.nil]) :=
        .answered (advance_getledgerseq hsealed stime etime) ⟨hopen, rfl⟩
          (.returned (advance_of_first_eq_nil hnil _))
      rcases h _ _ hact with ⟨hraised, -⟩ | ⟨text, -, hsome⟩
      · cases hraised
      · cases hsome
  · rintro ⟨⟨i, rfl⟩, hplain⟩ es o h
    obtain ⟨vs, rest, heq, hopened⟩ := h.getledgerseq hsealed
    cases heq
    rcases hopened with ⟨hnil, -, -⟩ | ⟨j, heq, hspan⟩
    · cases hnil
    · cases heq
      simpa only [OwnQuery, executed_opening] using
        hsealed.ownQuery_of_plainArgs hfirst hplain hspan

end Sealed

/-! ## In a run -/

/-- SQLite for texts in which every statement is a plain query that compiles. -/
def prepareQuery (text : String) : Option String := some (upToSemicolon text)

theorem firstStatement_prepareQuery : FirstStatement prepareQuery where
  ends := by
    rintro text _ ⟨⟩
    exact exists_eq_upToSemicolon text
  select := by
    rintro s more _ hs ⟨⟩
    exact upToSemicolon_append (not_mem_of_isPlainSelect hs) (Or.inr ⟨more, rfl⟩)

end Metcalfe.Lua
