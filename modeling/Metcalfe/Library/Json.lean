import Metcalfe.Library.BigEndian
import Mathlib.Data.List.TakeWhile
import Mathlib.Data.Nat.Digits.Defs
import Mathlib.Tactic

/-!
# JSON texts

A strict reader of the JSON grammar (objects, arrays, strings with their escapes, numbers, the
three literals, and white space between tokens) on the bytes of a text. A byte from 128 on belongs
to an encoded character and is not looked into. Numbers and strings are kept as they are written.

The recursion has fuel; a text denotes a value if it does for some fuel (`Denotes`), and more fuel
changes nothing (`Denotes.unique`).
-/

namespace Metcalfe.Json

open BigEndian (Bytes)

inductive Value where
  | null
  | bool (b : Bool)
  | num (lexeme : Bytes)
  /-- What stands between the quotes. -/
  | str (raw : Bytes)
  | arr (items : List Value)
  | obj (members : List (Bytes × Value))

/-! ## Tokens -/

/-- Space, tab, line feed, carriage return. -/
def isSpace (c : UInt8) : Bool := c == 32 || c == 9 || c == 10 || c == 13

def skip (s : Bytes) : Bytes := s.dropWhile isSpace

def isDigit (c : UInt8) : Bool := 48 ≤ c && c ≤ 57

def isHexDigit (c : UInt8) : Bool := isDigit c || (65 ≤ c && c ≤ 70) || (97 ≤ c && c ≤ 102)

/-- The characters after a backslash other than `u`: the quote, the backslash, `/bfnrt`. -/
def isEscape (c : UInt8) : Bool := [34, 92, 47, 98, 102, 110, 114, 116].contains c

/-- A character that may stand in a string as it is: no quote, no backslash, no control
character. -/
def isPlain (c : UInt8) : Bool := 32 ≤ c && c != 34 && c != 92

/-- Where a string is: in an escape, and how many hexadecimal digits it still has. -/
inductive Escape where
  | none
  | started
  | hex (digits : Nat)
deriving DecidableEq

/-- One character of a string that does not end there. -/
def Escape.next : Escape → UInt8 → Option Escape
  | .none, c => if isPlain c then some .none else if c = 92 then some .started else Option.none
  | .started, c =>
    if isEscape c then some .none else if c = 117 then some (.hex 4) else Option.none
  | .hex digits, c =>
    if isHexDigit c then some (if digits = 1 then .none else .hex (digits - 1)) else Option.none

/-- The characters of a string up to its closing quote, and what follows it. -/
def chars (e : Escape) : Bytes → Option (Bytes × Bytes)
  | [] => none
  | c :: s =>
    if e = .none ∧ c = 34 then some ([], s)
    else (e.next c).bind fun e => (chars e s).map fun r => (c :: r.1, r.2)

/-- Digits and the characters `+-.eE`. -/
def isNumberChar (c : UInt8) : Bool := isDigit c || [43, 45, 46, 69, 101].contains c

/-- Digits without a leading zero. -/
def isInt : Bytes → Bool
  | [] => false
  | c :: s => isDigit c && s.all isDigit && (c != 48 || s.isEmpty)

/-- Nothing, or `e` or `E`, a sign or none, and digits. -/
def isExp : Bytes → Bool
  | [] => true
  | c :: s =>
    let digits := match s with
      | 43 :: s => s
      | 45 :: s => s
      | s => s
    (c == 101 || c == 69) && !digits.isEmpty && digits.all isDigit

/-- A fraction or none, and an exponent or none. -/
def isFrac : Bytes → Bool
  | 46 :: s => !(s.takeWhile isDigit).isEmpty && isExp (s.dropWhile isDigit)
  | s => isExp s

def isUnsigned (s : Bytes) : Bool := isInt (s.takeWhile isDigit) && isFrac (s.dropWhile isDigit)

def isNumber : Bytes → Bool
  | 45 :: s => isUnsigned s
  | s => isUnsigned s

/-- A number is the longest run of its characters: none of them can follow one. -/
def number (s : Bytes) : Option (Value × Bytes) :=
  let lexeme := s.takeWhile isNumberChar
  if isNumber lexeme then some (.num lexeme, s.dropWhile isNumberChar) else none

/-- `true`, `false`, `null`, or a number. -/
def scalar (s : Bytes) : Option (Value × Bytes) :=
  if [116, 114, 117, 101].isPrefixOf s then some (.bool true, s.drop 4)
  else if [102, 97, 108, 115, 101].isPrefixOf s then some (.bool false, s.drop 5)
  else if [110, 117, 108, 108].isPrefixOf s then some (.null, s.drop 4)
  else number s

/-! ## Values -/

mutual

/-- A value and what follows it. -/
def readValue : Nat → Bytes → Option (Value × Bytes)
  | 0, _ => none
  | fuel + 1, s =>
    match skip s with
    | [] => none
    | 123 :: s =>
      match skip s with
      | 125 :: s => some (.obj [], s)
      | s => (readMembers fuel s).map fun r => (.obj r.1, r.2)
    | 91 :: s =>
      match skip s with
      | 93 :: s => some (.arr [], s)
      | s => (readElements fuel s).map fun r => (.arr r.1, r.2)
    | 34 :: s => (chars .none s).map fun r => (.str r.1, r.2)
    | s => scalar s

/-- The values of an array up to its closing bracket. -/
def readElements : Nat → Bytes → Option (List Value × Bytes)
  | 0, _ => none
  | fuel + 1, s =>
    (readValue fuel s).bind fun v =>
      match skip v.2 with
      | 44 :: s => (readElements fuel s).map fun r => (v.1 :: r.1, r.2)
      | 93 :: s => some ([v.1], s)
      | _ => none

/-- The members of an object up to its closing brace. -/
def readMembers : Nat → Bytes → Option (List (Bytes × Value) × Bytes)
  | 0, _ => none
  | fuel + 1, s =>
    match skip s with
    | 34 :: s =>
      (chars .none s).bind fun k =>
        match skip k.2 with
        | 58 :: s =>
          (readValue fuel s).bind fun v =>
            match skip v.2 with
            | 44 :: s => (readMembers fuel s).map fun r => ((k.1, v.1) :: r.1, r.2)
            | 125 :: s => some ([(k.1, v.1)], s)
            | _ => none
        | _ => none
    | _ => none

end

/-- A whole text: one value with white space around it. -/
def parse (fuel : Nat) (s : Bytes) : Option Value :=
  (readValue fuel s).bind fun v => if skip v.2 = [] then some v.1 else none

/-- The text is well formed and denotes the value. -/
def Denotes (s : Bytes) (v : Value) : Prop := ∃ fuel, parse fuel s = some v

/-- `s` begins with the text of a value, and `rest` follows it. -/
def Reads (s : Bytes) (v : Value) (rest : Bytes) : Prop := ∃ fuel, readValue fuel s = some (v, rest)

def ReadsElements (s : Bytes) (vs : List Value) (rest : Bytes) : Prop :=
  ∃ fuel, readElements fuel s = some (vs, rest)

def ReadsMembers (s : Bytes) (ms : List (Bytes × Value)) (rest : Bytes) : Prop :=
  ∃ fuel, readMembers fuel s = some (ms, rest)

/-! ## Fuel -/

theorem fuel_succ (fuel : Nat) :
    (∀ s r, readValue fuel s = some r → readValue (fuel + 1) s = some r) ∧
    (∀ s r, readElements fuel s = some r → readElements (fuel + 1) s = some r) ∧
    (∀ s r, readMembers fuel s = some r → readMembers (fuel + 1) s = some r) := by
  induction fuel with
  | zero =>
    refine ⟨fun s r h => ?_, fun s r h => ?_, fun s r h => ?_⟩
    · simp [readValue] at h
    · simp [readElements] at h
    · simp [readMembers] at h
  | succ fuel ih =>
    obtain ⟨ihv, ihe, ihm⟩ := ih
    refine ⟨fun s r h => ?_, fun s r h => ?_, fun s r h => ?_⟩
    · rw [readValue] at h ⊢
      split at h
      · cases h
      · split at h
        · simpa using h
        · obtain ⟨q, hq, rfl⟩ := Option.map_eq_some_iff.mp h
          simp only [ihm _ _ hq, Option.map_some]
      · split at h
        · simpa using h
        · obtain ⟨q, hq, rfl⟩ := Option.map_eq_some_iff.mp h
          simp only [ihe _ _ hq, Option.map_some]
      · exact h
      · exact h
    · rw [readElements] at h ⊢
      obtain ⟨v, hv, h⟩ := Option.bind_eq_some_iff.mp h
      refine Option.bind_eq_some_iff.mpr ⟨v, ihv _ _ hv, ?_⟩
      split at h
      · obtain ⟨q, hq, rfl⟩ := Option.map_eq_some_iff.mp h
        simp only [ihe _ _ hq, Option.map_some]
      · exact h
      · cases h
    · rw [readMembers] at h ⊢
      split at h
      · obtain ⟨k, hk, h⟩ := Option.bind_eq_some_iff.mp h
        refine Option.bind_eq_some_iff.mpr ⟨k, hk, ?_⟩
        split at h
        · obtain ⟨v, hv, h⟩ := Option.bind_eq_some_iff.mp h
          refine Option.bind_eq_some_iff.mpr ⟨v, ihv _ _ hv, ?_⟩
          split at h
          · obtain ⟨q, hq, rfl⟩ := Option.map_eq_some_iff.mp h
            simp only [ihm _ _ hq, Option.map_some]
          · exact h
          · cases h
        · cases h
      · cases h

section Fuel

variable {fuel fuel' : Nat} {s : Bytes}

theorem readValue_le (hle : fuel ≤ fuel') {r : Value × Bytes} (h : readValue fuel s = some r) :
    readValue fuel' s = some r := by
  induction hle with
  | refl => exact h
  | step _ ih => exact (fuel_succ _).1 s r ih

theorem readElements_le (hle : fuel ≤ fuel') {r : List Value × Bytes}
    (h : readElements fuel s = some r) : readElements fuel' s = some r := by
  induction hle with
  | refl => exact h
  | step _ ih => exact (fuel_succ _).2.1 s r ih

theorem readMembers_le (hle : fuel ≤ fuel') {r : List (Bytes × Value) × Bytes}
    (h : readMembers fuel s = some r) : readMembers fuel' s = some r := by
  induction hle with
  | refl => exact h
  | step _ ih => exact (fuel_succ _).2.2 s r ih

/-- A text begins with at most one value. -/
theorem Reads.unique {v v' : Value} {rest rest' : Bytes} (h : Reads s v rest)
    (h' : Reads s v' rest') : v = v' ∧ rest = rest' := by
  obtain ⟨fuel, h⟩ := h
  obtain ⟨fuel', h'⟩ := h'
  have heq := (readValue_le (le_max_left fuel fuel') h).symm.trans
    (readValue_le (le_max_right fuel fuel') h')
  simpa using heq

theorem denotes_iff {v : Value} : Denotes s v ↔ ∃ rest, Reads s v rest ∧ skip rest = [] := by
  constructor
  · rintro ⟨fuel, h⟩
    obtain ⟨⟨v', rest⟩, hread, hend⟩ := Option.bind_eq_some_iff.mp h
    split at hend
    · cases hend
      exact ⟨rest, ⟨fuel, hread⟩, ‹_›⟩
    · cases hend
  · rintro ⟨rest, ⟨fuel, hread⟩, hend⟩
    exact ⟨fuel, Option.bind_eq_some_iff.mpr ⟨(v, rest), hread, if_pos hend⟩⟩

theorem Denotes.unique {v v' : Value} (h : Denotes s v) (h' : Denotes s v') : v = v' := by
  obtain ⟨rest, hread, -⟩ := denotes_iff.mp h
  obtain ⟨rest', hread', -⟩ := denotes_iff.mp h'
  exact (hread.unique hread').1

end Fuel

/-! ## Rules -/

section Rules

variable {s t rest raw : Bytes} {v : Value}

theorem skip_cons {c : UInt8} (h : isSpace c = false) : skip (c :: s) = c :: s :=
  List.dropWhile_cons_of_neg (by simp [h])

theorem chars_plain (h : ∀ c ∈ raw, isPlain c = true) :
    chars .none (raw ++ 34 :: s) = some (raw, s) := by
  induction raw with
  | nil => rfl
  | cons c raw ih =>
    obtain ⟨hc, hraw⟩ := List.forall_mem_cons.mp h
    have hquote : ¬ (Escape.none = .none ∧ c = 34) := by
      rintro ⟨-, rfl⟩
      cases hc
    rw [List.cons_append, chars, if_neg hquote, Escape.next, if_pos hc, Option.bind_some, ih hraw]
    rfl

/-- No string goes on after a control character. -/
theorem chars_control (hquote : ∀ c ∈ raw, c ≠ 34 ∧ c ≠ 92)
    (h : ∃ c ∈ raw, isPlain c = false) : chars .none (raw ++ s) = none := by
  induction raw with
  | nil =>
    obtain ⟨c, hc, -⟩ := h
    exact absurd hc List.not_mem_nil
  | cons c raw ih =>
    obtain ⟨⟨hc, hback⟩, hraw⟩ := List.forall_mem_cons.mp hquote
    rw [List.cons_append, chars, if_neg fun hend => hc hend.2, Escape.next]
    by_cases hplain : isPlain c = true
    · have hrest : ∃ c ∈ raw, isPlain c = false := by
        obtain ⟨c', hmem, hc'⟩ := h
        rcases List.mem_cons.mp hmem with rfl | hmem
        · rw [hplain] at hc'
          cases hc'
        · exact ⟨c', hmem, hc'⟩
      rw [if_pos hplain, Option.bind_some, ih hraw hrest]
      rfl
    · rw [if_neg hplain, if_neg hback]
      rfl

theorem reads_string_iff : Reads (34 :: s) v rest ↔
    ∃ raw, chars .none s = some (raw, rest) ∧ v = .str raw := by
  have hread : ∀ fuel, readValue (fuel + 1) (34 :: s) =
      (chars .none s).map fun r => (.str r.1, r.2) := fun fuel => by
    rw [readValue, skip_cons rfl]
    rfl
  constructor
  · rintro ⟨fuel, h⟩
    cases fuel with
    | zero => simp [readValue] at h
    | succ fuel =>
      rw [hread] at h
      obtain ⟨⟨raw, rest'⟩, hchars, heq⟩ := Option.map_eq_some_iff.mp h
      cases heq
      exact ⟨raw, hchars, rfl⟩
  · rintro ⟨raw, hchars, rfl⟩
    exact ⟨1, by rw [hread, hchars]; rfl⟩

/-- The members of an object, the key of the first of them being known. -/
theorem readsMembers_iff {k : Bytes} {ms : List (Bytes × Value)}
    (hk : chars .none s = some (k, 58 :: t)) : ReadsMembers (34 :: s) ms rest ↔
      ∃ v s', Reads t v s' ∧
        ((∃ s'' ms', skip s' = 44 :: s'' ∧ ReadsMembers s'' ms' rest ∧ ms = (k, v) :: ms') ∨
          skip s' = 125 :: rest ∧ ms = [(k, v)]) := by
  have hread : ∀ fuel, readMembers (fuel + 1) (34 :: s) = (readValue fuel t).bind fun v =>
      match skip v.2 with
      | 44 :: s => (readMembers fuel s).map fun r => ((k, v.1) :: r.1, r.2)
      | 125 :: s => some ([(k, v.1)], s)
      | _ => none := by
    intro fuel
    have hcolon : skip (58 :: t) = 58 :: t := skip_cons rfl
    rw [readMembers, skip_cons rfl]
    simp only [hk, Option.bind_some, hcolon]
  constructor
  · rintro ⟨fuel, h⟩
    cases fuel with
    | zero => simp [readMembers] at h
    | succ fuel =>
      rw [hread] at h
      obtain ⟨⟨v, s'⟩, hv, h⟩ := Option.bind_eq_some_iff.mp h
      refine ⟨v, s', ⟨fuel, hv⟩, ?_⟩
      split at h
      · rename_i s'' hskip
        obtain ⟨⟨ms', rest'⟩, hms, heq⟩ := Option.map_eq_some_iff.mp h
        cases heq
        exact .inl ⟨s'', ms', hskip, ⟨fuel, hms⟩, rfl⟩
      · rename_i hskip
        cases h
        exact .inr ⟨hskip, rfl⟩
      · cases h
  · rintro ⟨v, s', ⟨fuel, hv⟩, ⟨s'', ms', hskip, ⟨fuel', hms⟩, rfl⟩ | ⟨hskip, rfl⟩⟩
    · refine ⟨max fuel fuel' + 1, ?_⟩
      rw [hread, readValue_le (le_max_left fuel fuel') hv, Option.bind_some]
      simp only [hskip]
      rw [readMembers_le (le_max_right fuel fuel') hms]
      rfl
    · refine ⟨fuel + 1, ?_⟩
      rw [hread, hv, Option.bind_some]
      simp only [hskip]

/-- A member with a comma after it. -/
theorem readsMembers_comma {k : Bytes} {ms : List (Bytes × Value)} {t' : Bytes}
    (hk : chars .none s = some (k, 58 :: t)) (hv : Reads t v (44 :: t')) :
    ReadsMembers (34 :: s) ms rest ↔ ∃ ms', ReadsMembers t' ms' rest ∧ ms = (k, v) :: ms' := by
  have hskip : skip (44 :: t') = 44 :: t' := skip_cons rfl
  rw [readsMembers_iff hk]
  constructor
  · rintro ⟨v', s', hv', ⟨s'', ms', hs'', hms, rfl⟩ | ⟨hs', -⟩⟩
    · obtain ⟨rfl, rfl⟩ := hv.unique hv'
      rw [hskip] at hs''
      cases hs''
      exact ⟨ms', hms, rfl⟩
    · obtain ⟨rfl, rfl⟩ := hv.unique hv'
      rw [hskip] at hs'
      cases hs'
  · rintro ⟨ms', hms, rfl⟩
    exact ⟨v, 44 :: t', hv, .inl ⟨t', ms', hskip, hms, rfl⟩⟩

/-- The last member. -/
theorem readsMembers_last {k : Bytes} (hk : chars .none s = some (k, 58 :: t))
    (hv : Reads t v (125 :: rest)) : ReadsMembers (34 :: s) [(k, v)] rest :=
  (readsMembers_iff hk).mpr ⟨v, 125 :: rest, hv, .inr ⟨skip_cons rfl, rfl⟩⟩

/-- A member without a value. -/
theorem not_readsMembers {k : Bytes} {ms : List (Bytes × Value)}
    (hk : chars .none s = some (k, 58 :: t)) (hv : ∀ v rest, ¬ Reads t v rest) :
    ¬ ReadsMembers (34 :: s) ms rest := by
  rw [readsMembers_iff hk]
  rintro ⟨v, s', hread, -⟩
  exact hv v s' hread

theorem readsElements_iff {vs : List Value} : ReadsElements s vs rest ↔
    ∃ v s', Reads s v s' ∧
      ((∃ s'' vs', skip s' = 44 :: s'' ∧ ReadsElements s'' vs' rest ∧ vs = v :: vs') ∨
        skip s' = 93 :: rest ∧ vs = [v]) := by
  constructor
  · rintro ⟨fuel, h⟩
    cases fuel with
    | zero => simp [readElements] at h
    | succ fuel =>
      rw [readElements] at h
      obtain ⟨⟨v, s'⟩, hv, h⟩ := Option.bind_eq_some_iff.mp h
      refine ⟨v, s', ⟨fuel, hv⟩, ?_⟩
      split at h
      · rename_i s'' hskip
        obtain ⟨⟨vs', rest'⟩, hvs, heq⟩ := Option.map_eq_some_iff.mp h
        cases heq
        exact .inl ⟨s'', vs', hskip, ⟨fuel, hvs⟩, rfl⟩
      · rename_i hskip
        cases h
        exact .inr ⟨hskip, rfl⟩
      · cases h
  · rintro ⟨v, s', ⟨fuel, hv⟩, ⟨s'', vs', hskip, ⟨fuel', hvs⟩, rfl⟩ | ⟨hskip, rfl⟩⟩
    · refine ⟨max fuel fuel' + 1, ?_⟩
      rw [readElements, readValue_le (le_max_left fuel fuel') hv, Option.bind_some]
      simp only [hskip]
      rw [readElements_le (le_max_right fuel fuel') hvs]
      rfl
    · refine ⟨fuel + 1, ?_⟩
      rw [readElements, hv, Option.bind_some]
      simp only [hskip]

/-- An object that is not empty. -/
theorem reads_object_iff : Reads (123 :: 34 :: s) v rest ↔
    ∃ ms, ReadsMembers (34 :: s) ms rest ∧ v = .obj ms := by
  have hread : ∀ fuel, readValue (fuel + 1) (123 :: 34 :: s) =
      (readMembers fuel (34 :: s)).map fun r => (.obj r.1, r.2) := fun fuel => by
    have hquote : skip (34 :: s) = 34 :: s := skip_cons rfl
    rw [readValue, skip_cons rfl]
    simp only [hquote]
    rfl
  constructor
  · rintro ⟨fuel, h⟩
    cases fuel with
    | zero => simp [readValue] at h
    | succ fuel =>
      rw [hread] at h
      obtain ⟨⟨ms, rest'⟩, hms, heq⟩ := Option.map_eq_some_iff.mp h
      cases heq
      exact ⟨ms, ⟨fuel, hms⟩, rfl⟩
  · rintro ⟨ms, ⟨fuel, hms⟩, rfl⟩
    exact ⟨fuel + 1, by rw [hread, hms]; rfl⟩

/-- An array whose first element is an object. -/
theorem reads_array {vs : List Value} (h : ReadsElements (123 :: s) vs rest) :
    Reads (91 :: 123 :: s) (.arr vs) rest := by
  obtain ⟨fuel, hvs⟩ := h
  refine ⟨fuel + 1, ?_⟩
  have hbrace : skip (123 :: s) = 123 :: s := skip_cons rfl
  rw [readValue, skip_cons rfl]
  simp only [hbrace]
  change (readElements fuel (123 :: s)).map _ = _
  rw [hvs]
  rfl

/-- No value begins with a closing bracket. -/
theorem not_reads_bracket : ¬ Reads (93 :: s) v rest := by
  rintro ⟨fuel, h⟩
  cases fuel with
  | zero => simp [readValue] at h
  | succ fuel =>
    rw [readValue, skip_cons rfl] at h
    cases h

/-- A number that something else follows. -/
theorem reads_number {c : UInt8} (hc : isDigit c = true ∨ c = 45)
    (hchars : ∀ x ∈ s, isNumberChar x = true) (hnumber : isNumber (c :: s) = true)
    (hrest : ∀ x ∈ rest.head?, isNumberChar x = false) :
    Reads (c :: s ++ rest) (.num (c :: s)) rest := by
  have hchar : isNumberChar c = true := by
    rcases hc with hc | rfl
    · simp [isNumberChar, hc]
    · decide
  have htake : (c :: s ++ rest).takeWhile isNumberChar = c :: s := by
    rw [List.takeWhile_append_of_pos (List.forall_mem_cons.mpr ⟨hchar, hchars⟩)]
    cases rest with
    | nil => simp
    | cons x rest => simp [hrest x rfl]
  have hdrop : (c :: s ++ rest).dropWhile isNumberChar = rest := by
    rw [List.dropWhile_append_of_pos (List.forall_mem_cons.mpr ⟨hchar, hchars⟩)]
    cases rest with
    | nil => rfl
    | cons x rest => exact List.dropWhile_cons_of_neg (by simp [hrest x rfl])
  have hscalar : scalar (c :: s ++ rest) = some (.num (c :: s), rest) := by
    have hne : c ≠ 116 ∧ c ≠ 102 ∧ c ≠ 110 := by
      refine ⟨?_, ?_, ?_⟩ <;> rintro rfl <;> revert hchar <;> decide
    unfold scalar number
    rw [htake, hdrop, if_pos hnumber]
    simp [List.isPrefixOf, Ne.symm hne.1, Ne.symm hne.2.1, Ne.symm hne.2.2]
  have hspace : isSpace c = false := by
    by_contra hspace
    simp only [isSpace, Bool.not_eq_false, Bool.or_eq_true, beq_iff_eq] at hspace
    rcases hspace with ((rfl | rfl) | rfl) | rfl <;> revert hchar <;> decide
  refine ⟨1, ?_⟩
  rw [readValue, List.cons_append, skip_cons hspace]
  split
  · rename_i heq
    cases heq
  · rename_i heq
    cases heq
    exact absurd hchar (by decide)
  · rename_i heq
    cases heq
    exact absurd hchar (by decide)
  · rename_i heq
    cases heq
    exact absurd hchar (by decide)
  · exact hscalar

end Rules

/-! ## Decimal numbers -/

def ofDigit (d : Nat) : UInt8 := UInt8.ofNat (48 + d)

/-- The number in decimal. -/
def ofNat (n : Nat) : Bytes := if n = 0 then [48] else (Nat.digits 10 n).reverse.map ofDigit

def ofInt : Int → Bytes
  | .ofNat n => ofNat n
  | .negSucc n => 45 :: ofNat (n + 1)

/-- The number that digits denote. -/
def toNat (s : Bytes) : Nat := s.foldl (fun n c => 10 * n + (c.toNat - 48)) 0

/-- The value as an integer, when it is written as one. -/
def Value.int? : Value → Option Int
  | .num (45 :: s) => if isInt s then some (-(toNat s : Int)) else none
  | .num s => if isInt s then some (toNat s) else none
  | _ => none

theorem toNat_ofDigit {d : Nat} (h : d < 10) : (ofDigit d).toNat = 48 + d := by
  simp [ofDigit]
  omega

theorem isDigit_ofDigit {d : Nat} (h : d < 10) : isDigit (ofDigit d) = true := by
  simp only [isDigit, Bool.and_eq_true, decide_eq_true_eq, UInt8.le_iff_toNat_le, toNat_ofDigit h]
  simp
  omega

theorem isDigit_of_mem_ofNat {n : Nat} {c : UInt8} (h : c ∈ ofNat n) : isDigit c = true := by
  unfold ofNat at h
  split at h
  · rw [List.mem_singleton.mp h]
    decide
  · obtain ⟨d, hd, rfl⟩ := List.mem_map.mp h
    exact isDigit_ofDigit (Nat.digits_lt_base (by decide) (List.mem_reverse.mp hd))

theorem toNat_ofNat (n : Nat) : toNat (ofNat n) = n := by
  unfold ofNat
  split
  · rename_i hn
    rw [hn]
    rfl
  · have hfold : ∀ l : List Nat, (∀ d ∈ l, d < 10) →
        toNat (l.reverse.map ofDigit) = Nat.ofDigits 10 l := by
      intro l
      induction l with
      | nil => simp [toNat]
      | cons d l ih =>
        intro hl
        obtain ⟨hd, hl'⟩ := List.forall_mem_cons.mp hl
        have ih' := ih hl'
        unfold toNat at ih' ⊢
        rw [List.reverse_cons, List.map_append, List.foldl_append, ih', Nat.ofDigits_cons]
        simp [toNat_ofDigit hd]
        omega
    rw [hfold _ fun d hd => Nat.digits_lt_base (by decide) hd, Nat.ofDigits_digits]

theorem isInt_ofNat (n : Nat) : isInt (ofNat n) = true := by
  by_cases hn : n = 0
  · subst hn
    decide
  · -- the last digit of `Nat.digits` is the first one written, and it is not zero
    have hne : Nat.digits 10 n ≠ [] := Nat.digits_ne_nil_iff_ne_zero.mpr hn
    have hlast := Nat.getLast_digit_ne_zero 10 hn
    have hlt : (Nat.digits 10 n).getLast hne < 10 :=
      Nat.digits_lt_base (by decide) (List.getLast_mem hne)
    have hdigits := fun c => isDigit_of_mem_ofNat (n := n) (c := c)
    have htext : ofNat n = ofDigit ((Nat.digits 10 n).getLast hne) ::
        (Nat.digits 10 n).dropLast.reverse.map ofDigit := by
      rw [ofNat, if_neg hn, ← List.map_cons, ← List.reverse_concat,
        List.dropLast_append_getLast]
    rw [htext] at hdigits ⊢
    obtain ⟨hc, hs⟩ := List.forall_mem_cons.mp hdigits
    have hzero : ofDigit ((Nat.digits 10 n).getLast hne) ≠ 48 := by
      intro heq
      have := congrArg UInt8.toNat heq
      rw [toNat_ofDigit hlt] at this
      simp at this
      exact hlast this
    simp only [isInt, hc, List.all_eq_true.mpr hs, bne_iff_ne.mpr hzero, Bool.true_or,
      Bool.and_self]

theorem isNumberChar_of_isDigit {c : UInt8} (h : isDigit c = true) : isNumberChar c = true := by
  simp [isNumberChar, h]

theorem isUnsigned_ofNat (n : Nat) : isUnsigned (ofNat n) = true := by
  have hdigits : ∀ c ∈ ofNat n, isDigit c = true := fun c => isDigit_of_mem_ofNat
  have htake : (ofNat n).takeWhile isDigit = ofNat n := List.takeWhile_eq_self_iff.mpr hdigits
  have hdrop : (ofNat n).dropWhile isDigit = [] := List.dropWhile_eq_nil_iff.mpr hdigits
  rw [isUnsigned, htake, hdrop, isInt_ofNat]
  rfl

/-- The text of a natural number does not begin with a sign. -/
theorem exists_ofNat (n : Nat) : ∃ c s, ofNat n = c :: s ∧ isDigit c = true ∧ c ≠ 45 := by
  have hint := isInt_ofNat n
  cases htext : ofNat n with
  | nil =>
    rw [htext] at hint
    cases hint
  | cons c s =>
    have hc : isDigit c = true := isDigit_of_mem_ofNat (n := n) (by simp [htext])
    refine ⟨c, s, rfl, hc, ?_⟩
    rintro rfl
    cases hc

theorem int?_ofInt (i : Int) : Value.int? (.num (ofInt i)) = some i := by
  cases i with
  | ofNat n =>
    obtain ⟨c, s, htext, -, hne⟩ := exists_ofNat n
    have hint := isInt_ofNat n
    have hvalue := toNat_ofNat n
    simp only [ofInt]
    rw [htext] at hint hvalue ⊢
    unfold Value.int?
    split
    · rename_i heq
      cases heq
      exact absurd rfl hne
    · rename_i heq
      cases heq
      rw [if_pos hint, hvalue]
      rfl
    · rename_i hnot
      exact absurd rfl (hnot _)
  | negSucc n =>
    simp only [ofInt, Value.int?, isInt_ofNat, if_true, toNat_ofNat]
    rfl

/-- An integer that something else follows. -/
theorem reads_ofInt (i : Int) {rest : Bytes}
    (hrest : ∀ x ∈ rest.head?, isNumberChar x = false) :
    Reads (ofInt i ++ rest) (.num (ofInt i)) rest := by
  cases i with
  | ofNat n =>
    obtain ⟨c, s, htext, hc, hne⟩ := exists_ofNat n
    have hnumber := isUnsigned_ofNat n
    have hdigits := fun c => isDigit_of_mem_ofNat (n := n) (c := c)
    simp only [ofInt]
    rw [htext] at hnumber hdigits ⊢
    refine reads_number (.inl hc) (fun x hx => ?_) ?_ hrest
    · exact isNumberChar_of_isDigit (hdigits x (List.mem_cons_of_mem _ hx))
    · unfold isNumber
      split
      · rename_i heq
        cases heq
        exact absurd rfl hne
      · exact hnumber
  | negSucc n =>
    refine reads_number (.inr rfl) (fun x hx => ?_) (isUnsigned_ofNat (n + 1)) hrest
    exact isNumberChar_of_isDigit (isDigit_of_mem_ofNat hx)

end Metcalfe.Json
