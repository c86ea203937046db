import Metcalfe.Library.BigEndian
import Mathlib.Tactic

/-!
# HTTP messages

The part of the HTTP library under `beast/http` that a server with string bodies uses: the fields
of a message with their case-insensitive lookup, token lists in field values, `prepare`, and what
`write` reports. `prepare` refuses a message that has one of the fields it is going to set
(`prepare_eq` says what it does with the others).
-/

namespace Metcalfe.Http

open BigEndian (Bytes)

/-- A string literal of the source. All of them are ASCII. -/
def text (s : String) : Bytes := s.toList.map fun c => c.toNat.toUInt8

def tolower (c : UInt8) : UInt8 := if 65 ≤ c ∧ c ≤ 90 then c + 32 else c

def ciEqual (s t : Bytes) : Bool := s.map tolower == t.map tolower

def isOws (c : UInt8) : Bool := c == 32 || c == 9

def trim (s : Bytes) : Bytes := ((s.dropWhile isOws).reverse.dropWhile isOws).reverse

/-! ## Token lists -/

/-- The characters `!#$%&'*+-.^_|~`, the backquote, digits and letters. -/
def isTchar (c : UInt8) : Bool :=
  [33, 35, 36, 37, 38, 39, 42, 43, 45, 46, 94, 95, 96, 124, 126].contains c ||
    (48 ≤ c && c ≤ 57) || (65 ≤ c && c ≤ 90) || (97 ≤ c && c ≤ 122)

/-- The iteration over a `token_list`: commas and optional white space between tokens, and the end
at the first character that does not belong there. A turn takes a character at least. -/
def tokens : Nat → Bool → Bytes → List Bytes
  | 0, _, _ => []
  | fuel + 1, needComma, s =>
    match s.dropWhile isOws with
    | [] => []
    | c :: s =>
      if isTchar c then
        if needComma then
          []
        else
          (c :: s.takeWhile isTchar) :: tokens fuel true (s.dropWhile isTchar)
      else if c == 44 then
        tokens fuel false s
      else
        []

/-- `token_list{s}.exists(token)`. -/
def hasToken (s token : Bytes) : Bool := (tokens s.length false s).any (ciEqual token)

@[simp] theorem hasToken_nil (token : Bytes) : hasToken [] token = false := rfl

/-! ## Fields -/

/-- `basic_fields`: names and values in the order of insertion. -/
abbrev Fields := List (Bytes × Bytes)

namespace Fields

def insert (fields : Fields) (name value : Bytes) : Fields := fields ++ [(name, trim value)]

def has (fields : Fields) (name : Bytes) : Bool := fields.any fun e => ciEqual e.1 name

/-- `operator[]`: the first value with this name, or the empty string. -/
def get (fields : Fields) (name : Bytes) : Bytes :=
  ((fields.find? fun e => ciEqual e.1 name).map Prod.snd).getD []

variable {fields : Fields} {name : Bytes}

@[simp] theorem has_nil : has [] name = false := rfl

@[simp] theorem has_insert (name' value : Bytes) :
    has (fields.insert name' value) name = (has fields name || ciEqual name' name) := by
  simp [has, insert]

theorem get_of_not_has (h : has fields name = false) : get fields name = [] := by
  have hnone : fields.find? (fun e => ciEqual e.1 name) = none := by
    rw [List.find?_eq_none]
    intro e he
    simpa using List.any_eq_false.mp h e he
  simp [get, hnone]

end Fields

/-! ## Messages -/

/-- A response with a `string_body`. -/
structure Response where
  status : Nat
  reason : Bytes
  version : Nat
  fields : Fields
  body : Bytes
deriving DecidableEq

/-- The text of the exception that `make_exception` builds in `message.ipp`. -/
def exceptionText (reason : String) (line : Nat) : Bytes :=
  text reason ++ text " (message.ipp:" ++ text (toString line) ++ text ")"

/-- The message with the field `Content-Length`. -/
def withLength (msg : Response) : Response :=
  { msg with fields := msg.fields.insert (text "Content-Length") (text (toString msg.body.length)) }

/-- `prepare` without options. The length of a string body is always known, so this never sets the
chunked encoding. -/
def prepare (msg : Response) : Except Bytes Response :=
  if msg.fields.has (text "Connection") then
    .error (exceptionText "prepare called with Connection field set" 180)
  else if msg.fields.has (text "Content-Length") then
    .error (exceptionText "prepare called with Content-Length field set" 184)
  else if hasToken (msg.fields.get (text "Transfer-Encoding")) (text "chunked") then
    .error (exceptionText "prepare called with Transfer-Encoding: chunked set" 188)
  else
    let msg :=
      if msg.status / 100 ≠ 1 ∧ msg.status ≠ 204 ∧ msg.status ≠ 304 then withLength msg else msg
    if msg.version < 11 ∧ hasToken (msg.fields.get (text "Connection")) (text "upgrade") then
      .error (exceptionText "invalid version for Connection: upgrade" 260)
    else
      .ok msg

/-- `close` of `write_preparation`: `write` reports the end of the stream after such a message. -/
def closes (msg : Response) : Bool :=
  hasToken (msg.fields.get (text "Connection")) (text "close") ||
    (decide (msg.version < 11) && !msg.fields.has (text "Content-Length"))

/-- None of the fields that `prepare` looks at is set, and the status allows a body. -/
structure Plain (msg : Response) : Prop where
  connection : msg.fields.has (text "Connection") = false
  contentLength : msg.fields.has (text "Content-Length") = false
  transferEncoding : msg.fields.has (text "Transfer-Encoding") = false
  status : msg.status / 100 ≠ 1 ∧ msg.status ≠ 204 ∧ msg.status ≠ 304

namespace Plain

variable {msg : Response}

theorem get_connection (h : Plain msg) : (withLength msg).fields.get (text "Connection") = [] := by
  have hname : ciEqual (text "Content-Length") (text "Connection") = false := by decide
  exact Fields.get_of_not_has (by simp [withLength, h.connection, hname])

theorem prepare_eq (h : Plain msg) : prepare msg = .ok (withLength msg) := by
  unfold prepare
  rw [if_neg (by simp [h.connection]), if_neg (by simp [h.contentLength]),
    Fields.get_of_not_has h.transferEncoding, if_neg (by simp)]
  simp only [if_pos h.status]
  rw [if_neg (by simp [h.get_connection])]

theorem not_closes (h : Plain msg) : closes (withLength msg) = false := by
  have hname : ciEqual (text "Content-Length") (text "Content-Length") = true := by decide
  have hlength : (withLength msg).fields.has (text "Content-Length") = true := by
    simp [withLength, hname]
  simp [closes, h.get_connection, hlength]

end Plain

end Metcalfe.Http
