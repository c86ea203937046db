import Metcalfe.Beast.Base64
import Metcalfe.Library.Json

/-!
# The document of the validator site

The constructor of `http_sync_server` builds the list that it publishes by concatenation. The data
is a JSON text with a member for each validator, followed by a comma; after the loop the last
character is removed. For an empty list of validators that character is the opening bracket of the
array, and the data is no JSON text. Otherwise the document decodes to what was given
(`published_iff`), as long as the manifest can stand in a JSON string.
-/

namespace Metcalfe.ValidatorSite

open BigEndian (Bytes)
open Beast Http Json

/-- `strHex`, which is not a part of the repository: hexadecimal digits from which the bytes can be
read back. -/
structure HexText where
  strHex : Bytes → Bytes
  unHex : Bytes → Option Bytes
  digits : ∀ data, ∀ c ∈ strHex data, isHexDigit c = true
  unHex_strHex : ∀ data, unHex (strHex data) = some data

/-- The arguments of the constructor for the document. `sign` is the signature with the keys, of
which nothing is used. -/
structure Publication where
  sign : Bytes → Bytes
  manifest : Bytes
  sequence : Int32
  expiration : UInt64
  version : Int32
  validators : List Bytes

section

variable (hex : HexText) (p : Publication)

def Publication.data : Bytes :=
  let data := text "\x7b\"sequence\":" ++ ofInt p.sequence.toInt ++
    text ",\"expiration\":" ++ ofInt p.expiration.toNat ++ text ",\"validators\":["
  let data := p.validators.foldl (fun data val =>
    data ++ (text "\x7b\"validation_public_key\":\"" ++ hex.strHex val ++ text "\"\x7d,")) data
  -- `pop_back`
  let data := data.dropLast
  data ++ text "]\x7d"

/-- `list_`. -/
def Publication.list : Bytes :=
  let data := p.data hex
  let blob := base64Encode data
  let list := text "\x7b\"blob\":\"" ++ blob ++ text "\""
  let sig := p.sign data
  let list := list ++ (text ",\"signature\":\"" ++ hex.strHex sig ++ text "\"")
  let list := list ++ (text ",\"manifest\":\"" ++ p.manifest ++ text "\"")
  list ++ (text ",\"version\":" ++ ofInt p.version.toInt ++ text "\x7d")

/-! ## Reading a document -/

/-- What a blob says. -/
structure Contents where
  sequence : Int
  expiration : Int
  keys : List Bytes

structure Document where
  blob : Bytes
  signature : Bytes
  manifest : Bytes
  version : Int

def readKey : Value → Option Bytes
  | .obj [(k, .str raw)] => if k = text "validation_public_key" then hex.unHex raw else none
  | _ => none

/-- The contents of an object with exactly these members. -/
def readBlob : Value → Option Contents
  | .obj [(k₁, v₁), (k₂, v₂), (k₃, .arr vs)] =>
    if k₁ = text "sequence" ∧ k₂ = text "expiration" ∧ k₃ = text "validators" then do
      let sequence ← v₁.int?
      let expiration ← v₂.int?
      let keys ← vs.mapM (readKey hex)
      some ⟨sequence, expiration, keys⟩
    else none
  | _ => none

def readDocument : Value → Option Document
  | .obj [(k₁, .str blob), (k₂, .str signature), (k₃, .str manifest), (k₄, v)] =>
    if k₁ = text "blob" ∧ k₂ = text "signature" ∧ k₃ = text "manifest" ∧ k₄ = text "version" then do
      let version ← v.int?
      some ⟨blob, signature, manifest, version⟩
    else none
  | _ => none

/-- The list is a JSON text with the manifest and the version; its blob decodes to a JSON text with
the sequence, the expiration and the keys; and it is that text which is signed. -/
def Publication.Published : Prop :=
  ∃ doc d, Denotes (p.list hex) doc ∧ readDocument doc = some d ∧
    d.manifest = p.manifest ∧ d.version = p.version.toInt ∧
    d.signature = hex.strHex (p.sign (base64Decode d.blob)) ∧
    ∃ inner, Denotes (base64Decode d.blob) inner ∧
      readBlob hex inner = some ⟨p.sequence.toInt, p.expiration.toNat, p.validators⟩

end

/-! ## The data -/

/-- The text of a member of an object. -/
def member (k : String) (t : Bytes) : Bytes := 34 :: (text k ++ 34 :: 58 :: t)

/-- The text of a validator in the array. -/
def keyText (hex : HexText) (key : Bytes) : Bytes :=
  123 :: member "validation_public_key" (34 :: (hex.strHex key ++ [34, 125]))

/-- The data before the array. -/
def dataHead (p : Publication) : Bytes :=
  123 :: member "sequence" (ofInt p.sequence.toInt ++ 44 ::
    member "expiration" (ofInt p.expiration.toNat ++ 44 :: member "validators" []))

variable {hex : HexText} {p : Publication}

theorem flatMap_comma (key : Bytes) (keys : List Bytes) :
    (key :: keys).flatMap (fun k => keyText hex k ++ [44]) =
      keyText hex key ++ keys.flatMap (fun k => 44 :: keyText hex k) ++ [44] := by
  induction keys generalizing key with
  | nil => simp
  | cons key' keys ih =>
    rw [List.flatMap_cons, ih key', List.flatMap_cons]
    simp

/-- The loop over the validators. -/
theorem foldl_keys (data : Bytes) (keys : List Bytes) :
    keys.foldl (fun data val => data ++ (text "\x7b\"validation_public_key\":\"" ++
      hex.strHex val ++ text "\"\x7d,")) data =
      data ++ keys.flatMap fun k => keyText hex k ++ [44] := by
  have hkey : ∀ val, text "\x7b\"validation_public_key\":\"" ++ hex.strHex val ++ text "\"\x7d," =
      keyText hex val ++ [44] := by
    intro val
    have hopen : text "\x7b\"validation_public_key\":\"" =
        123 :: 34 :: (text "validation_public_key" ++ [34, 58, 34]) := rfl
    have hclose : text "\"\x7d," = [34, 125, 44] := rfl
    simp [keyText, member, hopen, hclose]
  induction keys generalizing data with
  | nil => simp
  | cons key keys ih => rw [List.foldl_cons, hkey, ih, List.flatMap_cons, List.append_assoc]

/-- Everything before the loop, ending in the opening bracket. -/
theorem data_eq (hex : HexText) (p : Publication) : p.data hex =
    (dataHead p ++ 91 :: p.validators.flatMap fun k => keyText hex k ++ [44]).dropLast ++
      [93, 125] := by
  have hsequence : text "\x7b\"sequence\":" = 123 :: 34 :: (text "sequence" ++ [34, 58]) := rfl
  have hexpiration : text ",\"expiration\":" = 44 :: 34 :: (text "expiration" ++ [34, 58]) := rfl
  have hvalidators : text ",\"validators\":[" = 44 :: 34 :: (text "validators" ++ [34, 58, 91]) :=
    rfl
  have hend : text "]\x7d" = [93, 125] := rfl
  unfold Publication.data
  dsimp only
  rw [foldl_keys, hend]
  simp only [dataHead, member, hsequence, hexpiration, hvalidators, List.append_assoc,
    List.cons_append, List.nil_append]

/-- Without a validator the opening bracket is removed. -/
theorem data_nil (h : p.validators = []) : p.data hex = dataHead p ++ [93, 125] := by
  rw [data_eq, h, List.flatMap_nil, List.dropLast_concat]

/-- With a validator the last comma is removed. -/
theorem data_cons {key : Bytes} {keys : List Bytes} (h : p.validators = key :: keys) :
    p.data hex = dataHead p ++ 91 ::
      (keyText hex key ++ keys.flatMap (fun k => 44 :: keyText hex k) ++ [93, 125]) := by
  rw [data_eq, h, flatMap_comma, ← List.cons_append, ← List.append_assoc, List.dropLast_concat]
  simp

/-- The key of a member, when it needs no escape. -/
theorem chars_member {k : String} (hk : (text k).all isPlain = true) (t : Bytes) :
    chars .none (text k ++ 34 :: 58 :: t) = some (text k, 58 :: t) :=
  chars_plain (List.all_eq_true.mp hk)

theorem reads_plain {raw : Bytes} (h : ∀ c ∈ raw, isPlain c = true) (rest : Bytes) :
    Reads (34 :: (raw ++ 34 :: rest)) (.str raw) rest :=
  reads_string_iff.mpr ⟨raw, chars_plain h, rfl⟩

theorem reads_ofInt_comma (i : Int) (rest : Bytes) :
    Reads (ofInt i ++ 44 :: rest) (.num (ofInt i)) (44 :: rest) := by
  refine reads_ofInt i fun x hx => ?_
  cases hx
  decide

/-- A value that begins with the data before the array. -/
theorem reads_dataHead {t rest : Bytes} {v : Value} : Reads (dataHead p ++ t) v rest ↔
    ∃ ms, ReadsMembers (member "validators" t) ms rest ∧
      v = .obj ((text "sequence", .num (ofInt p.sequence.toInt)) ::
        (text "expiration", .num (ofInt p.expiration.toNat)) :: ms) := by
  have htext : dataHead p ++ t = 123 :: member "sequence" (ofInt p.sequence.toInt ++ 44 ::
      member "expiration" (ofInt p.expiration.toNat ++ 44 :: member "validators" t)) := by
    simp [dataHead, member]
  rw [htext, member, reads_object_iff]
  simp only [readsMembers_comma (chars_member (k := "sequence") rfl _) (reads_ofInt_comma _ _)]
  simp only [member,
    readsMembers_comma (chars_member (k := "expiration") rfl _) (reads_ofInt_comma _ _)]
  constructor
  · rintro ⟨_, ⟨_, ⟨ms, hms, rfl⟩, rfl⟩, rfl⟩
    exact ⟨ms, hms, rfl⟩
  · rintro ⟨ms, hms, rfl⟩
    exact ⟨_, ⟨_, ⟨ms, hms, rfl⟩, rfl⟩, rfl⟩

theorem plain_of_isHexDigit {c : UInt8} (h : isHexDigit c = true) : isPlain c = true := by
  revert h
  cases c with
  | ofBitVec c =>
    revert c
    decide

/-- The value of a validator. -/
def keyValue (hex : HexText) (key : Bytes) : Value :=
  .obj [(text "validation_public_key", .str (hex.strHex key))]

theorem reads_keyText (key rest : Bytes) :
    Reads (keyText hex key ++ rest) (keyValue hex key) rest := by
  have htext : keyText hex key ++ rest =
      123 :: 34 :: (text "validation_public_key" ++ 34 :: 58 ::
        (34 :: (hex.strHex key ++ 34 :: 125 :: rest))) := by
    simp [keyText, member]
  rw [htext, reads_object_iff]
  refine ⟨_, readsMembers_last (chars_member rfl _) (reads_plain (fun c hc => ?_) _), rfl⟩
  exact plain_of_isHexDigit (hex.digits key c hc)

/-- The array of the validators, by induction on what follows the first of them. -/
theorem readsElements_keys (key : Bytes) (keys : List Bytes) (rest : Bytes) :
    ReadsElements (keyText hex key ++ keys.flatMap (fun k => 44 :: keyText hex k) ++ 93 :: rest)
      ((key :: keys).map (keyValue hex)) rest := by
  induction keys generalizing key with
  | nil =>
    rw [readsElements_iff]
    refine ⟨keyValue hex key, 93 :: rest, ?_, .inr ⟨skip_cons rfl, rfl⟩⟩
    simpa using reads_keyText key (93 :: rest)
  | cons key' keys ih =>
    rw [readsElements_iff]
    refine ⟨keyValue hex key, _, ?_, .inl ⟨_, _, skip_cons rfl, ih key', rfl⟩⟩
    simpa using reads_keyText key _

theorem mapM_readKey (keys : List Bytes) :
    (keys.map (keyValue hex)).mapM (readKey hex) = some keys := by
  induction keys with
  | nil => rfl
  | cons key keys ih => simp [ih, keyValue, readKey, hex.unHex_strHex]

/-- The data of a list with validators says what was given. -/
theorem data_denotes (h : p.validators ≠ []) : ∃ inner, Denotes (p.data hex) inner ∧
    readBlob hex inner = some ⟨p.sequence.toInt, p.expiration.toNat, p.validators⟩ := by
  obtain ⟨key, keys, hkeys⟩ := List.exists_cons_of_ne_nil h
  have hmembers : ReadsMembers (member "validators" (91 ::
      (keyText hex key ++ keys.flatMap (fun k => 44 :: keyText hex k) ++ [93, 125])))
      [(text "validators", .arr ((key :: keys).map (keyValue hex)))] [] :=
    readsMembers_last (chars_member rfl _) (reads_array (readsElements_keys key keys [125]))
  refine ⟨_, denotes_iff.mpr ⟨[], data_cons hkeys ▸ reads_dataHead.mpr ⟨_, hmembers, rfl⟩, rfl⟩, ?_⟩
  simp only [readBlob, int?_ofInt, and_self, if_true, Option.bind_eq_bind, Option.bind_some,
    mapM_readKey, hkeys]

/-- The data of an empty list is no JSON text. -/
theorem not_data_denotes (h : p.validators = []) (inner : Value) :
    ¬ Denotes (p.data hex) inner := by
  rw [denotes_iff, data_nil h]
  rintro ⟨rest, hread, -⟩
  obtain ⟨ms, hms, -⟩ := reads_dataHead.mp hread
  exact not_readsMembers (chars_member rfl _) (fun v rest => not_reads_bracket) hms

/-! ## The list -/

/-- The list before the manifest. -/
def listHead (hex : HexText) (p : Publication) (t : Bytes) : Bytes :=
  123 :: member "blob" (34 :: (base64Encode (p.data hex) ++ 34 :: 44 ::
    member "signature" (34 :: (hex.strHex (p.sign (p.data hex)) ++ 34 :: 44 ::
      member "manifest" (34 :: t)))))

theorem list_eq (hex : HexText) (p : Publication) : p.list hex = listHead hex p
    (p.manifest ++ 34 :: 44 :: member "version" (ofInt p.version.toInt ++ [125])) := by
  have hblob : text "\x7b\"blob\":\"" = 123 :: 34 :: (text "blob" ++ [34, 58, 34]) := rfl
  have hsignature : text ",\"signature\":\"" = 44 :: 34 :: (text "signature" ++ [34, 58, 34]) := rfl
  have hmanifest : text ",\"manifest\":\"" = 44 :: 34 :: (text "manifest" ++ [34, 58, 34]) := rfl
  have hversion : text ",\"version\":" = 44 :: 34 :: (text "version" ++ [34, 58]) := rfl
  have hquote : text "\"" = [34] := rfl
  have hend : text "\x7d" = [125] := rfl
  simp only [Publication.list, listHead, member, hblob, hsignature, hmanifest, hversion, hquote,
    hend, List.append_assoc, List.cons_append, List.nil_append]

theorem plain_of_mem_base64 {data : Bytes} {c : UInt8} (h : c ∈ base64Encode data) :
    isPlain c = true := by
  have hread : ∀ x : UInt8, isRead x = true → isPlain x = true := by
    rintro ⟨x⟩
    revert x
    decide
  rcases mem_base64Encode h with h | rfl
  · exact hread c h
  · rfl

/-- A value that begins with the list before the manifest. -/
theorem reads_listHead {t rest : Bytes} {v : Value} : Reads (listHead hex p t) v rest ↔
    ∃ ms, ReadsMembers (member "manifest" (34 :: t)) ms rest ∧
      v = .obj ((text "blob", .str (base64Encode (p.data hex))) ::
        (text "signature", .str (hex.strHex (p.sign (p.data hex)))) :: ms) := by
  have hblob : ∀ rest, Reads (34 :: (base64Encode (p.data hex) ++ 34 :: rest))
      (.str (base64Encode (p.data hex))) rest :=
    reads_plain fun c => plain_of_mem_base64
  have hsignature : ∀ rest, Reads (34 :: (hex.strHex (p.sign (p.data hex)) ++ 34 :: rest))
      (.str (hex.strHex (p.sign (p.data hex)))) rest :=
    reads_plain fun c hc => plain_of_isHexDigit (hex.digits _ c hc)
  rw [listHead, member, reads_object_iff]
  simp only [readsMembers_comma (chars_member (k := "blob") rfl _) (hblob _)]
  simp only [member, readsMembers_comma (chars_member (k := "signature") rfl _) (hsignature _)]
  constructor
  · rintro ⟨_, ⟨_, ⟨ms, hms, rfl⟩, rfl⟩, rfl⟩
    exact ⟨ms, hms, rfl⟩
  · rintro ⟨ms, hms, rfl⟩
    exact ⟨_, ⟨_, ⟨ms, hms, rfl⟩, rfl⟩, rfl⟩

/-- The document that the list denotes. -/
def document (hex : HexText) (p : Publication) : Value :=
  .obj [(text "blob", .str (base64Encode (p.data hex))),
    (text "signature", .str (hex.strHex (p.sign (p.data hex)))),
    (text "manifest", .str p.manifest), (text "version", .num (ofInt p.version.toInt))]

theorem list_denotes (h : ∀ c ∈ p.manifest, isPlain c = true) :
    Denotes (p.list hex) (document hex p) := by
  have hversion : ReadsMembers (member "version" (ofInt p.version.toInt ++ [125]))
      [(text "version", .num (ofInt p.version.toInt))] [] := by
    refine readsMembers_last (chars_member rfl _) (reads_ofInt _ fun x hx => ?_)
    cases hx
    rfl
  rw [denotes_iff, list_eq]
  refine ⟨[], reads_listHead.mpr ⟨_, ?_, rfl⟩, rfl⟩
  exact (readsMembers_comma (chars_member rfl _) (reads_plain h _)).mpr ⟨_, hversion, rfl⟩

/-- A manifest with a control character makes the list no JSON text. -/
theorem not_list_denotes (hquote : ∀ c ∈ p.manifest, c ≠ 34 ∧ c ≠ 92)
    (h : ∃ c ∈ p.manifest, isPlain c = false) (doc : Value) : ¬ Denotes (p.list hex) doc := by
  rw [denotes_iff, list_eq]
  rintro ⟨rest, hread, -⟩
  obtain ⟨ms, hms, -⟩ := reads_listHead.mp hread
  refine not_readsMembers (chars_member rfl _) (fun v rest hstring => ?_) hms
  obtain ⟨raw, hchars, -⟩ := reads_string_iff.mp hstring
  rw [chars_control hquote h] at hchars
  cases hchars

theorem readDocument_document : readDocument (document hex p) =
    some ⟨base64Encode (p.data hex), hex.strHex (p.sign (p.data hex)), p.manifest,
      p.version.toInt⟩ := by
  simp only [readDocument, document, int?_ofInt, and_self, if_true, Option.bind_eq_bind,
    Option.bind_some]

theorem plain_of_published (hmanifest : ∀ c ∈ p.manifest, c ≠ 34 ∧ c ≠ 92)
    (h : p.Published hex) : ∀ c ∈ p.manifest, isPlain c = true := by
  obtain ⟨doc, d, hdoc, -⟩ := h
  by_contra hnot
  push Not at hnot
  obtain ⟨c, hc, hbad⟩ := hnot
  exact not_list_denotes hmanifest ⟨c, hc, by simpa using hbad⟩ doc hdoc

theorem ne_nil_of_published (hplain : ∀ c ∈ p.manifest, isPlain c = true)
    (h : p.Published hex) : p.validators ≠ [] := by
  obtain ⟨doc, d, hdoc, hd, -, -, -, inner, hinner, -⟩ := h
  intro hnil
  cases hdoc.unique (list_denotes hplain)
  rw [readDocument_document] at hd
  cases hd
  rw [base64Decode_encode] at hinner
  exact not_data_denotes hnil inner hinner

theorem published (hplain : ∀ c ∈ p.manifest, isPlain c = true) (hne : p.validators ≠ []) :
    p.Published hex := by
  obtain ⟨inner, hinner, hblob⟩ : ∃ inner, Denotes (p.data hex) inner ∧ _ := data_denotes hne
  refine ⟨_, _, list_denotes hplain, readDocument_document, rfl, rfl, ?_, inner, ?_, hblob⟩
  · rw [base64Decode_encode]
  · rwa [base64Decode_encode]

/-- The published list decodes to what was given just when there is a validator and the manifest
has no control character. -/
theorem published_iff (hex : HexText) {p : Publication}
    (hmanifest : ∀ c ∈ p.manifest, c ≠ 34 ∧ c ≠ 92) :
    p.Published hex ↔ p.validators ≠ [] ∧ ∀ c ∈ p.manifest, 32 ≤ c := by
  have hplain : (∀ c ∈ p.manifest, isPlain c = true) ↔ ∀ c ∈ p.manifest, 32 ≤ c := by
    refine forall₂_congr fun c hc => ?_
    simp [isPlain, hmanifest c hc]
  rw [← hplain]
  constructor
  · intro h
    have hall := plain_of_published hmanifest h
    exact ⟨ne_nil_of_published hall h, hall⟩
  · exact fun h => published h.2 h.1

/-! ## Two lists -/

def hexDigit (d : Nat) : UInt8 := UInt8.ofNat (if d < 10 then 48 + d else 55 + d)

def hexValue (c : UInt8) : Nat := if c ≤ 57 then c.toNat - 48 else c.toNat - 55

/-- Two digits for each byte, with capital letters. -/
def upperHex (data : Bytes) : Bytes :=
  data.flatMap fun b => [hexDigit (b.toNat / 16), hexDigit (b.toNat % 16)]

def readHex : Bytes → Option Bytes
  | [] => some []
  | [_] => none
  | a :: b :: s => (readHex s).map (UInt8.ofNat (16 * hexValue a + hexValue b) :: ·)

theorem hexDigit_spec (b : UInt8) :
    isHexDigit (hexDigit (b.toNat / 16)) = true ∧ isHexDigit (hexDigit (b.toNat % 16)) = true ∧
    UInt8.ofNat (16 * hexValue (hexDigit (b.toNat / 16)) + hexValue (hexDigit (b.toNat % 16))) =
      b := by
  cases b with
  | ofBitVec b =>
    revert b
    decide

/-- Hexadecimal text with capital letters. -/
def capitals : HexText where
  strHex := upperHex
  unHex := readHex
  digits := by
    intro data c hc
    obtain ⟨b, -, hb⟩ := List.mem_flatMap.mp hc
    rcases List.mem_pair.mp hb with rfl | rfl
    · exact (hexDigit_spec b).1
    · exact (hexDigit_spec b).2.1
  unHex_strHex := by
    intro data
    induction data with
    | nil => rfl
    | cons b data ih =>
      change (readHex (upperHex data)).map _ = _
      rw [ih, Option.map_some, (hexDigit_spec b).2.2]

/-- The list of some keys, with a stand-in for the signature. -/
def listOf (validators : List Bytes) : Publication :=
  ⟨fun data => data.take 8, text "manifest", 1, 1000, 1, validators⟩

theorem plain_manifest (validators : List Bytes) :
    ∀ c ∈ (listOf validators).manifest, isPlain c = true :=
  List.all_eq_true.mp rfl

theorem published_iff_single :
    (∀ c ∈ (listOf [[237, 1]]).manifest, c ≠ 34 ∧ c ≠ 92) ∧
    (listOf [[237, 1]]).Published capitals := by
  have hplain : ∀ c ∈ (listOf [[237, 1]]).manifest, (32 ≤ c ∧ c ≠ 34) ∧ c ≠ 92 := by
    intro c hc
    simpa [isPlain] using plain_manifest _ c hc
  have hmanifest : ∀ c ∈ (listOf [[237, 1]]).manifest, c ≠ 34 ∧ c ≠ 92 :=
    fun c hc => ⟨(hplain c hc).1.2, (hplain c hc).2⟩
  refine ⟨hmanifest, (published_iff capitals hmanifest).mpr ⟨by simp [listOf], ?_⟩⟩
  exact fun c hc => (hplain c hc).1.1

/-- With no validator the data ends in `"validators":]` and a brace. -/
theorem empty_list_not_published :
    (listOf []).data capitals = dataHead (listOf []) ++ [93, 125] ∧
    (∀ inner, ¬ Denotes ((listOf []).data capitals) inner) ∧
    ¬ (listOf []).Published capitals :=
  ⟨data_nil rfl, not_data_denotes rfl, fun h => ne_nil_of_published (plain_manifest _) h rfl⟩

end Metcalfe.ValidatorSite
