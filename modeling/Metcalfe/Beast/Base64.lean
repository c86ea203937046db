import Metcalfe.Http.Message

/-!
# Base64

`base64_encode` and `base64_decode` of `beast/core/detail/base64.hpp`. Both collect their input in a
small buffer, three bytes or four characters at a time, and treat a buffer that is not full at the
end by itself. Decoding stops at the first character that is not of the alphabet, so at the padding.
`base64Decode_encode` is the round trip.
-/

namespace Metcalfe.Beast

open BigEndian (Bytes)
open Http (text)

def base64Alphabet : Bytes :=
  text "ABCDEFGHIJKLMNOPQRSTUVWXYZabcdefghijklmnopqrstuvwxyz0123456789+/"

/-- `std::isalnum` in the C locale, `+` or `/`. -/
def isBase64 (c : UInt8) : Bool :=
  (48 ≤ c && c ≤ 57) || (65 ≤ c && c ≤ 90) || (97 ≤ c && c ≤ 122) || c == 43 || c == 47

/-- `alphabet[k]`. -/
def toChar (k : UInt8) : UInt8 := base64Alphabet.getD k.toNat 0

/-- `base64_alphabet().find(c)` as an `unsigned char`: `npos` is 255. -/
def fromChar (c : UInt8) : UInt8 :=
  match base64Alphabet.findIdx? (· == c) with
  | some k => k.toUInt8
  | none => 255

/-- The values of `c4` for three bytes. -/
def toSextets (a b c : UInt8) : List UInt8 :=
  [(a &&& 0xfc) >>> 2, ((a &&& 0x03) <<< 4) + ((b &&& 0xf0) >>> 4),
    ((b &&& 0x0f) <<< 2) + ((c &&& 0xc0) >>> 6), c &&& 0x3f]

/-- The values of `c3` for four sextets. -/
def fromSextets (a b c d : UInt8) : Bytes :=
  [(a <<< 2) + ((b &&& 0x30) >>> 4), ((b &&& 0xf) <<< 4) + ((c &&& 0x3c) >>> 2),
    ((c &&& 0x3) <<< 6) + d]

/-- One turn of the loop: what is written, and the bytes in `c3`. -/
def encodeStep (s : Bytes × Bytes) (x : UInt8) : Bytes × Bytes :=
  match s.2 ++ [x] with
  | [a, b, c] => (s.1 ++ (toSextets a b c).map toChar, [])
  | c3 => (s.1, c3)

/-- The rest of the buffer, filled up with zeros, and the padding. -/
def encodeRest : Bytes → Bytes
  | [a] => ((toSextets a 0 0).take 2).map toChar ++ text "=="
  | [a, b] => ((toSextets a b 0).take 3).map toChar ++ text "="
  | _ => []

def base64Encode (data : Bytes) : Bytes :=
  let s := data.foldl encodeStep ([], [])
  s.1 ++ encodeRest s.2

/-- One turn of the loop: what is written, and the characters in `c4`. -/
def decodeStep (s : Bytes × Bytes) (x : UInt8) : Bytes × Bytes :=
  match s.2 ++ [x] with
  | [a, b, c, d] =>
    (s.1 ++ fromSextets (fromChar a) (fromChar b) (fromChar c) (fromChar d), [])
  | c4 => (s.1, c4)

/-- The rest of the buffer, filled up with zeros; one byte less than characters is written. -/
def decodeRest : Bytes → Bytes
  | [a, b] => (fromSextets (fromChar a) (fromChar b) (fromChar 0) (fromChar 0)).take 1
  | [a, b, c] => (fromSextets (fromChar a) (fromChar b) (fromChar c) (fromChar 0)).take 2
  | _ => []

/-- The condition of the loop: not `=`, and of the alphabet. -/
def isRead (c : UInt8) : Bool := c != 61 && isBase64 c

def base64Decode (data : Bytes) : Bytes :=
  let s := (data.takeWhile isRead).foldl decodeStep ([], [])
  s.1 ++ decodeRest s.2

/-! ## The round trip -/

/-- The masks and shifts as arithmetic. -/
theorem toNat_masks (x : UInt8) :
    ((x &&& 0xfc) >>> 2).toNat = x.toNat / 4 ∧ ((x &&& 0x03) <<< 4).toNat = x.toNat % 4 * 16 ∧
    ((x &&& 0xf0) >>> 4).toNat = x.toNat / 16 ∧ ((x &&& 0x0f) <<< 2).toNat = x.toNat % 16 * 4 ∧
    ((x &&& 0xc0) >>> 6).toNat = x.toNat / 64 ∧ (x &&& 0x3f).toNat = x.toNat % 64 ∧
    (x <<< 2).toNat = x.toNat % 64 * 4 ∧ ((x &&& 0x30) >>> 4).toNat = x.toNat / 16 % 4 ∧
    ((x &&& 0xf) <<< 4).toNat = x.toNat % 16 * 16 ∧
    ((x &&& 0x3c) >>> 2).toNat = x.toNat / 4 % 16 ∧
    ((x &&& 0x3) <<< 6).toNat = x.toNat % 4 * 64 := by
  cases x with
  | ofBitVec x =>
    revert x
    decide

theorem toNat_toSextets (a b c : UInt8) : (toSextets a b c).map UInt8.toNat =
    [a.toNat / 4, a.toNat % 4 * 16 + b.toNat / 16, b.toNat % 16 * 4 + c.toNat / 64,
      c.toNat % 64] := by
  have ha := toNat_masks a
  have hb := toNat_masks b
  have hc := toNat_masks c
  have hb' := b.toNat_lt
  have hc' := c.toNat_lt
  simp only [toSextets, List.map_cons, List.map_nil, UInt8.toNat_add, ha, hb, hc, List.cons.injEq,
    and_true, true_and]
  omega

theorem toNat_fromSextets (p q r t : UInt8) : (fromSextets p q r t).map UInt8.toNat =
    [(p.toNat % 64 * 4 + q.toNat / 16 % 4) % 256, (q.toNat % 16 * 16 + r.toNat / 4 % 16) % 256,
      (r.toNat % 4 * 64 + t.toNat) % 256] := by
  have hp := toNat_masks p
  have hq := toNat_masks q
  have hr := toNat_masks r
  simp only [fromSextets, List.map_cons, List.map_nil, UInt8.toNat_add, hp, hq, hr]

/-- Four sextets give three bytes back, and fewer of them the bytes that they cover. -/
theorem fromSextets_toSextets {a b c p q r t : UInt8} (h : toSextets a b c = [p, q, r, t]) :
    fromSextets p q r t = [a, b, c] ∧ (∀ t', (fromSextets p q r t').take 2 = [a, b]) ∧
      ∀ r' t', (fromSextets p q r' t').take 1 = [a] := by
  have hsextets := toNat_toSextets a b c
  simp only [h, List.map_cons, List.map_nil, List.cons.injEq, and_true] at hsextets
  obtain ⟨hp, hq, hr, ht⟩ := hsextets
  have ha := a.toNat_lt
  have hb := b.toNat_lt
  have hc := c.toNat_lt
  have hinj : ∀ l l' : Bytes, l.map UInt8.toNat = l'.map UInt8.toNat → l = l' :=
    fun _ _ hmap => List.map_injective_iff.mpr (fun _ _ => UInt8.toNat_inj.mp) hmap
  refine ⟨hinj _ _ ?_, fun t' => hinj _ _ ?_, fun r' t' => hinj _ _ ?_⟩
  · simp only [toNat_fromSextets, List.map_cons, List.map_nil, List.cons.injEq, and_true]
    omega
  · simp only [List.map_take, toNat_fromSextets, List.take_succ_cons, List.take_zero, List.map_cons,
      List.map_nil, List.cons.injEq, and_true]
    omega
  · simp only [List.map_take, toNat_fromSextets, List.take_succ_cons, List.take_zero, List.map_cons,
      List.map_nil, List.cons.injEq, and_true]
    omega

theorem sextets_lt (a b c : UInt8) : ∀ k ∈ toSextets a b c, k.toNat < 64 := by
  have hsextets := toNat_toSextets a b c
  have ha := a.toNat_lt
  have hb := b.toNat_lt
  have hc := c.toNat_lt
  intro k hk
  have hmem := List.mem_map_of_mem (f := UInt8.toNat) hk
  rw [hsextets] at hmem
  simp only [List.mem_cons, List.not_mem_nil, or_false] at hmem
  omega

theorem alphabet_spec (k : Fin 64) :
    fromChar (toChar (UInt8.ofNat k)) = UInt8.ofNat k ∧ isRead (toChar (UInt8.ofNat k)) = true := by
  revert k
  decide +kernel

theorem toChar_spec {k : UInt8} (hk : k.toNat < 64) :
    fromChar (toChar k) = k ∧ isRead (toChar k) = true := by
  simpa using alphabet_spec ⟨k.toNat, hk⟩

theorem isRead_of_mem_sextets {a b c x : UInt8} (h : x ∈ (toSextets a b c).map toChar) :
    isRead x = true := by
  obtain ⟨k, hk, rfl⟩ := List.mem_map.mp h
  exact (toChar_spec (sextets_lt a b c k hk)).2

/-- A loop that only adds to what is written adds the same to any text. -/
theorem foldl_written {f : Bytes × Bytes → UInt8 → Bytes × Bytes}
    (hf : ∀ r s x, f (r ++ s.1, s.2) x = (r ++ (f s x).1, (f s x).2)) (r : Bytes) (l : Bytes)
    (s : Bytes × Bytes) :
    l.foldl f (r ++ s.1, s.2) = (r ++ (l.foldl f s).1, (l.foldl f s).2) := by
  induction l generalizing s with
  | nil => rfl
  | cons x l ih => rw [List.foldl_cons, hf, ih, List.foldl_cons]

theorem encodeStep_written (r : Bytes) (s : Bytes × Bytes) (x : UInt8) :
    encodeStep (r ++ s.1, s.2) x = (r ++ (encodeStep s x).1, (encodeStep s x).2) := by
  unfold encodeStep
  dsimp only
  split <;> simp

theorem decodeStep_written (r : Bytes) (s : Bytes × Bytes) (x : UInt8) :
    decodeStep (r ++ s.1, s.2) x = (r ++ (decodeStep s x).1, (decodeStep s x).2) := by
  unfold decodeStep
  dsimp only
  split <;> simp

theorem base64Encode_one (a : UInt8) :
    base64Encode [a] = ((toSextets a 0 0).take 2).map toChar ++ 61 :: [61] := rfl

theorem base64Encode_two (a b : UInt8) :
    base64Encode [a, b] = ((toSextets a b 0).take 3).map toChar ++ 61 :: [] := rfl

theorem base64Encode_cons (a b c : UInt8) (data : Bytes) :
    base64Encode (a :: b :: c :: data) = (toSextets a b c).map toChar ++ base64Encode data := by
  have hfold : (a :: b :: c :: data).foldl encodeStep ([], []) =
      data.foldl encodeStep ((toSextets a b c).map toChar ++ [], []) := rfl
  unfold base64Encode
  rw [hfold, foldl_written encodeStep_written _ data ([], [])]
  simp only [List.append_assoc]

theorem base64Decode_append {p q r t : UInt8} (h : ∀ x ∈ [p, q, r, t], isRead x = true)
    (rest : Bytes) : base64Decode ([p, q, r, t] ++ rest) =
      fromSextets (fromChar p) (fromChar q) (fromChar r) (fromChar t) ++ base64Decode rest := by
  have hfold : ∀ l : Bytes, ([p, q, r, t] ++ l).foldl decodeStep ([], []) = l.foldl decodeStep
      (fromSextets (fromChar p) (fromChar q) (fromChar r) (fromChar t) ++ [], []) := fun _ => rfl
  unfold base64Decode
  rw [List.takeWhile_append_of_pos h, hfold, foldl_written decodeStep_written _ _ ([], [])]
  simp only [List.append_assoc]

/-- Bytes come in threes, with one or two left at the end. -/
theorem triples {motive : Bytes → Prop} (nil : motive []) (one : ∀ a, motive [a])
    (two : ∀ a b, motive [a, b])
    (three : ∀ a b c data, motive data → motive (a :: b :: c :: data)) : ∀ data, motive data
  | [] => nil
  | [a] => one a
  | [a, b] => two a b
  | a :: b :: c :: data => three a b c data (triples nil one two three data)

theorem exists_sextets (a b c : UInt8) : ∃ p q r t, toSextets a b c = [p, q, r, t] ∧
    (fromChar (toChar p) = p ∧ fromChar (toChar q) = q ∧ fromChar (toChar r) = r ∧
      fromChar (toChar t) = t) ∧
    ∀ x ∈ [toChar p, toChar q, toChar r, toChar t], isRead x = true := by
  refine ⟨_, _, _, _, rfl, ?_, fun x hx => isRead_of_mem_sextets (a := a) (b := b) (c := c) hx⟩
  have hchar := fun k hk => (toChar_spec (sextets_lt a b c k hk)).1
  simp only [toSextets, List.forall_mem_cons] at hchar
  exact ⟨hchar.1, hchar.2.1, hchar.2.2.1, hchar.2.2.2.1⟩

/-- What decoding reads of a text that ends in padding. -/
theorem takeWhile_padded {l : Bytes} (h : ∀ x ∈ l, isRead x = true) (padding : Bytes) :
    (l ++ 61 :: padding).takeWhile isRead = l := by
  rw [List.takeWhile_append_of_pos h, List.takeWhile_cons_of_neg (by decide), List.append_nil]

theorem base64Decode_encode (data : Bytes) : base64Decode (base64Encode data) = data := by
  induction data using triples with
  | nil => rfl
  | one a =>
    obtain ⟨p, q, r, t, hsextets, ⟨hp, hq, -, -⟩, hread⟩ := exists_sextets a 0 0
    rw [base64Encode_one, hsextets, base64Decode, takeWhile_padded fun x hx =>
      hread x (List.map_subset toChar (List.take_subset 2 [p, q, r, t]) hx)]
    change (fromSextets (fromChar (toChar p)) (fromChar (toChar q)) _ _).take 1 = [a]
    rw [hp, hq]
    exact (fromSextets_toSextets hsextets).2.2 _ _
  | two a b =>
    obtain ⟨p, q, r, t, hsextets, ⟨hp, hq, hr, -⟩, hread⟩ := exists_sextets a b 0
    rw [base64Encode_two, hsextets, base64Decode, takeWhile_padded fun x hx =>
      hread x (List.map_subset toChar (List.take_subset 3 [p, q, r, t]) hx)]
    change (fromSextets (fromChar (toChar p)) (fromChar (toChar q)) (fromChar (toChar r))
      _).take 2 = [a, b]
    rw [hp, hq, hr]
    exact (fromSextets_toSextets hsextets).2.1 _
  | three a b c data ih =>
    obtain ⟨p, q, r, t, hsextets, ⟨hp, hq, hr, ht⟩, hread⟩ := exists_sextets a b c
    rw [base64Encode_cons, hsextets]
    refine (base64Decode_append hread (base64Encode data)).trans ?_
    rw [ih, hp, hq, hr, ht, (fromSextets_toSextets hsextets).1]
    rfl

/-- Encoding writes characters of the alphabet and padding. -/
theorem mem_base64Encode {data : Bytes} {x : UInt8} (h : x ∈ base64Encode data) :
    isRead x = true ∨ x = 61 := by
  induction data using triples with
  | nil => exact absurd h List.not_mem_nil
  | one a =>
    rw [base64Encode_one] at h
    rcases List.mem_append.mp h with h | h
    · exact .inl (isRead_of_mem_sextets (List.map_subset toChar (List.take_subset 2 _) h))
    · exact .inr (by simpa using h)
  | two a b =>
    rw [base64Encode_two] at h
    rcases List.mem_append.mp h with h | h
    · exact .inl (isRead_of_mem_sextets (List.map_subset toChar (List.take_subset 3 _) h))
    · exact .inr (by simpa using h)
  | three a b c data ih =>
    rw [base64Encode_cons] at h
    rcases List.mem_append.mp h with h | h
    · exact .inl (isRead_of_mem_sextets h)
    · exact ih h

end Metcalfe.Beast
