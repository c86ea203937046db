import Mathlib.Tactic

/-!
# Big-endian fields and blobs of bytes

A number is written into a field of `w` bytes, most significant byte first, and loses what
does not fit. Reading the field back gives the number modulo `256 ^ w`.

`slice` reads a segment of a blob and `splice` overwrites one in place; a blob that is too
short is extended with zeros, as a file is when it is written past its end.
-/

namespace Metcalfe.BigEndian

abbrev Bytes := List UInt8

/-- The low `w` bytes of `n`, most significant first. -/
def toBytes : Nat → Nat → Bytes
  | 0, _ => []
  | w + 1, n => UInt8.ofNat (n / 256 ^ w) :: toBytes w n

/-- The number a field holds. -/
def ofBytes (b : Bytes) : Nat := b.foldl (fun t x => t * 256 + x.toNat) 0

@[simp]
theorem length_toBytes (w n : Nat) : (toBytes w n).length = w := by
  induction w with
  | zero => rfl
  | succ w ih => simp [toBytes, ih]

theorem foldl_toBytes (w n t : Nat) :
    (toBytes w n).foldl (fun t x => t * 256 + x.toNat) t = t * 256 ^ w + n % 256 ^ w := by
  induction w generalizing t with
  | zero => simp [toBytes, Nat.mod_one]
  | succ w ih =>
    have hbyte : (UInt8.ofNat (n / 256 ^ w)).toNat = n / 256 ^ w % 256 := by simp
    have hsplit : n % 256 ^ (w + 1) = n / 256 ^ w % 256 * 256 ^ w + n % 256 ^ w := by
      rw [pow_succ, Nat.mod_mul, add_comm, mul_comm (256 ^ w)]
    rw [toBytes, List.foldl_cons, ih, hbyte, hsplit, pow_succ]
    ring

theorem ofBytes_toBytes (w n : Nat) : ofBytes (toBytes w n) = n % 256 ^ w := by
  simpa [ofBytes] using foldl_toBytes w n 0

theorem ofBytes_toBytes_of_lt {w n : Nat} (h : n < 256 ^ w) : ofBytes (toBytes w n) = n := by
  rw [ofBytes_toBytes, Nat.mod_eq_of_lt h]

/-- Only what fits the field matters. -/
theorem toBytes_mod (w n : Nat) : toBytes w (n % 256 ^ w) = toBytes w n := by
  -- Each byte is a quotient by a power that divides the modulus.
  suffices h : ∀ v ≤ w, toBytes v (n % 256 ^ w) = toBytes v n from h w le_rfl
  intro v hv
  induction v with
  | zero => rfl
  | succ v ih =>
    have hbyte : n % 256 ^ w / 256 ^ v % 256 = n / 256 ^ v % 256 := by
      obtain ⟨k, rfl⟩ := Nat.exists_eq_add_of_le hv
      have hpow : 256 ^ (v + 1 + k) = 256 ^ v * (256 * 256 ^ k) := by
        rw [pow_add, pow_succ, mul_assoc]
      rw [hpow, Nat.mod_mul_right_div_self, Nat.mod_mul_right_mod]
    rw [toBytes, toBytes, ih (by omega)]
    congr 1
    apply UInt8.toNat_inj.mp
    simpa using hbyte

/-! ## Segments of a blob -/

variable {α : Type}

/-- The `n` bytes from position `off` on. -/
def slice (b : List α) (off n : Nat) : List α := (b.drop off).take n

theorem length_slice (b : List α) (off n : Nat) :
    (slice b off n).length = min n (b.length - off) := by
  simp [slice]

theorem slice_append_of_le {b c : List α} {off n : Nat} (h : off + n ≤ b.length) :
    slice (b ++ c) off n = slice b off n := by
  unfold slice
  rw [List.drop_append_of_le_length (by omega), List.take_append_of_le_length]
  rw [List.length_drop]
  omega

/-- The segment in the middle of a blob put together from three parts. -/
theorem slice_middle {a b c : List α} {off n : Nat} (ha : a.length = off) (hb : b.length = n) :
    slice (a ++ (b ++ c)) off n = b := by
  subst ha hb
  simp [slice]

theorem slice_start {b c : List α} {n : Nat} (hb : b.length = n) : slice (b ++ c) 0 n = b :=
  slice_middle (a := []) rfl hb

theorem slice_slice {b : List α} {off n off' n' : Nat} (h : off' + n' ≤ n) :
    slice (slice b off n) off' n' = slice b (off + off') n' := by
  simp only [slice, List.drop_take, List.drop_drop, List.take_take]
  congr 1
  omega

theorem slice_append_slice {b : List α} {off n n' : Nat} :
    slice b off n ++ slice b (off + n) n' = slice b off (n + n') := by
  simp only [slice, ← List.drop_drop]
  rw [List.take_add]

/-- The blob with the segment at `off` overwritten. -/
def splice (b : Bytes) (off : Nat) (data : Bytes) : Bytes :=
  b.take off ++ List.replicate (off - b.length) 0 ++ data ++ b.drop (off + data.length)

/-- Overwriting the middle of a blob put together from three parts. -/
theorem splice_middle {a b c data : Bytes} {off : Nat} (ha : a.length = off)
    (hb : b.length = data.length) : splice (a ++ (b ++ c)) off data = a ++ (data ++ c) := by
  subst ha
  have htake : (a ++ (b ++ c)).take a.length = a := by simp
  have hdrop : (a ++ (b ++ c)).drop (a.length + data.length) = c := by
    rw [← hb, List.drop_append]
    simp
  simp [splice, htake, hdrop]

theorem splice_start {b c data : Bytes} (hb : b.length = data.length) :
    splice (b ++ c) 0 data = data ++ c :=
  splice_middle (a := []) rfl hb

theorem splice_end {b data : Bytes} {off : Nat} (h : off = b.length) :
    splice b off data = b ++ data := by
  subst h
  simp [splice]

/-! ## Blobs of records of one width -/

section Records

variable {β : Type} {enc : β → List α} {w : Nat}

theorem length_flatMap_of_width {l : List β} (henc : ∀ b ∈ l, (enc b).length = w) :
    (l.flatMap enc).length = l.length * w := by
  induction l with
  | nil => simp
  | cons b l ih =>
    rw [List.flatMap_cons, List.length_append, henc b List.mem_cons_self,
      ih fun b hb => henc b (List.mem_cons_of_mem _ hb), List.length_cons]
    ring

/-- The record at position `i`, after anything that stands in front. -/
theorem slice_flatMap (pre post : List α) {l : List β} (henc : ∀ b ∈ l, (enc b).length = w)
    {i : Nat} (hi : i < l.length) :
    slice (pre ++ (l.flatMap enc ++ post)) (pre.length + i * w) w = enc l[i] := by
  have hsplit : l = l.take i ++ (l[i] :: l.drop (i + 1)) := by simp
  have hbytes : pre ++ (l.flatMap enc ++ post) =
      (pre ++ (l.take i).flatMap enc) ++ (enc l[i] ++ ((l.drop (i + 1)).flatMap enc ++ post)) := by
    conv_lhs => rw [hsplit]
    simp only [List.flatMap_append, List.flatMap_cons, List.append_assoc]
  have htake : ∀ b ∈ l.take i, (enc b).length = w := fun b hb => henc b (List.mem_of_mem_take hb)
  rw [hbytes]
  apply slice_middle _ (henc _ (List.getElem_mem hi))
  rw [List.length_append, length_flatMap_of_width htake, List.length_take, min_eq_left hi.le]

end Records

end Metcalfe.BigEndian
