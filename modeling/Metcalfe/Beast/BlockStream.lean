import Metcalfe.Library.Steps
import Mathlib.Tactic

/-!
# The block stream of the hash tests

`block_stream` of `hash_append_test.cpp` cuts the bytes that its calls bring into blocks and hands
each one to `process_block` of the derived class. A call first completes the block that the calls
before it began, then takes whole blocks from its own data, and keeps what is left in `m_block`.

After the first of these phases `m_size` is not set back to 0. So a call that completes a begun
block leaves the stream with a full block that will be processed again (`feed_ahead`), and any byte
left over is written behind the end of `m_block`. As long as no call completes a begun block, the
blocks are those of the whole input (`feed_spec`), whatever the derived class does with them.
-/

namespace Metcalfe.Beast

open Steps

/-- A value of a type of `n` bytes, as the bytes it consists of. -/
@[ext]
structure Block (n : Nat) where
  bytes : List UInt8
  length_bytes : bytes.length = n
deriving DecidableEq

/-- `memcpy` of `data` to the place `pos` of the block. -/
def Block.copy {n : Nat} (b : Block n) (pos : Nat) (data : List UInt8) (h : pos + data.length ≤ n) :
    Block n :=
  ⟨b.bytes.take pos ++ data ++ b.bytes.drop (pos + data.length), by
    have hb := b.length_bytes
    simp only [List.length_append, List.length_take, List.length_drop]
    omega⟩

/-- The stream, with the data of the derived class. `m_size` cannot pass the size of the block:
the write that would do this is outside of the block, and the run ends there (`save`). So
`needed()` does not wrap around. -/
structure BlockStream (n : Nat) (D : Type) where
  block : Block n
  size : Nat
  derived : D
  size_le : size ≤ n

namespace BlockStream

variable {n : Nat} {D : Type}

/-- The constructor. It does not initialize `m_block`, which may hold anything. -/
def new (b : Block n) (d : D) : BlockStream n D := ⟨b, 0, d, Nat.zero_le n⟩

def needed (s : BlockStream n D) : Nat := n - s.size

/-- `memcpy (tail(), data, bytes)` and `m_size += bytes`; `none` when the copy would write behind
the end of `m_block`. -/
def save (s : BlockStream n D) (data : List UInt8) : Option (BlockStream n D) :=
  if h : s.size + data.length ≤ n then
    some { s with block := s.block.copy s.size data h, size := s.size + data.length, size_le := h }
  else
    none

variable (processBlock : D → Block n → D)

/-- The call of `process_block` with `m_block`. -/
def process (s : BlockStream n D) : BlockStream n D :=
  { s with derived := processBlock s.derived s.block }

/-- The loop over complete blocks. Each turn takes `n` bytes, so their number is enough fuel. -/
def whole : Nat → BlockStream n D → List UInt8 → BlockStream n D × List UInt8
  | 0, s, data => (s, data)
  | fuel + 1, s, data =>
    if h : n ≤ data.length then
      whole fuel (process processBlock { s with block := ⟨data.take n, by simp [h]⟩ }) (data.drop n)
    else
      (s, data)

/-- `operator()` from the loop on. -/
def rest (s : BlockStream n D) (data : List UInt8) : Option (BlockStream n D) :=
  let r := whole processBlock data.length s data
  if 0 < r.2.length then r.1.save r.2 else some r.1

/-- `operator()`. -/
def feed (s : BlockStream n D) (data : List UInt8) : Option (BlockStream n D) :=
  if 0 < s.size then do
    let k := min s.needed data.length
    let s ← s.save (data.take k)
    if s.size < n then
      return s
    rest processBlock (process processBlock s) (data.drop k)
  else
    rest processBlock s data

def finish (s : BlockStream n D) : BlockStream n D :=
  if 0 < s.size then
    process processBlock { s with
      block := s.block.copy s.size (List.replicate s.needed 0) (by
        have := s.size_le
        simp only [List.length_replicate, needed]
        omega) }
  else
    s

/-- The calls of `operator()` with the pieces of the input. -/
def feedAll (s : BlockStream n D) (pieces : List (List UInt8)) : Option (BlockStream n D) :=
  pieces.foldlM (feed processBlock) s

end BlockStream

/-! ## The blocks of a byte string -/

/-- The block number `i` of `s`, with zeros where `s` has no bytes any more. -/
def blockAt (n : Nat) (s : List UInt8) (i : Nat) : Block n :=
  ⟨(List.range n).map fun j => s.getD (i * n + j) 0, by simp⟩

/-- The consecutive blocks of `s`, the last one padded with zeros. -/
def blocksOf (n : Nat) (s : List UInt8) : List (Block n) :=
  (List.range ((s.length + n - 1) / n)).map (blockAt n s)

section

variable {n : Nat} {s : List UInt8}

theorem blockAt_zero (first : Block n) : blockAt n (first.bytes ++ s) 0 = first := by
  ext1
  apply List.ext_getElem
  · simp [blockAt, first.length_bytes]
  · intro j hj hj'
    simp [blockAt, List.getElem?_append_left hj', hj']

theorem blockAt_succ (first : Block n) (i : Nat) :
    blockAt n (first.bytes ++ s) (i + 1) = blockAt n s i := by
  ext1
  apply List.map_congr_left
  intro j _
  have hidx : (i + 1) * n + j = n + (i * n + j) := by ring
  simp [hidx, List.getElem?_append_right, first.length_bytes]

theorem blocksOf_nil (hn : 0 < n) : blocksOf n [] = [] := by
  have hcount : (0 + n - 1) / n = 0 := Nat.div_eq_of_lt (by omega)
  rw [blocksOf, List.length_nil, hcount]
  rfl

theorem blocksOf_append (first : Block n) (hn : 0 < n) :
    blocksOf n (first.bytes ++ s) = first :: blocksOf n s := by
  have hcount : ((first.bytes ++ s).length + n - 1) / n = (s.length + n - 1) / n + 1 := by
    rw [← Nat.add_div_right _ hn, List.length_append, first.length_bytes]
    congr 1
    omega
  unfold blocksOf
  rw [hcount, List.range_succ_eq_map, List.map_cons, List.map_map, blockAt_zero]
  congr 1
  exact List.map_congr_left fun i _ => blockAt_succ first i

theorem length_blocksOf (n : Nat) (s : List UInt8) :
    (blocksOf n s).length = (s.length + n - 1) / n := by
  simp [blocksOf]

/-- The blocks cover the string. -/
theorem length_le_blocksOf (hn : 0 < n) (s : List UInt8) :
    s.length ≤ (blocksOf n s).length * n := by
  rw [length_blocksOf]
  have := Nat.lt_div_mul_add (a := s.length + n - 1) hn
  omega

/-- The last block is needed. -/
theorem blocksOf_mul_lt (hn : 0 < n) (s : List UInt8) :
    (blocksOf n s).length * n < s.length + n := by
  rw [length_blocksOf]
  have := Nat.div_mul_le_self (s.length + n - 1) n
  omega

/-- The block that holds all of `s` and zeros after it. -/
theorem blocksOf_padded (b : Block n) (hb : b.bytes = s ++ List.replicate (n - s.length) 0)
    (hs : 0 < s.length) (hle : s.length ≤ n) : blocksOf n s = [b] := by
  have hcount : (s.length + n - 1) / n = 1 := Nat.div_eq_of_lt_le (by omega) (by omega)
  have hfirst : blockAt n s 0 = b := by
    ext1
    apply List.ext_getElem
    · simp [blockAt, b.length_bytes]
    · intro j hj hj'
      simp only [blockAt, List.getElem_map, List.getElem_range, Nat.zero_mul, Nat.zero_add, hb,
        List.getD_eq_getElem?_getD]
      by_cases hjs : j < s.length
      · simp [List.getElem_append_left hjs, hjs]
      · have hge := not_lt.mp hjs
        simp [List.getElem_append_right hge, List.getElem?_eq_none hge]
  rw [blocksOf, hcount, List.range_one, List.map_cons, List.map_nil, hfirst]

end

/-! ## One call -/

namespace BlockStream

variable {n : Nat} {D : Type} {p : D → Block n → D} {s : BlockStream n D} {data : List UInt8}

/-- The bytes that are in the stream and not yet processed. -/
def pending (s : BlockStream n D) : List UInt8 := s.block.bytes.take s.size

@[simp] theorem length_pending (s : BlockStream n D) : s.pending.length = s.size := by
  have := s.size_le
  rw [pending, List.length_take, s.block.length_bytes]
  omega

theorem pending_of_size (h : s.size = 0) : s.pending = [] := by
  rw [pending, h, List.take_zero]

/-- What is hashed in the end when the bytes `t` come after those that the stream holds. -/
def hashed (p : D → Block n → D) (s : BlockStream n D) (t : List UInt8) : D :=
  (blocksOf n (s.pending ++ t)).foldl p s.derived

theorem save_some (s : BlockStream n D) (data : List UInt8) (h : s.size + data.length ≤ n) :
    ∃ s', s.save data = some s' ∧ s'.pending = s.pending ++ data ∧
      s'.size = s.size + data.length ∧ s'.derived = s.derived := by
  refine ⟨_, dif_pos h, ?_, rfl, rfl⟩
  have hlen := s.length_pending
  unfold pending at hlen ⊢
  simp only [Block.copy]
  rw [List.take_append_of_le_length (by simp [hlen]), List.take_of_length_le (by simp [hlen])]

theorem size_of_save {s' : BlockStream n D} (h : s.save data = some s') :
    s'.size = s.size + data.length := by
  unfold save at h
  split at h
  · cases h
    rfl
  · cases h

theorem whole_size (fuel : Nat) : (whole p fuel s data).1.size = s.size := by
  induction fuel generalizing s data with
  | zero => rfl
  | succ fuel ih =>
    unfold whole
    split
    · exact ih
    · rfl

theorem whole_spec (hn : 0 < n) {fuel : Nat} (hfuel : data.length ≤ fuel) :
    (whole p fuel s data).2.length = data.length % n ∧
    ∀ t, (blocksOf n ((whole p fuel s data).2 ++ t)).foldl p (whole p fuel s data).1.derived =
      (blocksOf n (data ++ t)).foldl p s.derived := by
  induction fuel generalizing s data with
  | zero =>
    have hnil : data = [] := List.length_eq_zero_iff.mp (by omega)
    subst hnil
    exact ⟨by simp [whole], fun t => rfl⟩
  | succ fuel ih =>
    unfold whole
    split
    · rename_i hle
      have hdrop : (data.drop n).length = data.length - n := List.length_drop
      obtain ⟨hlen, hhash⟩ := ih (s := process p { s with block := ⟨data.take n, by simp [hle]⟩ })
        (hdrop.le.trans (by omega))
      refine ⟨by rw [hlen, hdrop, ← Nat.mod_eq_sub_mod hle], fun t => ?_⟩
      have hcut : data ++ t = data.take n ++ (data.drop n ++ t) := by
        rw [← List.append_assoc, List.take_append_drop]
      rw [hhash, hcut, blocksOf_append ⟨data.take n, by simp [hle]⟩ hn, List.foldl_cons]
      rfl
    · rename_i hlt
      exact ⟨(Nat.mod_eq_of_lt (not_le.mp hlt)).symm, fun t => rfl⟩

theorem rest_spec (hn : 0 < n) (h0 : s.size = 0) (data : List UInt8) :
    ∃ s', rest p s data = some s' ∧ s'.size = data.length % n ∧
      ∀ t, hashed p s' t = hashed p s (data ++ t) := by
  obtain ⟨hlen, hhash⟩ := whole_spec (p := p) (s := s) hn (le_refl data.length)
  have hsize : (whole p data.length s data).1.size = 0 := whole_size _ |>.trans h0
  have hlt := Nat.mod_lt data.length hn
  unfold rest hashed
  rw [pending_of_size h0]
  dsimp only
  split
  · obtain ⟨s', hs', hpending, hsize', hderived⟩ :=
      save_some (whole p data.length s data).1 _ (by rw [hsize, hlen]; omega)
    refine ⟨s', hs', by omega, fun t => ?_⟩
    rw [hpending, pending_of_size hsize, hderived, List.nil_append, List.nil_append, hhash]
  · rename_i hempty
    have hnil : (whole p data.length s data).2 = [] := List.length_eq_zero_iff.mp (by omega)
    refine ⟨_, rfl, by omega, fun t => ?_⟩
    rw [pending_of_size hsize, List.nil_append, List.nil_append, ← hhash, hnil, List.nil_append]

/-- A call that does not complete a begun block. -/
theorem feed_spec (hn : 0 < n) (hfit : s.size = 0 ∨ s.size + data.length < n) :
    ∃ s', feed p s data = some s' ∧ s'.size = (s.size + data.length) % n ∧
      ∀ t, hashed p s' t = hashed p s (data ++ t) := by
  unfold feed
  split
  · rename_i hpos
    have hlt : s.size + data.length < n := hfit.resolve_left (by omega)
    have hk : min s.needed data.length = data.length := by
      unfold needed
      omega
    obtain ⟨s', hs', hpending, hsize, hderived⟩ := save_some s data hlt.le
    refine ⟨s', ?_, by rw [hsize, Nat.mod_eq_of_lt hlt], fun t => ?_⟩
    · simp [hk, hs', hsize, hlt]
    · unfold hashed
      rw [hpending, hderived, List.append_assoc]
  · rename_i hpos
    have h0 : s.size = 0 := by omega
    obtain ⟨s', hs', hsize, hhash⟩ := rest_spec (p := p) hn h0 data
    exact ⟨s', hs', by rw [hsize, h0, Nat.zero_add], hhash⟩

theorem finish_spec (hn : 0 < n) (s : BlockStream n D) : (finish p s).derived = hashed p s [] := by
  unfold finish hashed
  rw [List.append_nil]
  split
  · rename_i hpos
    have hlen := s.length_pending
    rw [blocksOf_padded _ _ (by omega) (by have := s.size_le; omega)]
    · rfl
    · rw [hlen]
      simp [Block.copy, needed, pending, s.block.length_bytes, s.size_le]
  · rename_i hpos
    rw [pending_of_size (by omega), blocksOf_nil hn]
    rfl

end BlockStream

/-! ## All pieces of an input -/

/-- A call with a piece of `len` bytes, `fed` bytes after the beginning of the input, does not
complete a block that an earlier call began. -/
def fits (n fed len : Nat) : Bool := fed % n == 0 || decide (fed % n + len < n)

/-- No piece completes a block that an earlier one began. -/
def Fits (n : Nat) (pieces : List (List UInt8)) : Prop :=
  ∀ pre piece, pre ++ [piece] <+: pieces → fits n pre.flatten.length piece.length = true

namespace BlockStream

variable {n : Nat} {D : Type} {p : D → Block n → D} {s : BlockStream n D}
  {pieces : List (List UInt8)}

theorem fits_iff {fed len : Nat} (hsize : s.size = fed % n) :
    fits n fed len = true ↔ s.size = 0 ∨ s.size + len < n := by
  simp [fits, hsize]

/-- `Fits` as a condition on the steps of a run that counts the bytes. -/
def fitsFrom (n fed : Nat) (pieces : List (List UInt8)) : Bool :=
  along (fun fed (piece : List UInt8) => fed + piece.length)
    (fun fed piece => fits n fed piece.length) fed pieces

theorem fits_iff_fitsFrom (n : Nat) (pieces : List (List UInt8)) :
    Fits n pieces ↔ fitsFrom n 0 pieces = true := by
  have hfold (fed : Nat) (pre : List (List UInt8)) :
      pre.foldl (fun fed (piece : List UInt8) => fed + piece.length) fed =
        fed + pre.flatten.length := by
    induction pre generalizing fed with
    | nil => rfl
    | cons piece pre ih =>
      rw [List.foldl_cons, ih, List.flatten_cons, List.length_append]
      omega
  unfold fitsFrom
  rw [along_iff]
  simp only [hfold, Nat.zero_add, Fits]

theorem feedAll_cons {s₁ : BlockStream n D} {piece : List UInt8} (h : feed p s piece = some s₁) :
    feedAll p s (piece :: pieces) = feedAll p s₁ pieces := by
  unfold feedAll
  rw [List.foldlM_cons, h]
  rfl

theorem feedAll_spec (hn : 0 < n) {fed : Nat} (hsize : s.size = fed % n)
    (hfits : fitsFrom n fed pieces = true) :
    ∃ s', feedAll p s pieces = some s' ∧ s'.size < n ∧
      ∀ t, hashed p s' t = hashed p s (pieces.flatten ++ t) := by
  have hlt : s.size < n := hsize ▸ Nat.mod_lt fed hn
  induction pieces generalizing s fed with
  | nil => exact ⟨s, rfl, hlt, fun t => rfl⟩
  | cons piece pieces ih =>
    obtain ⟨hfit, hfits⟩ := Bool.and_eq_true_iff.mp hfits
    obtain ⟨s₁, hs₁, hsize₁, hhash₁⟩ := feed_spec (p := p) hn ((fits_iff hsize).mp hfit)
    have hfed : s₁.size = (fed + piece.length) % n := by
      rw [hsize₁, hsize, Nat.mod_add_mod]
    obtain ⟨s', hs', hlt', hhash'⟩ := ih hfed hfits (hfed ▸ Nat.mod_lt _ hn)
    refine ⟨s', (feedAll_cons hs₁).trans hs', hlt', fun t => ?_⟩
    rw [hhash', hhash₁, List.flatten_cons, List.append_assoc]

/-- The derived class of a stream that only notes the calls of `process_block`. -/
def record (calls : List (Block n)) (b : Block n) : List (Block n) := calls ++ [b]

theorem foldl_record (calls blocks : List (Block n)) :
    blocks.foldl record calls = calls ++ blocks := by
  induction blocks generalizing calls with
  | nil => rw [List.foldl_nil, List.append_nil]
  | cons b blocks ih => rw [List.foldl_cons, ih, record, List.append_assoc, List.singleton_append]

/-! ### After a completed block

From the first call on that completes a begun block, the calls of `process_block` run ahead of the
input: `finish` will add one that no byte of the input is behind. -/

/-- The stream holds a full block, and the calls so far cover all `fed` bytes. -/
def Ahead (fed : Nat) (s : BlockStream n (List (Block n))) : Prop :=
  s.size = n ∧ fed ≤ s.derived.length * n

variable {r r' : BlockStream n (List (Block n))} {data : List UInt8}

theorem rest_full (hn : 0 < n) (hfull : r.size = n) (h : rest record r data = some r') :
    r'.size = n ∧ r.derived.length * n + data.length ≤ r'.derived.length * n := by
  obtain ⟨-, hhash⟩ := whole_spec (p := record) (s := r) hn (le_refl data.length)
  have hsize : (whole record data.length r data).1.size = n := (whole_size _).trans hfull
  -- nothing can be left over: there is no room behind a full block
  have hnil : (whole record data.length r data).2 = [] ∧
      r' = (whole record data.length r data).1 := by
    unfold rest at h
    dsimp only at h
    split at h
    · rename_i hpos
      have hle := r'.size_le
      rw [size_of_save h, hsize] at hle
      omega
    · rename_i hempty
      cases h
      exact ⟨List.length_eq_zero_iff.mp (by omega), rfl⟩
  obtain ⟨hnil, rfl⟩ := hnil
  have hcalls := congrArg List.length (hhash [])
  rw [hnil, List.append_nil, List.append_nil, blocksOf_nil hn, List.foldl_nil, foldl_record,
    List.length_append] at hcalls
  have hcover := length_le_blocksOf hn data
  refine ⟨hsize, ?_⟩
  rw [hcalls, Nat.add_mul]
  omega

theorem feed_ahead (hn : 0 < n) (hpos : 0 < r.size) (hfull : n ≤ r.size + data.length)
    (h : feed record r data = some r') :
    Ahead (r.derived.length * n + r.size + data.length) r' := by
  have hle := r.size_le
  have hk : min r.needed data.length = n - r.size := by
    unfold needed
    omega
  unfold feed at h
  rw [if_pos hpos, hk] at h
  obtain ⟨r₁, hsave, h⟩ := Option.bind_eq_some_iff.mp h
  obtain ⟨r₂, hsave', -, hsize, hderived⟩ :=
    save_some r (data.take (n - r.size)) (by rw [List.length_take]; omega)
  rw [hsave] at hsave'
  cases hsave'
  rw [List.length_take] at hsize
  rw [if_neg (by omega)] at h
  obtain ⟨hsize', hcover⟩ := rest_full (r := process record r₁) hn (show r₁.size = n by omega) h
  refine ⟨hsize', ?_⟩
  have hcalls : (process record r₁).derived.length = r.derived.length + 1 := by
    simp [process, record, hderived]
  rw [hcalls, Nat.add_mul, List.length_drop] at hcover
  omega

theorem feedAll_cons_eq_some {piece : List UInt8}
    (h : feedAll record r (piece :: pieces) = some r') :
    ∃ r₁, feed record r piece = some r₁ ∧ feedAll record r₁ pieces = some r' := by
  unfold feedAll at h
  rw [List.foldlM_cons] at h
  exact Option.bind_eq_some_iff.mp h

theorem Ahead.feedAll {fed : Nat} (hn : 0 < n) (hr : Ahead fed r)
    (h : feedAll record r pieces = some r') : Ahead (fed + pieces.flatten.length) r' := by
  induction pieces generalizing r fed with
  | nil =>
    cases h
    exact hr
  | cons piece pieces ih =>
    obtain ⟨r₁, hfeed, hrest⟩ := feedAll_cons_eq_some h
    obtain ⟨hsize, hcover⟩ := hr
    obtain ⟨hsize₁, hcover₁⟩ := feed_ahead hn (by omega) (by omega) hfeed
    have hr₁ : Ahead (fed + piece.length) r₁ := ⟨hsize₁, by omega⟩
    rw [List.flatten_cons, List.length_append, ← Nat.add_assoc]
    exact ih hr₁ hrest

/-- A call that fits processes as many blocks as it completes. -/
theorem feed_count (hn : 0 < n) (hfit : r.size = 0 ∨ r.size + data.length < n)
    (h : feed record r data = some r') :
    r'.derived.length * n + r'.size = r.derived.length * n + r.size + data.length := by
  obtain ⟨r₁, hr₁, hsize, hhash⟩ := feed_spec (p := record) hn hfit
  rw [h] at hr₁
  cases hr₁
  have hcalls := congrArg List.length (hhash [])
  unfold hashed at hcalls
  simp only [foldl_record, List.length_append, length_blocksOf, length_pending, List.length_nil,
    Nat.add_zero] at hcalls
  have hdiv : (r.size + data.length + n - 1) / n =
      (r.size + data.length) / n + (r'.size + n - 1) / n := by
    have hsplit : r.size + data.length + n - 1 =
        (r'.size + n - 1) + n * ((r.size + data.length) / n) := by
      have := Nat.div_add_mod (r.size + data.length) n
      omega
    rw [hsplit, Nat.add_mul_div_left _ _ hn, Nat.add_comm]
  have hderived : r'.derived.length = r.derived.length + (r.size + data.length) / n := by omega
  have hmod := Nat.div_add_mod' (r.size + data.length) n
  rw [hderived, Nat.add_mul]
  omega

/-- A run in which some piece does not fit ends ahead of its input. -/
theorem ahead_of_not_fits (hn : 0 < n) {fed : Nat} (hsize : r.size = fed % n)
    (hcount : r.derived.length * n + r.size = fed) (hno : fitsFrom n fed pieces = false)
    (h : feedAll record r pieces = some r') : Ahead (fed + pieces.flatten.length) r' := by
  induction pieces generalizing r fed with
  | nil => cases hno
  | cons piece pieces ih =>
    obtain ⟨r₁, hfeed, hrest⟩ := feedAll_cons_eq_some h
    rw [List.flatten_cons, List.length_append, ← Nat.add_assoc]
    by_cases hfit : r.size = 0 ∨ r.size + piece.length < n
    · obtain ⟨r₂, hr₂, hsize₁, -⟩ := feed_spec (p := record) hn hfit
      rw [hfeed] at hr₂
      cases hr₂
      refine ih ?_ (by rw [feed_count hn hfit hfeed, hcount]) ?_ hrest
      · rw [hsize₁, hsize, Nat.mod_add_mod]
      · have hand : (fits n fed piece.length && fitsFrom n (fed + piece.length) pieces) = false :=
          hno
        rwa [(fits_iff hsize).mpr hfit, Bool.true_and] at hand
    · have hr₁ := feed_ahead hn (by omega) (by omega) hfeed
      rw [hcount] at hr₁
      exact hr₁.feedAll hn hrest

end BlockStream

open BlockStream

/-- The calls of `process_block` for the pieces of an input, up to the one of `finish`. -/
def calls {n : Nat} (b : Block n) (pieces : List (List UInt8)) : Option (List (Block n)) :=
  (feedAll record (new b []) pieces).map fun s => (finish record s).derived

/-- The stream works on the pieces as on the whole input: each call stays inside `m_block` and
leaves `m_size < sizeof(Block)`, and the calls of `process_block` are those for the blocks of the
input. -/
structure Streams {n : Nat} (b : Block n) (pieces : List (List UInt8)) : Prop where
  inside : ∀ pre, pre <+: pieces → ∃ s, feedAll record (new b []) pre = some s ∧ s.size < n
  calls_eq : calls b pieces = some (blocksOf n pieces.flatten)

theorem new_size {n : Nat} {D : Type} (b : Block n) (d : D) : (new b d).size = 0 % n :=
  (Nat.zero_mod n).symm

/-- What a derived class computes from pieces that fit. -/
theorem finish_of_fits {n : Nat} {D : Type} (p : D → Block n → D) (hn : 0 < n) (b : Block n) (d : D)
    {pieces : List (List UInt8)} (hfits : fitsFrom n 0 pieces = true) :
    (feedAll p (new b d) pieces).map (fun s => (finish p s).derived) =
      some ((blocksOf n pieces.flatten).foldl p d) := by
  obtain ⟨s, hs, -, hhash⟩ := feedAll_spec (p := p) hn (new_size b d) hfits
  rw [hs, Option.map_some, finish_spec hn, hhash, hashed, pending_of_size rfl, List.append_nil,
    List.nil_append]
  rfl

/-- The calls of `process_block` are those for the whole input only when every piece fits: otherwise
there are too many. -/
theorem fits_of_calls_eq {n : Nat} (hn : 0 < n) {b : Block n} {pieces : List (List UInt8)}
    (h : calls b pieces = some (blocksOf n pieces.flatten)) : fitsFrom n 0 pieces = true := by
  by_contra hno
  obtain ⟨s, hs, hcalls⟩ := Option.map_eq_some_iff.mp h
  obtain ⟨hsize, hcover⟩ := ahead_of_not_fits hn (new_size b []) (by simp [new])
    (by simpa using hno) hs
  have hfinish : (finish record s).derived.length = s.derived.length + 1 := by
    unfold finish
    rw [if_pos (by omega)]
    simp [process, record]
  have hlt := blocksOf_mul_lt hn pieces.flatten
  rw [← hcalls, hfinish, Nat.add_mul] at hlt
  omega

theorem streams_iff {n : Nat} (hn : 0 < n) (b : Block n) (pieces : List (List UInt8)) :
    Streams b pieces ↔ Fits n pieces := by
  rw [fits_iff_fitsFrom]
  constructor
  · intro h
    exact fits_of_calls_eq hn h.calls_eq
  · intro hfits
    refine ⟨fun pre hpre => ?_, ?_⟩
    · obtain ⟨s, hs, hlt, -⟩ :=
        feedAll_spec (p := record) hn (new_size b []) (along_of_isPrefix hpre hfits)
      exact ⟨s, hs, hlt⟩
    · have hcalls := finish_of_fits record hn b [] hfits
      rwa [foldl_record, List.nil_append] at hcalls

def zeroBlock (n : Nat) : Block n := ⟨List.replicate n 0, List.length_replicate⟩

theorem streams_three_pieces :
    Streams (zeroBlock 8) [[1, 2, 3, 4, 5, 6, 7, 8], [9, 10], [11]] :=
  (streams_iff (by decide) (zeroBlock 8) _).mpr ((fits_iff_fitsFrom 8 _).mpr (by decide))

/-- Eight bytes in one piece, and the same bytes as one and then seven: the block is processed by
the second call and again by `finish`. With one byte more that call leaves `m_block`. -/
theorem block_processed_twice :
    calls (zeroBlock 8) [[1, 2, 3, 4, 5, 6, 7, 8]] = some [⟨[1, 2, 3, 4, 5, 6, 7, 8], rfl⟩] ∧
    calls (zeroBlock 8) [[1], [2, 3, 4, 5, 6, 7, 8]] =
      some [⟨[1, 2, 3, 4, 5, 6, 7, 8], rfl⟩, ⟨[1, 2, 3, 4, 5, 6, 7, 8], rfl⟩] ∧
    calls (zeroBlock 8) [[1], [2, 3, 4, 5, 6, 7, 8, 9]] = none ∧
    ¬ Streams (zeroBlock 8) [[1], [2, 3, 4, 5, 6, 7, 8]] := by
  refine ⟨by decide, by decide, by decide, fun h => ?_⟩
  exact absurd h.calls_eq (by decide)

end Metcalfe.Beast
