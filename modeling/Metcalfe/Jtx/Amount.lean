import Metcalfe.Library.Integral

/-!
# Amounts of M

`M(v)` multiplies `v` by the number of drops in an M. The factor is a constant of the type of `v`,
the product is formed in 64 bits, and `PrettyAmount` splits the sign off.

`PrettyAmount`'s constructors take only types at least as wide as `int`. In these the factor is a
million, and `M(v)` is `v` million drops. `M_t::operator()` itself takes every integral type, and
the product it hands on is of 64 bits whatever the type was; in `bool` and in a type of one or two
bytes the factor is another number, and `M(v)` is `v` million drops only for zero (`denotes_iff`).

Not modelled: `operator()(double)`, and the name of an amount, which is empty here.
-/

namespace Metcalfe.Jtx

open Integral

/-- `STAmount`, as far as amounts of drops go: the constructor from a mantissa and a sign, the
comparison, and the number of drops that an amount stands for. -/
structure StAmount where
  Amount : Type
  make : UInt64 → Bool → Amount
  equal : Amount → Amount → Bool
  drops : Amount → Int
  drops_make : ∀ mantissa negative,
    drops (make mantissa negative) = if negative then -(mantissa.toNat : Int) else mantissa.toNat
  equal_make : ∀ m n m' n',
    equal (make m n) (make m' n') = true ↔ drops (make m n) = drops (make m' n')

/-- `dropsPerM<T>::value`. -/
def dropsPerM (t : Ty) : Int := t.convert 1000000

/-- `std::conditional_t<std::is_signed<T>::value, std::int64_t, std::uint64_t>`. -/
def wide (t : Ty) : Ty := .int t.signed .eight

/-- `(v > 0) ? v : -v`. -/
def magnitude (t : Ty) (v : Int) : Option Int := if v > 0 then some v else t.result (-v)

/-- The constructors of `PrettyAmount` from an integer of type `t`. -/
def prettyAmount (st : StAmount) (t : Ty) (v : Int) : Option st.Amount :=
  if t.signed then
    (magnitude t v).map fun mantissa => st.make (UInt64.ofInt mantissa) (decide (v < 0))
  else some (st.make (UInt64.ofInt v) false)

/-- `M_t::operator()`. -/
def mAmount (st : StAmount) (t : Ty) (v : Int) : Option st.Amount := do
  let product ← (wide t).result (v * dropsPerM t)
  prettyAmount st (wide t) product

/-- What the constructors of `PrettyAmount` ask of an integral type. -/
def PrettyAccepts (t : Ty) : Prop := t.sizeof ≥ Size.four.bytes

instance (t : Ty) : Decidable (PrettyAccepts t) := inferInstanceAs (Decidable (_ ≥ _))

variable {st : StAmount} {t u : Ty} {v : Int}

theorem toNat_ofInt {x : Int} (h0 : 0 ≤ x) (h1 : x < 2 ^ 64) :
    ((UInt64.ofInt x).toNat : Int) = x := by
  unfold UInt64.ofInt
  rw [Int.emod_eq_of_lt h0 h1, UInt64.toNat_ofNat_of_lt' (by simp [UInt64.size]; omega)]
  exact Int.toNat_of_nonneg h0

theorem holds_wide_signed (hs : t.signed = true) {p : Int} :
    (wide t).Holds p ↔ -2 ^ 63 ≤ p ∧ p < 2 ^ 63 := by
  show (if t.signed then _ else _) ↔ _
  rw [if_pos hs]
  show -(2 ^ 64 : Int) ≤ 2 * p ∧ 2 * p < 2 ^ 64 ↔ _
  omega

theorem holds_wide_unsigned (hs : t.signed = false) {p : Int} :
    (wide t).Holds p ↔ 0 ≤ p ∧ p < 2 ^ 64 := by
  show (if t.signed then _ else _) ↔ _
  rw [if_neg (by simp [hs])]
  exact Iff.rfl

/-- A number of drops that its 64-bit type holds, and that can be negated in it. -/
theorem drops_prettyAmount (st : StAmount) {p : Int} (h : (wide t).Holds p) (hmin : p ≠ -2 ^ 63) :
    ∃ m n, prettyAmount st (wide t) p = some (st.make m n) ∧ st.drops (st.make m n) = p := by
  have hsigned : (wide t).signed = t.signed := rfl
  unfold prettyAmount
  rw [hsigned]
  cases hs : t.signed with
  | false =>
    obtain ⟨h0, h1⟩ := (holds_wide_unsigned hs).mp h
    refine ⟨UInt64.ofInt p, false, rfl, ?_⟩
    rw [st.drops_make]
    exact toNat_ofInt h0 h1
  | true =>
    obtain ⟨h0, h1⟩ := (holds_wide_signed hs).mp h
    by_cases hpos : p > 0
    · refine ⟨UInt64.ofInt p, decide (p < 0), by simp [magnitude, hpos], ?_⟩
      rw [st.drops_make, if_neg (by simp; omega)]
      exact toNat_ofInt (by omega) (by omega)
    · -- The negation is the only operation that can overflow here.
      have hneg : (wide t).result (-p) = some (-p) :=
        Ty.result_of_holds ((holds_wide_signed hs).mpr ⟨by omega, by omega⟩)
      refine ⟨UInt64.ofInt (-p), decide (p < 0), by simp [magnitude, hpos, hneg], ?_⟩
      have hnat := toNat_ofInt (x := -p) (by omega) (by omega)
      rw [st.drops_make, hnat]
      split
      · exact neg_neg p
      · rename_i hzero
        rw [decide_eq_true_eq] at hzero
        omega

/-- The amount is the product, when that is an exact one. -/
theorem drops_mAmount (st : StAmount) (h : (wide t).Holds (v * dropsPerM t))
    (hmin : v * dropsPerM t ≠ -2 ^ 63) :
    ∃ m n, mAmount st t v = some (st.make m n) ∧ st.drops (st.make m n) = v * dropsPerM t := by
  obtain ⟨m, n, hp, hdrops⟩ := drops_prettyAmount st h hmin
  refine ⟨m, n, ?_, hdrops⟩
  unfold mAmount
  rw [Ty.result_of_holds h]
  exact hp

/-- A type that does not hold a million has at most two bytes. -/
theorem small_of_not_holds (ht : ¬ t.Holds 1000000) {x : Int} (hx : t.Holds x) :
    -2 ^ 15 ≤ x ∧ x < 2 ^ 16 ∧ (t.signed = false → 0 ≤ x) := by
  cases t with
  | bool =>
    obtain ⟨h0, h1⟩ : 0 ≤ x ∧ x < 2 := hx
    omega
  | int s size =>
    cases s with
    | true =>
      cases size with
      | one =>
        obtain ⟨h0, h1⟩ : -256 ≤ 2 * x ∧ 2 * x < 256 := hx
        exact ⟨by omega, by omega, nofun⟩
      | two =>
        obtain ⟨h0, h1⟩ : -65536 ≤ 2 * x ∧ 2 * x < 65536 := hx
        exact ⟨by omega, by omega, nofun⟩
      | four => exact absurd (by decide) ht
      | eight => exact absurd (by decide) ht
    | false =>
      cases size with
      | one =>
        obtain ⟨h0, h1⟩ : 0 ≤ x ∧ x < 256 := hx
        omega
      | two =>
        obtain ⟨h0, h1⟩ : 0 ≤ x ∧ x < 65536 := hx
        omega
      | four => exact absurd (by decide) ht
      | eight => exact absurd (by decide) ht

/-- In such a type the product is exact, of the wrong factor. -/
theorem holds_product_of_not_holds (ht : ¬ t.Holds 1000000) (hv : t.Holds v) :
    (wide t).Holds (v * dropsPerM t) ∧ v * dropsPerM t ≠ -2 ^ 63 := by
  obtain ⟨hv0, hv1, hvs⟩ := small_of_not_holds ht hv
  obtain ⟨hc0, hc1, hcs⟩ := small_of_not_holds ht (t.holds_convert 1000000)
  have hlo : -2 ^ 32 ≤ v * dropsPerM t := by
    unfold dropsPerM
    nlinarith
  have hhi : v * dropsPerM t < 2 ^ 33 := by
    unfold dropsPerM
    nlinarith
  refine ⟨?_, by omega⟩
  cases hs : t.signed with
  | true => exact (holds_wide_signed hs).mpr ⟨by omega, by omega⟩
  | false => exact (holds_wide_unsigned hs).mpr ⟨mul_nonneg (hvs hs) (hcs hs), by omega⟩

/-- The number of drops of a magnitude and a sign. -/
def signedDrops (m : UInt64) (n : Bool) : Int := if n then -(m.toNat : Int) else m.toNat

theorem signedDrops_zero_sign (m : UInt64) (n : Bool) :
    signedDrops m (m != 0 && n) = signedDrops m n := by
  by_cases hm : m = 0
  · subst hm
    cases n <;> rfl
  · rw [bne_iff_ne.mpr hm, Bool.true_and]

theorem signedDrops_inj {m m' : UInt64} {n n' : Bool} :
    signedDrops m n = signedDrops m' n' ↔ (m, m != 0 && n) = (m', m' != 0 && n') := by
  constructor
  · intro h
    have hm : m = m' := by
      apply UInt64.toNat_inj.mp
      unfold signedDrops at h
      split at h <;> split at h <;> omega
    subst hm
    by_cases hzero : m = 0
    · simp [hzero]
    · have hpos : m.toNat ≠ 0 := fun h0 => hzero (UInt64.toNat_inj.mp h0)
      have hn : n = n' := by
        unfold signedDrops at h
        cases n with
        | false => cases n' with
          | false => rfl
          | true => simp at h; omega
        | true => cases n' with
          | false => simp at h; omega
          | true => rfl
      rw [hn]
  · intro h
    rw [← signedDrops_zero_sign m n, ← signedDrops_zero_sign m' n']
    exact congrArg (fun a : UInt64 × Bool => signedDrops a.1 a.2) h

/-- Amounts of drops as a magnitude and a sign; zero has no sign. -/
def nativeAmount : StAmount where
  Amount := UInt64 × Bool
  make m n := (m, m != 0 && n)
  equal a b := a == b
  drops a := signedDrops a.1 a.2
  drops_make := signedDrops_zero_sign
  equal_make := by
    intro m n m' n'
    rw [beq_iff_eq, signedDrops_zero_sign, signedDrops_zero_sign]
    exact signedDrops_inj.symm

/-- `M(v)` is an amount of `v` million drops, with the sign of `v`. -/
def Denotes (st : StAmount) (t : Ty) (v : Int) : Prop :=
  ∃ a, mAmount st t v = some a ∧ st.drops a = v * 1000000 ∧ (st.drops a).sign = v.sign

theorem sign_mul_million (v : Int) : (v * 1000000).sign = v.sign := by
  rw [Int.sign_mul]
  exact mul_one _

theorem denotes_iff (st : StAmount) (hv : t.Holds v) (hfit : (wide t).Holds (v * 1000000)) :
    Denotes st t v ↔ v = 0 ∨ t.Holds 1000000 := by
  by_cases ht : t.Holds 1000000
  · have hfactor : dropsPerM t = 1000000 := Ty.convert_of_holds ht
    obtain ⟨m, n, hm, hdrops⟩ := drops_mAmount (t := t) (v := v) st (by rwa [hfactor])
      (by rw [hfactor]; omega)
    rw [hfactor] at hdrops
    refine iff_of_true ⟨_, hm, hdrops, ?_⟩ (.inr ht)
    rw [hdrops, sign_mul_million]
  · obtain ⟨hexact, hmin⟩ := holds_product_of_not_holds ht hv
    obtain ⟨m, n, hm, hdrops⟩ := drops_mAmount st hexact hmin
    have hfactor : dropsPerM t ≠ 1000000 := fun h => ht (Ty.convert_eq_self_iff.mp h)
    constructor
    · intro h
      obtain ⟨a, ha, hmillion, -⟩ := h
      rw [hm, Option.some.injEq] at ha
      rw [← ha, hdrops] at hmillion
      by_contra hnot
      rw [not_or] at hnot
      exact hfactor (mul_left_cancel₀ hnot.1 hmillion)
    · intro h
      have hzero : v = 0 := h.resolve_right ht
      refine ⟨_, hm, ?_, ?_⟩
      · rw [hdrops, hzero, zero_mul, zero_mul]
      · rw [hdrops, hzero, zero_mul]

/-- `M(short(1))`. -/
example : mAmount nativeAmount (.int true .two) 1 = some (nativeAmount.make 16960 false) := rfl

/-- The two amounts are of `v` million drops and compare equal. -/
def SameMillions (st : StAmount) (t u : Ty) (v : Int) : Prop :=
  Denotes st t v ∧ Denotes st u v ∧
    ∃ a b, mAmount st t v = some a ∧ mAmount st u v = some b ∧ st.equal a b = true

/-- What `mAmount` returns was made from a mantissa and a sign. -/
theorem exists_make {a : st.Amount} (h : mAmount st t v = some a) : ∃ m n, a = st.make m n := by
  unfold mAmount prettyAmount at h
  obtain ⟨p, -, h⟩ := Option.bind_eq_some_iff.mp h
  split at h
  · obtain ⟨m, -, h⟩ := Option.map_eq_some_iff.mp h
    exact ⟨_, _, h.symm⟩
  · exact ⟨_, _, (Option.some.inj h).symm⟩

/-- An `int` holds a million, and nothing narrower does. -/
theorem holds_million_iff (t : Ty) : t.Holds 1000000 ↔ PrettyAccepts t := by
  cases t with
  | bool => decide
  | int s size => cases s <;> cases size <;> decide

/-- In the types that `PrettyAmount` accepts, `M(v)` is `v` million drops, and equal numbers give
equal amounts. -/
theorem sameMillions_of_accepted (st : StAmount) (ht : PrettyAccepts t) (hu : PrettyAccepts u)
    (hvt : t.Holds v) (hvu : u.Holds v) (hfit : (wide t).Holds (v * 1000000))
    (hfit' : (wide u).Holds (v * 1000000)) : SameMillions st t u v := by
  have hdt : Denotes st t v := (denotes_iff st hvt hfit).mpr (.inr ((holds_million_iff t).mpr ht))
  have hdu : Denotes st u v := (denotes_iff st hvu hfit').mpr (.inr ((holds_million_iff u).mpr hu))
  have ⟨a, ha, hdrops, _⟩ := hdt
  have ⟨b, hb, hdrops', _⟩ := hdu
  refine ⟨hdt, hdu, a, b, ha, hb, ?_⟩
  obtain ⟨m, n, rfl⟩ := exists_make ha
  obtain ⟨m', n', rfl⟩ := exists_make hb
  rw [st.equal_make, hdrops, hdrops']

/-- `M(1000)` and `M(1000ull)`. -/
theorem sameMillions_int_unsigned :
    SameMillions nativeAmount (.int true .four) (.int false .eight) 1000 :=
  sameMillions_of_accepted nativeAmount (by decide) (by decide) (by decide) (by decide) (by decide)
    (by decide)

end Metcalfe.Jtx
