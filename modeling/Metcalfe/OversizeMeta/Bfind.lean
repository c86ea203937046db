import Metcalfe.Library.Search
import Mathlib.Order.Bounds.Basic

/-!
# The search of `FindOversizeCross_test`

`bfind` looks for the least number of offers at which a crossing becomes too large. It works on
`size_t`, with a lower end that moves and a length that shrinks; its result is the threshold of
`Search`, of which each of its rounds is a round as long as the range lies below `2^64`.

The rounds are kept beside the result, so that the points at which the predicate is evaluated
and the operands of every operation can be spoken of.
-/

namespace Metcalfe.OversizeMeta

open Search

/-- The variables of `bfind` at the head of its loop. -/
structure Round where
  lo : UInt64
  len : UInt64

namespace Round

def l2 (r : Round) : UInt64 := r.len / 2

/-- Where the predicate is evaluated. -/
def m (r : Round) : UInt64 := r.lo + r.l2

/-- The operations of a round give the numbers they stand for. -/
structure Exact (r : Round) : Prop where
  mid : r.m.toNat = r.lo.toNat + r.l2.toNat
  next : (r.m + 1).toNat = r.m.toNat + 1
  step : (r.l2 + 1).toNat = r.l2.toNat + 1
  rest : (r.len - (r.l2 + 1)).toNat + (r.l2.toNat + 1) = r.len.toNat

theorem toNat_l2 (r : Round) : r.l2.toNat = r.len.toNat / 2 := UInt64.toNat_div _ _

theorem toNat_l2_succ (r : Round) : (r.l2 + 1).toNat = r.l2.toNat + 1 := by
  have hl2 := r.toNat_l2
  have hlen := r.len.toNat_lt
  rw [UInt64.toNat_add]
  exact Nat.mod_eq_of_lt (by simp; omega)

theorem toNat_rest {r : Round} (h : r.len ≠ 0) :
    (r.len - (r.l2 + 1)).toNat + (r.l2.toNat + 1) = r.len.toNat := by
  have hl2 := r.toNat_l2
  have hstep := r.toNat_l2_succ
  have hpos : r.len.toNat ≠ 0 := fun h0 => h (UInt64.toNat_inj.mp h0)
  have hle : r.l2 + 1 ≤ r.len := by
    rw [UInt64.le_iff_toNat_le]
    omega
  rw [UInt64.toNat_sub_of_le _ _ hle, hstep]
  omega

/-- A round on a range that ends at `hi` or before. -/
theorem exact_of_le {r : Round} {hi : UInt64} (hlen : r.len ≠ 0)
    (h : r.lo.toNat + r.len.toNat ≤ hi.toNat) : r.Exact ∧ r.m.toNat < hi.toNat := by
  have hhi := hi.toNat_lt
  have hl2 := r.toNat_l2
  have hrest := toNat_rest hlen
  have hmid : r.m.toNat = r.lo.toNat + r.l2.toNat := by
    unfold m
    rw [UInt64.toNat_add]
    exact Nat.mod_eq_of_lt (by omega)
  have hnext : (r.m + 1).toNat = r.m.toNat + 1 := by
    rw [UInt64.toNat_add]
    exact Nat.mod_eq_of_lt (by simp; omega)
  exact ⟨⟨hmid, hnext, r.toNat_l2_succ, hrest⟩, by omega⟩

end Round

/-- The loop of `bfind`: its rounds and the value of `lo` behind it. -/
def bfindLoop (f : UInt64 → Bool) (lo len : UInt64) : List Round × UInt64 :=
  if len = 0 then ([], lo)
  else
    let r : Round := ⟨lo, len⟩
    if !f r.m then
      let out := bfindLoop f (r.m + 1) (len - (r.l2 + 1))
      (r :: out.1, out.2)
    else
      let out := bfindLoop f lo r.l2
      (r :: out.1, out.2)
termination_by len.toNat
decreasing_by
  · have hrest := Round.toNat_rest (r := ⟨lo, len⟩) ‹_›
    dsimp only at hrest ⊢
    omega
  · have hrest := Round.toNat_rest (r := ⟨lo, len⟩) ‹_›
    have hl2 := Round.toNat_l2 ⟨lo, len⟩
    dsimp only at hrest hl2 ⊢
    omega

def bfind (lo hi : UInt64) (f : UInt64 → Bool) : UInt64 := (bfindLoop f lo (hi - lo)).2

/-- The rounds of `bfind(lo, hi, f)`. -/
def bfindRounds (lo hi : UInt64) (f : UInt64 → Bool) : List Round := (bfindLoop f lo (hi - lo)).1

variable {f : UInt64 → Bool} {lo hi len : UInt64}

/-- Every round evaluates the predicate in the range and computes without wrapping. -/
theorem bfindLoop_rounds (h : lo.toNat + len.toNat ≤ hi.toNat) :
    ∀ r ∈ (bfindLoop f lo len).1, lo ≤ r.m ∧ r.m < hi ∧ r.Exact := by
  fun_induction bfindLoop f lo len with
  | case1 lo => simp
  | case2 lo len hlen r hf out ih =>
    obtain ⟨hexact, hlt⟩ := Round.exact_of_le (r := r) hlen h
    have hmid : r.m.toNat = lo.toNat + r.l2.toNat := hexact.mid
    have hnext := hexact.next
    have hrest : (len - (r.l2 + 1)).toNat + (r.l2.toNat + 1) = len.toNat := hexact.rest
    intro r' hr'
    rcases List.mem_cons.mp hr' with rfl | hr'
    · exact ⟨UInt64.le_iff_toNat_le.mpr (by omega), UInt64.lt_iff_toNat_lt.mpr hlt, hexact⟩
    · obtain ⟨hle, hlt', hexact'⟩ := ih (by omega) r' hr'
      rw [UInt64.le_iff_toNat_le] at hle ⊢
      exact ⟨by omega, hlt', hexact'⟩
  | case3 lo len hlen r hf out ih =>
    obtain ⟨hexact, hlt⟩ := Round.exact_of_le (r := r) hlen h
    have hmid : r.m.toNat = lo.toNat + r.l2.toNat := hexact.mid
    have hl2 : r.l2.toNat = len.toNat / 2 := r.toNat_l2
    intro r' hr'
    rcases List.mem_cons.mp hr' with rfl | hr'
    · exact ⟨UInt64.le_iff_toNat_le.mpr (by omega), UInt64.lt_iff_toNat_lt.mpr hlt, hexact⟩
    · exact ih (by omega) r' hr'

/-- The indexes that the search excludes: those before `start`, and those where `f` fails. -/
def below (f : UInt64 → Bool) (start : UInt64) (i : Nat) : Bool :=
  decide (i < start.toNat) || !f (UInt64.ofNat i)

theorem below_toNat {start x : UInt64} (h : start ≤ x) : below f start x.toNat = !f x := by
  rw [UInt64.le_iff_toNat_le] at h
  simp [below, h]

/-- A round of the loop asks what the same round of the search asks. -/
theorem below_mid {start : UInt64} {r : Round} (hstart : start.toNat ≤ r.lo.toNat)
    (hexact : r.Exact) : below f start (r.lo.toNat + r.len.toNat / 2) = !f r.m := by
  have hmid := hexact.mid
  rw [← r.toNat_l2, ← hmid]
  exact below_toNat (UInt64.le_iff_toNat_le.mpr (by omega))

/-- The loop is the search on natural numbers. -/
theorem bfindLoop_eq_lowerBound {start : UInt64} (hstart : start ≤ lo)
    (h : lo.toNat + len.toNat ≤ hi.toNat) :
    ∀ fuel, len.toNat ≤ fuel →
      (bfindLoop f lo len).2.toNat = lowerBound (below f start) fuel lo.toNat len.toNat := by
  rw [UInt64.le_iff_toNat_le] at hstart
  fun_induction bfindLoop f lo len with
  | case1 lo =>
    intro fuel _
    cases fuel with
    | zero => rfl
    | succ fuel => rw [lowerBound, if_pos UInt64.toNat_zero]
  | case2 lo len hlen r hf out ih =>
    intro fuel hfuel
    obtain ⟨hexact, hlt⟩ := Round.exact_of_le (r := r) hlen h
    have hpos : len.toNat ≠ 0 := fun h0 => hlen (UInt64.toNat_inj.mp h0)
    have hmid : r.m.toNat = lo.toNat + r.l2.toNat := hexact.mid
    have hnext := hexact.next
    have hl2 : r.l2.toNat = len.toNat / 2 := r.toNat_l2
    have hrest : (len - (r.l2 + 1)).toNat + (r.l2.toNat + 1) = len.toNat := hexact.rest
    have hbelow : below f start (lo.toNat + len.toNat / 2) = true :=
      (below_mid (r := r) hstart hexact).trans hf
    cases fuel with
    | zero => omega
    | succ fuel =>
      rw [lowerBound, if_neg hpos]
      simp only [hbelow, if_true]
      rw [ih (by omega) (by omega) fuel (by omega), hnext, hmid, hl2]
      congr 1
      omega
  | case3 lo len hlen r hf out ih =>
    intro fuel hfuel
    obtain ⟨hexact, hlt⟩ := Round.exact_of_le (r := r) hlen h
    have hpos : len.toNat ≠ 0 := fun h0 => hlen (UInt64.toNat_inj.mp h0)
    have hl2 : r.l2.toNat = len.toNat / 2 := r.toNat_l2
    have hbelow : below f start (lo.toNat + len.toNat / 2) = false :=
      (below_mid (r := r) hstart hexact).trans (Bool.not_eq_true _ ▸ hf)
    cases fuel with
    | zero => omega
    | succ fuel =>
      rw [lowerBound, if_neg hpos]
      simp only [hbelow]
      rw [ih hstart (by omega) fuel (by omega), hl2]
      rfl

/-- Once true, the predicate stays true on `[lo, hi)`. -/
def MonoOn (f : UInt64 → Bool) (lo hi : UInt64) : Prop :=
  ∀ x y, lo ≤ x → x ≤ y → y < hi → f x = true → f y = true

/-- `bfind` is the threshold of the predicate. -/
theorem bfind_spec (h : lo ≤ hi) (hmono : MonoOn f lo hi) :
    Threshold (below f lo) hi.toNat (bfind lo hi f).toNat := by
  have hle := UInt64.le_iff_toNat_le.mp h
  have hlen : (hi - lo).toNat = hi.toNat - lo.toNat := UInt64.toNat_sub_of_le _ _ h
  have hhi := hi.toNat_lt
  have hsum : lo.toNat + (hi - lo).toNat = hi.toNat := by omega
  unfold bfind
  rw [bfindLoop_eq_lowerBound UInt64.le_rfl hsum.le _ le_rfl]
  refine lowerBound_threshold (fun i j hij hj hbelow => ?_) ⟨hsum.le, ?_, ?_⟩ le_rfl
  · -- In terms of indexes: where the predicate fails, it fails before.
    simp only [below, Bool.or_eq_true, decide_eq_true_eq, Bool.not_eq_true'] at hbelow ⊢
    by_cases hi' : i < lo.toNat
    · exact .inl hi'
    · refine .inr ?_
      by_contra htrue
      rw [Bool.not_eq_false] at htrue
      have hj64 : (UInt64.ofNat j).toNat = j := UInt64.toNat_ofNat_of_lt' (hj.trans hhi)
      have hi64 : (UInt64.ofNat i).toNat = i :=
        UInt64.toNat_ofNat_of_lt' ((hij.trans_lt hj).trans hhi)
      have hfj := hmono (UInt64.ofNat i) (UInt64.ofNat j)
        (by rw [UInt64.le_iff_toNat_le, hi64]; omega)
        (by rw [UInt64.le_iff_toNat_le, hi64, hj64]; omega)
        (by rw [UInt64.lt_iff_toNat_lt, hj64]; omega) htrue
      rcases hbelow with hlt | hfalse
      · omega
      · rw [hfj] at hfalse
        cases hfalse
  · intro i hi'
    simp [below, hi']
  · intro i hi' hin
    omega

theorem bfind_threshold (h : lo ≤ hi) (hmono : MonoOn f lo hi) :
    (IsLeast {x | lo ≤ x ∧ x < hi ∧ f x = true} (bfind lo hi f) ∨
        (∀ x, lo ≤ x → x < hi → f x = false) ∧ bfind lo hi f = hi) ∧
      (hi - lo).toNat = hi.toNat - lo.toNat ∧
      ∀ r ∈ bfindRounds lo hi f, lo ≤ r.m ∧ r.m < hi ∧ r.Exact := by
  have hlen : (hi - lo).toNat = hi.toNat - lo.toNat := UInt64.toNat_sub_of_le _ _ h
  have hle := UInt64.le_iff_toNat_le.mp h
  obtain ⟨hbound, hleft, hright⟩ := bfind_spec h hmono
  refine ⟨?_, hlen, bfindLoop_rounds (by omega)⟩
  have hlow : lo ≤ bfind lo hi f := by
    rw [UInt64.le_iff_toNat_le]
    by_contra hlt
    have hb := hright _ le_rfl (by omega)
    simp [below, not_le.mp hlt] at hb
  have hbefore : ∀ x, lo ≤ x → x < bfind lo hi f → f x = false := by
    intro x hx hlt
    have hb := hleft x.toNat (UInt64.lt_iff_toNat_lt.mp hlt)
    rw [below_toNat hx] at hb
    simpa using hb
  by_cases hend : bfind lo hi f = hi
  · refine .inr ⟨fun x hx hlt => hbefore x hx ?_, hend⟩
    rw [hend]
    exact hlt
  · have hlt : bfind lo hi f < hi := by
      rw [UInt64.lt_iff_toNat_lt]
      exact lt_of_le_of_ne hbound fun heq => hend (UInt64.toNat_inj.mp heq)
    have hb := hright _ le_rfl (UInt64.lt_iff_toNat_lt.mp hlt)
    rw [below_toNat hlow, Bool.not_eq_false'] at hb
    refine .inl ⟨⟨hlow, hlt, hb⟩, fun x hx => ?_⟩
    obtain ⟨hx, -, hfx⟩ := hx
    by_contra hnot
    rw [hbefore x hx (UInt64.not_le.mp hnot)] at hfx
    cases hfx

/-- The range that `run` searches, when 1500 offers are the least that are too many. -/
theorem bfind_threshold_offers :
    (100 : UInt64) ≤ 9000 ∧ MonoOn (fun n => decide (1500 ≤ n)) 100 9000 ∧
      bfind 100 9000 (fun n => decide (1500 ≤ n)) = 1500 := by
  have hmono : MonoOn (fun n => decide (1500 ≤ n)) 100 9000 := by
    intro x y _ hxy _ hx
    rw [decide_eq_true_eq] at hx ⊢
    exact UInt64.le_trans hx hxy
  refine ⟨by decide, hmono, ?_⟩
  obtain ⟨hleast | hnone, -⟩ := bfind_threshold (by decide) hmono
  · have hmem : (1500 : UInt64) ∈ {x | (100 : UInt64) ≤ x ∧ x < 9000 ∧ decide (1500 ≤ x) = true} :=
      ⟨by decide, by decide, by decide⟩
    exact UInt64.le_antisymm (hleast.2 hmem) (of_decide_eq_true hleast.1.2.2)
  · exact absurd (hnone.1 1500 (by decide) (by decide)) (by decide)

end Metcalfe.OversizeMeta
