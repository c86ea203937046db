import Mathlib.Tactic
import Mathlib.Data.List.Sort

/-!
# Maps kept as sorted arrays

A `FlatMap` is a list of key-value pairs in strictly increasing order of the keys; the
order is a field of the structure, so a map with a repeated or misplaced key cannot be
built. Every operation is described by what `find?` returns afterwards.
-/

namespace Metcalfe

structure FlatMap (K V : Type*) [LinearOrder K] where
  entries : List (K × V)
  sorted : entries.Pairwise fun a b => a.1 < b.1

namespace FlatMap

variable {K V : Type*} [LinearOrder K]

def empty : FlatMap K V := ⟨[], List.Pairwise.nil⟩

/-- Lookup in the underlying list. -/
def search (k : K) : List (K × V) → Option V
  | [] => none
  | e :: es => if e.1 = k then some e.2 else search k es

/-- Insertion in front of the first larger key. -/
def place (k : K) (v : V) : List (K × V) → List (K × V)
  | [] => [(k, v)]
  | e :: es => if k < e.1 then (k, v) :: e :: es else e :: place k v es

def find? (m : FlatMap K V) (k : K) : Option V := search k m.entries

theorem search_eq_none_iff {k : K} {l : List (K × V)} :
    search k l = none ↔ ∀ e ∈ l, e.1 ≠ k := by
  induction l with
  | nil => simp [search]
  | cons e es ih =>
    by_cases h : e.1 = k
    · simp [search, h]
    · simp [search, h, ih]

theorem mem_place {k : K} {v : V} {l : List (K × V)} {e : K × V} :
    e ∈ place k v l ↔ e = (k, v) ∨ e ∈ l := by
  induction l with
  | nil => simp [place]
  | cons e' es ih =>
    unfold place
    split
    · simp
    · simp only [List.mem_cons, ih]
      tauto

theorem place_sorted {k : K} {v : V} {l : List (K × V)}
    (hl : l.Pairwise fun a b => a.1 < b.1) (hk : search k l = none) :
    (place k v l).Pairwise fun a b => a.1 < b.1 := by
  induction l with
  | nil => simp [place]
  | cons e es ih =>
    obtain ⟨he, hes⟩ := List.pairwise_cons.mp hl
    have hne := search_eq_none_iff.mp hk
    unfold place
    split
    · rename_i hlt
      refine List.pairwise_cons.mpr ⟨fun e' he' => ?_, hl⟩
      rcases List.mem_cons.mp he' with rfl | h
      · exact hlt
      · exact hlt.trans (he e' h)
    · rename_i hge
      have hlt : e.1 < k := lt_of_le_of_ne (not_lt.mp hge) (hne e List.mem_cons_self)
      refine List.pairwise_cons.mpr ⟨fun e' he' => ?_, ih hes ?_⟩
      · rcases mem_place.mp he' with rfl | h
        · exact hlt
        · exact he e' h
      · exact search_eq_none_iff.mpr fun e' h => hne e' (List.mem_cons_of_mem _ h)

theorem search_place {k j : K} {v : V} {l : List (K × V)} (hk : search k l = none) :
    search j (place k v l) = if j = k then some v else search j l := by
  induction l with
  | nil =>
    by_cases h : j = k
    · simp [place, search, h]
    · simp [place, search, h, Ne.symm h]
  | cons e es ih =>
    have hne := search_eq_none_iff.mp hk
    have hek : e.1 ≠ k := hne e List.mem_cons_self
    have ih' := ih (search_eq_none_iff.mpr fun e' h => hne e' (List.mem_cons_of_mem _ h))
    unfold place
    split
    · by_cases h : j = k
      · simp [search, h]
      · simp [search, h, Ne.symm h]
    · simp only [search, ih']
      by_cases he : e.1 = j
      · have hjk : j ≠ k := he ▸ hek
        simp [he, hjk]
      · simp [he]

theorem search_filter_ne {k j : K} {l : List (K × V)} :
    search j (l.filter fun e => e.1 ≠ k) = if j = k then none else search j l := by
  induction l with
  | nil => simp [search]
  | cons e es ih =>
    by_cases h : e.1 = k
    · rw [List.filter_cons_of_neg (by simpa using h), ih]
      by_cases hj : j = k
      · simp [hj]
      · simp [hj, search, h, Ne.symm hj]
    · rw [List.filter_cons_of_pos (by simpa using h)]
      simp only [search, ih]
      by_cases he : e.1 = j
      · have hjk : j ≠ k := he ▸ h
        simp [he, hjk]
      · simp [he]

/-- Adds the pair unless the key is present. The flag says whether it was added. -/
def emplace (m : FlatMap K V) (k : K) (v : V) : Bool × FlatMap K V :=
  if h : search k m.entries = none then
    (true, ⟨place k v m.entries, place_sorted m.sorted h⟩)
  else (false, m)

/-- Removes the key. The number is how many pairs were removed. -/
def erase (m : FlatMap K V) (k : K) : Nat × FlatMap K V :=
  (if (search k m.entries).isSome then 1 else 0,
    ⟨m.entries.filter fun e => e.1 ≠ k, m.sorted.filter _⟩)

@[simp]
theorem find?_empty (k : K) : (empty : FlatMap K V).find? k = none := rfl

theorem emplace_fst (m : FlatMap K V) (k : K) (v : V) :
    (m.emplace k v).1 = true ↔ m.find? k = none := by
  unfold emplace find?
  split <;> simp_all

theorem emplace_of_none {m : FlatMap K V} {k : K} {v : V} (h : m.find? k = none) (j : K) :
    (m.emplace k v).2.find? j = if j = k then some v else m.find? j := by
  have h' : search k m.entries = none := h
  simp only [emplace, h', dite_true, find?]
  exact search_place h'

theorem emplace_of_some {m : FlatMap K V} {k : K} {v : V} (h : m.find? k ≠ none) :
    m.emplace k v = (false, m) := by
  have h' : search k m.entries ≠ none := h
  simp only [emplace, h', dite_false]

theorem erase_fst (m : FlatMap K V) (k : K) : (m.erase k).1 = 0 ↔ m.find? k = none := by
  unfold erase find?
  cases h : search k m.entries <;> simp

theorem find?_erase (m : FlatMap K V) (k j : K) :
    (m.erase k).2.find? j = if j = k then none else m.find? j :=
  search_filter_ne

end FlatMap

end Metcalfe
