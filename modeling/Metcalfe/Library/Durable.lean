import Metcalfe.Library.BigEndian

/-!
# Files that survive an interruption

A file is written through memory: readers see every change at once, the medium has them for
certain only after a `sync`. `Media` keeps the bytes of the last `sync` and the changes since.
When the power goes, the changes that are pending may be lost in part. Two assumptions about what
is then found on the medium are used:

* `Scattered`: a pending change may leave anything at the positions it touches, and only there,
  and the length of the file is one of those it had or between two of them;
* `Cut`: the changes reach the medium in their order, and the last one perhaps not whole.

`Keeps` is the invariant for files of the first kind, the positions that no pending change
touches; `Appends` the one for files of the second kind, that only grow.
-/

namespace Metcalfe.Durable

open BigEndian

inductive Change
  | write (offset : Nat) (data : Bytes)
  | trunc (length : Nat)
  deriving DecidableEq, Repr

/-- What was written is read back. -/
theorem getElem?_splice_of_mem {b data : Bytes} {offset i : Nat} (hlen : offset ≤ b.length)
    (hge : offset ≤ i) (hlt : i < offset + data.length) :
    (splice b offset data)[i]? = data[i - offset]? := by
  have hfront : (b.take offset).length = offset := by
    rw [List.length_take]
    omega
  rw [splice, Nat.sub_eq_zero_of_le hlen, List.replicate_zero, List.append_nil, List.append_assoc,
    List.getElem?_append_right (by omega), hfront, List.getElem?_append_left (by omega)]

theorem length_splice (b : Bytes) (offset : Nat) (data : Bytes) :
    (splice b offset data).length = max b.length (offset + data.length) := by
  unfold splice
  simp only [List.length_append, List.length_take, List.length_replicate, List.length_drop]
  omega

/-- A block that was written is read back. -/
theorem slice_splice (b : Bytes) (offset : Nat) (data : Bytes) :
    slice (splice b offset data) offset data.length = data := by
  have hfront : (b.take offset ++ List.replicate (offset - b.length) 0).length = offset := by
    simp only [List.length_append, List.length_take, List.length_replicate]
    omega
  unfold splice
  rw [List.append_assoc]
  exact slice_middle hfront rfl

namespace Change

/-- A file that is made longer is filled with zeros. -/
def apply (b : Bytes) : Change → Bytes
  | write offset data => splice b offset data
  | trunc n => b.take n ++ List.replicate (n - b.length) 0

/-- The byte at position `i` is not touched. -/
def Spares (i : Nat) : Change → Prop
  | write offset data => i < offset ∨ offset + data.length ≤ i
  | trunc n => i < n

/-- A file of `n` bytes has as many afterwards. -/
def Leaves (n : Nat) : Change → Prop
  | write _ _ => True
  | trunc k => n ≤ k

theorem Leaves.length_apply {c : Change} {b : Bytes} {n : Nat} (h : c.Leaves n) (hn : n ≤ b.length) :
    n ≤ (c.apply b).length := by
  cases c with
  | write offset data =>
    show n ≤ (splice b offset data).length
    unfold splice
    simp only [List.length_append, List.length_take, List.length_replicate, List.length_drop]
    omega
  | trunc k =>
    have hk : n ≤ k := h
    show n ≤ (b.take k ++ List.replicate (k - b.length) 0).length
    simp only [List.length_append, List.length_take, List.length_replicate]
    omega

/-- A file of at most `n` bytes has no more afterwards. -/
def Within (n : Nat) : Change → Prop
  | write offset data => offset + data.length ≤ n
  | trunc k => k ≤ n

theorem Within.apply_length_le {c : Change} {b : Bytes} {n : Nat} (h : c.Within n)
    (hn : b.length ≤ n) : (c.apply b).length ≤ n := by
  cases c with
  | write offset data =>
    have hw : offset + data.length ≤ n := h
    show (splice b offset data).length ≤ n
    unfold splice
    simp only [List.length_append, List.length_take, List.length_replicate, List.length_drop]
    omega
  | trunc k =>
    have hk : k ≤ n := h
    show (b.take k ++ List.replicate (k - b.length) 0).length ≤ n
    simp only [List.length_append, List.length_take, List.length_replicate]
    omega

theorem getElem?_splice {b data : Bytes} {offset i : Nat} (hi : i < b.length)
    (h : i < offset ∨ offset + data.length ≤ i) : (splice b offset data)[i]? = b[i]? := by
  unfold splice
  rcases h with h | h
  · rw [List.append_assoc, List.append_assoc, List.getElem?_append_left (by simp; omega),
      List.getElem?_take_of_lt h]
  · have hlen : (b.take offset ++ List.replicate (offset - b.length) 0 ++ data).length =
        offset + data.length := by
      simp
      omega
    rw [List.getElem?_append_right (by omega), hlen, List.getElem?_drop]
    congr 1
    omega

/-- A block that lies outside of what was written is read as before. -/
theorem slice_splice_of_disjoint {b data : Bytes} {offset off n : Nat} (hle : off + n ≤ b.length)
    (h : off + n ≤ offset ∨ offset + data.length ≤ off) :
    slice (splice b offset data) off n = slice b off n := by
  apply List.ext_getElem?
  intro i
  unfold slice
  by_cases hi : i < n
  · rw [List.getElem?_take_of_lt hi, List.getElem?_take_of_lt hi, List.getElem?_drop,
      List.getElem?_drop]
    exact getElem?_splice (by omega) (by omega)
  · rw [List.getElem?_eq_none, List.getElem?_eq_none] <;>
      exact (List.length_take_le _ _).trans (not_lt.mp hi)

theorem getElem?_apply {c : Change} {b : Bytes} {i : Nat} (hi : i < b.length) (h : c.Spares i) :
    (c.apply b)[i]? = b[i]? := by
  cases c with
  | write offset data => exact getElem?_splice hi h
  | trunc n =>
    have hlt : i < n := h
    show (b.take n ++ _)[i]? = _
    rw [List.getElem?_append_left (by simp; omega), List.getElem?_take_of_lt hlt]

end Change

/-- A file that is cut down to what it begins with. -/
theorem apply_trunc {b b' : Bytes} (h : b <+: b') : (Change.trunc b.length).apply b' = b := by
  obtain ⟨t, rfl⟩ := h
  simp [Change.apply]

structure Media where
  synced : Bytes
  pending : List Change
  deriving DecidableEq, Repr

namespace Media

/-- Nothing is pending. -/
def clean (b : Bytes) : Media := ⟨b, []⟩

/-- What a reader sees. -/
def bytes (m : Media) : Bytes := m.pending.foldl Change.apply m.synced

def change (m : Media) (c : Change) : Media := { m with pending := m.pending ++ [c] }

def sync (m : Media) : Media := clean m.bytes

@[simp]
theorem bytes_clean (b : Bytes) : (clean b).bytes = b := rfl

@[simp]
theorem bytes_change (m : Media) (c : Change) : (m.change c).bytes = c.apply m.bytes := by
  simp [bytes, change, List.foldl_append]

@[simp]
theorem bytes_sync (m : Media) : m.sync.bytes = m.bytes := rfl

/-! ## Changes that reach the medium in any way -/

/-- The file has at least `n` bytes, whatever becomes of the pending changes. -/
def AtLeast (m : Media) (n : Nat) : Prop := n ≤ m.synced.length ∧ ∀ c ∈ m.pending, c.Leaves n

/-- The file has at most `n` bytes, whatever becomes of the pending changes. -/
def AtMost (m : Media) (n : Nat) : Prop := m.synced.length ≤ n ∧ ∀ c ∈ m.pending, c.Within n

/-- `b` may be found on the medium. -/
structure Scattered (m : Media) (b : Bytes) : Prop where
  le : ∀ n, m.AtLeast n → n ≤ b.length
  ge : ∀ n, m.AtMost n → b.length ≤ n
  spared : ∀ i < m.synced.length, (∀ c ∈ m.pending, c.Spares i) → b[i]? = m.synced[i]?

/-- At the positions in `P`, the file is `b`, whatever becomes of the pending changes. -/
def Keeps (m : Media) (P : Nat → Prop) (b : Bytes) : Prop :=
  ∀ i < b.length, P i → m.synced[i]? = b[i]? ∧ ∀ c ∈ m.pending, c.Spares i

variable {m : Media} {P P' : Nat → Prop} {b b' : Bytes}

theorem atLeast_clean : (clean b).AtLeast b.length := ⟨le_rfl, by simp [clean]⟩

theorem AtLeast.change {n : Nat} {c : Change} (h : m.AtLeast n) (hc : c.Leaves n) :
    (m.change c).AtLeast n := by
  refine ⟨h.1, fun c' hc' => ?_⟩
  rcases List.mem_append.mp hc' with hc' | hc'
  · exact h.2 c' hc'
  · rw [List.mem_singleton.mp hc']
    exact hc

theorem foldl_apply_leaves {cs : List Change} {n : Nat} (hcs : ∀ c ∈ cs, c.Leaves n)
    (hb : n ≤ b.length) : n ≤ (cs.foldl Change.apply b).length := by
  induction cs generalizing b with
  | nil => exact hb
  | cons c cs ih =>
    exact ih (fun c' hc' => hcs c' (List.mem_cons_of_mem _ hc'))
      ((hcs c List.mem_cons_self).length_apply hb)

theorem AtLeast.le_bytes {n : Nat} (h : m.AtLeast n) : n ≤ m.bytes.length :=
  foldl_apply_leaves h.2 h.1

theorem foldl_apply_within {cs : List Change} {n : Nat} (hcs : ∀ c ∈ cs, c.Within n)
    (hb : b.length ≤ n) : (cs.foldl Change.apply b).length ≤ n := by
  induction cs generalizing b with
  | nil => exact hb
  | cons c cs ih =>
    exact ih (fun c' hc' => hcs c' (List.mem_cons_of_mem _ hc'))
      ((hcs c List.mem_cons_self).apply_length_le hb)

theorem keeps_clean : (clean b).Keeps P b := by
  intro i _ _
  exact ⟨rfl, by simp [clean]⟩

theorem foldl_apply_spares {cs : List Change} {i : Nat} (hcs : ∀ c ∈ cs, c.Spares i) {x : UInt8}
    (hb : b[i]? = some x) : (cs.foldl Change.apply b)[i]? = some x := by
  induction cs generalizing b with
  | nil => exact hb
  | cons c cs ih =>
    obtain ⟨hi, -⟩ := List.getElem?_eq_some_iff.mp hb
    apply ih (fun c' hc' => hcs c' (List.mem_cons_of_mem _ hc'))
    rw [Change.getElem?_apply hi (hcs c List.mem_cons_self), hb]

theorem Keeps.getElem? (h : m.Keeps P b) {i : Nat} (hi : i < b.length) (hp : P i) :
    m.bytes[i]? = b[i]? := by
  obtain ⟨hsynced, hpending⟩ := h i hi hp
  rw [List.getElem?_eq_getElem hi] at hsynced ⊢
  exact foldl_apply_spares hpending hsynced

theorem Keeps.change (h : m.Keeps P b) {c : Change}
    (hc : ∀ i < b.length, P i → c.Spares i) : (m.change c).Keeps P b := by
  intro i hi hp
  obtain ⟨hsynced, hpending⟩ := h i hi hp
  refine ⟨hsynced, fun c' hc' => ?_⟩
  rcases List.mem_append.mp hc' with hc' | hc'
  · exact hpending c' hc'
  · rw [List.mem_singleton.mp hc']
    exact hc i hi hp

theorem Keeps.sync (h : m.Keeps P b) : m.sync.Keeps P b := by
  intro i hi hp
  exact ⟨h.getElem? hi hp, by simp [Media.sync, clean]⟩

/-- What is kept is found after an interruption. -/
theorem Keeps.scattered (h : m.Keeps P b) (hb' : m.Scattered b') : (clean b').Keeps P b := by
  intro i hi hp
  obtain ⟨hsynced, hpending⟩ := h i hi hp
  refine ⟨?_, by simp [clean]⟩
  have hlt : i < m.synced.length := by
    rw [List.getElem?_eq_getElem hi] at hsynced
    exact (List.getElem?_eq_some_iff.mp hsynced).1
  rw [← hsynced]
  exact hb'.spared i hlt hpending

/-- A file that is kept everywhere begins with what is kept. -/
theorem Keeps.isPrefix (h : m.Keeps P b) (hall : ∀ i < b.length, P i) : b <+: m.bytes := by
  rw [List.prefix_iff_eq_take]
  apply List.ext_getElem?
  intro i
  by_cases hi : i < b.length
  · rw [List.getElem?_take_of_lt hi, h.getElem? hi (hall i hi)]
  · rw [List.getElem?_eq_none (by omega), List.getElem?_eq_none]
    rw [List.length_take]
    omega

theorem keeps_of_isPrefix (h : b <+: b') : (clean b').Keeps P b := by
  obtain ⟨t, rfl⟩ := h
  intro i hi _
  exact ⟨List.getElem?_append_left hi, by simp [clean]⟩

/-- Nothing need be lost. -/
theorem scattered_bytes (m : Media) : m.Scattered m.bytes := by
  refine ⟨fun n hn => hn.le_bytes, fun n hn => foldl_apply_within hn.2 hn.1,
    fun i hi hpending => ?_⟩
  rw [List.getElem?_eq_getElem hi]
  exact foldl_apply_spares hpending (List.getElem?_eq_getElem hi)

/-- All that is pending may be lost. -/
theorem scattered_synced (m : Media) : m.Scattered m.synced :=
  ⟨fun _ hn => hn.1, fun _ hn => hn.1, fun _ _ _ => rfl⟩

/-- Nothing becomes of a file without pending changes. -/
theorem Scattered.eq_of_clean (h : (clean b).Scattered b') : b' = b := by
  have hge : b.length ≤ b'.length := h.le _ atLeast_clean
  have hle : b'.length ≤ b.length := h.ge _ ⟨le_rfl, by simp [clean]⟩
  apply List.ext_getElem?
  intro i
  by_cases hi : i < b.length
  · exact h.spared i hi (by simp [clean])
  · rw [List.getElem?_eq_none (by omega), List.getElem?_eq_none (by omega)]

end Media

/-! ## Changes that reach the medium in order -/

/-- What is found of `cs` over `b`: the first changes, the next one perhaps in part. -/
inductive Cut : Bytes → List Change → Bytes → Prop
  | here (b : Bytes) (cs : List Change) : Cut b cs b
  | torn (b : Bytes) (offset : Nat) (data : Bytes) (cs : List Change) (k : Nat) :
      Cut b (.write offset data :: cs) (splice b offset (data.take k))
  | next {b b' : Bytes} {c : Change} {cs : List Change} (h : Cut (c.apply b) cs b') :
      Cut b (c :: cs) b'

/-- Every change is a write at the end of the file. -/
def Appends : Bytes → List Change → Prop
  | _, [] => True
  | b, .write offset data :: cs => offset = b.length ∧ Appends (b ++ data) cs
  | _, .trunc _ :: _ => False

theorem appends_snoc {b data : Bytes} {cs : List Change} (h : Appends b cs) :
    Appends b (cs ++ [.write (cs.foldl Change.apply b).length data]) := by
  induction cs generalizing b with
  | nil => exact ⟨rfl, trivial⟩
  | cons c cs ih =>
    cases c with
    | write offset d =>
      obtain ⟨rfl, hcs⟩ := h
      have happly : Change.apply b (.write b.length d) = b ++ d := splice_end rfl
      refine ⟨rfl, ?_⟩
      rw [List.foldl_cons, happly]
      exact ih hcs
    | trunc n => exact h.elim

theorem Appends.isPrefix {b : Bytes} {cs : List Change} (h : Appends b cs) :
    b <+: cs.foldl Change.apply b := by
  induction cs generalizing b with
  | nil => exact List.prefix_refl b
  | cons c cs ih =>
    cases c with
    | write offset d =>
      obtain ⟨rfl, hcs⟩ := h
      have happly : Change.apply b (.write b.length d) = b ++ d := splice_end rfl
      rw [List.foldl_cons, happly]
      exact (List.prefix_append b d).trans (ih hcs)
    | trunc n => exact h.elim

/-- What only grows is kept. -/
theorem Appends.spares {b : Bytes} {cs : List Change} (h : Appends b cs) {i : Nat}
    (hi : i < b.length) : ∀ c ∈ cs, c.Spares i := by
  induction cs generalizing b with
  | nil => simp
  | cons c cs ih =>
    cases c with
    | write offset d =>
      obtain ⟨rfl, hcs⟩ := h
      intro c hc
      rcases List.mem_cons.mp hc with rfl | hc
      · exact .inl hi
      · exact ih hcs (by rw [List.length_append]; omega) c hc
    | trunc n => exact h.elim

theorem Appends.keeps {m : Media} {P : Nat → Prop} (h : Appends m.synced m.pending) :
    m.Keeps P m.synced := fun _ hi _ => ⟨rfl, h.spares hi⟩

/-- A file that only grows is found somewhere between its last `sync` and its end. -/
theorem Appends.cut {b b' : Bytes} {cs : List Change} (h : Appends b cs) (hcut : Cut b cs b') :
    b <+: b' ∧ b' <+: cs.foldl Change.apply b := by
  induction hcut with
  | here b cs => exact ⟨List.prefix_refl b, h.isPrefix⟩
  | torn b offset data cs k =>
    obtain ⟨rfl, hcs⟩ := h
    have happly : Change.apply b (.write b.length data) = b ++ data := splice_end rfl
    rw [splice_end rfl, List.foldl_cons, happly]
    refine ⟨List.prefix_append b _, List.IsPrefix.trans ?_ hcs.isPrefix⟩
    exact (List.prefix_append_right_inj b).mpr (List.take_prefix k data)
  | @next b b' c cs _ ih =>
    cases c with
    | write offset d =>
      obtain ⟨rfl, hcs⟩ := h
      have happly : Change.apply b (.write b.length d) = b ++ d := splice_end rfl
      rw [happly] at ih
      rw [List.foldl_cons, happly]
      obtain ⟨hle, hge⟩ := ih hcs
      exact ⟨(List.prefix_append b d).trans hle, hge⟩
    | trunc n => exact h.elim

/-- All changes have reached the medium. -/
theorem cut_all (b : Bytes) (cs : List Change) : Cut b cs (cs.foldl Change.apply b) := by
  induction cs generalizing b with
  | nil => exact .here b []
  | cons c cs ih => exact .next (ih (c.apply b))

theorem cut_nil {b b' : Bytes} (h : Cut b [] b') : b' = b := by
  cases h
  rfl

/-- The beginning of a sequence of records: some of them, and a part of the next. -/
theorem exists_flatMap_of_isPrefix {α : Type} {enc : α → Bytes} {l : List α} {p : Bytes}
    (h : p <+: l.flatMap enc) : ∃ l' torn, p = l'.flatMap enc ++ torn ∧ l' <+: l ∧
      (torn = [] ∨ ∃ a ∈ l, torn <+: enc a ∧ torn.length < (enc a).length) := by
  induction l generalizing p with
  | nil =>
    rw [List.flatMap_nil, List.prefix_nil] at h
    exact ⟨[], [], by simpa using h, List.prefix_rfl, .inl rfl⟩
  | cons a l ih =>
    rw [List.flatMap_cons] at h
    by_cases hlen : p.length < (enc a).length
    · refine ⟨[], p, by simp, List.nil_prefix, .inr ⟨a, List.mem_cons_self, ?_, hlen⟩⟩
      exact List.prefix_of_prefix_length_le h (List.prefix_append _ _) hlen.le
    · have hfirst : enc a <+: p :=
        List.prefix_of_prefix_length_le (List.prefix_append _ _) h (not_lt.mp hlen)
      obtain ⟨t, rfl⟩ := hfirst
      rw [List.prefix_append_right_inj] at h
      obtain ⟨l', torn, rfl, hsub, htorn⟩ := ih h
      refine ⟨a :: l', torn, by simp, ?_, ?_⟩
      · rwa [List.cons_prefix_cons, and_iff_right rfl]
      · rcases htorn with rfl | ⟨b, hb, hle, hlt⟩
        · exact .inl rfl
        · exact .inr ⟨b, List.mem_cons_of_mem _ hb, hle, hlt⟩

end Metcalfe.Durable
