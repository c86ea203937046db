import Mathlib.Data.Finset.Card
import Mathlib.Data.List.Nodup
import Mathlib.Order.Bounds.Defs
import Mathlib.Tactic

/-!
# Breadth-first search

A graph is a function `next` from a vertex to the list of its neighbours. A search keeps a queue
of vertices with their distances and the vertices it has seen. `Layered` is its invariant: the
vertices seen are those done and those queued, each once, in order of their distances; the queue
spans at most two layers; and the neighbours of what is done have been seen, one layer further
at most. `Layered.expand` says that one round keeps it, and `Layered.finished` reads off the
result when the queue is empty.
-/

namespace Metcalfe.Bfs

variable {α : Type*}

/-- There is a path of `n` edges from `a` to `b`. -/
def Path (next : α → List α) : Nat → α → α → Prop
  | 0, a, b => a = b
  | n + 1, a, c => ∃ b, Path next n a b ∧ c ∈ next b

structure Search (α : Type*) where
  queue : List (α × Nat)
  seen : List α

namespace Search

variable [DecidableEq α]

def start (a : α) : Search α := ⟨[(a, 0)], [a]⟩

/-- A neighbour of a vertex at distance `d`. -/
def discover (d : Nat) (s : Search α) (w : α) : Search α :=
  if w ∈ s.seen then s else ⟨s.queue ++ [(w, d + 1)], w :: s.seen⟩

/-- All neighbours of a vertex at distance `d`. -/
def expand (ws : List α) (d : Nat) (s : Search α) : Search α := ws.foldl (discover d) s

end Search

/-- The invariant of the search, with the vertices that are done, oldest first. -/
structure Layered (next : α → List α) (root : α) (done : List (α × Nat)) (s : Search α) :
    Prop where
  seen : ∀ v, v ∈ s.seen ↔ v ∈ (done ++ s.queue).map Prod.fst
  once : ((done ++ s.queue).map Prod.fst).Nodup
  rising : (done ++ s.queue).Pairwise fun x y => x.2 ≤ y.2
  width : ∀ x ∈ s.queue, ∀ y ∈ s.queue, y.2 ≤ x.2 + 1
  path : ∀ v d, (v, d) ∈ done ++ s.queue → Path next d root v
  rooted : (root, 0) ∈ done ++ s.queue
  closed : ∀ v d, (v, d) ∈ done → ∀ w ∈ next v, ∃ e ≤ d + 1, (w, e) ∈ done ++ s.queue

namespace Layered

variable {next : α → List α} {root v : α} {d : Nat} {done rest : List (α × Nat)} {s : Search α}

/-- The state in the middle of a round: `v` is out of the queue and the neighbours `ws` have been
looked at. What is queued is then at most one layer further than `v`. -/
structure Scanning (next : α → List α) (root v : α) (d : Nat) (done : List (α × Nat))
    (s : Search α) (ws : List α) : Prop where
  seen : ∀ w, w ∈ s.seen ↔ w ∈ (done ++ (v, d) :: s.queue).map Prod.fst
  once : ((done ++ (v, d) :: s.queue).map Prod.fst).Nodup
  rising : (done ++ (v, d) :: s.queue).Pairwise fun x y => x.2 ≤ y.2
  near : ∀ x ∈ s.queue, d ≤ x.2 ∧ x.2 ≤ d + 1
  path : ∀ w e, (w, e) ∈ done ++ (v, d) :: s.queue → Path next e root w
  rooted : (root, 0) ∈ done ++ (v, d) :: s.queue
  closed : ∀ u e, (u, e) ∈ done → ∀ w ∈ next u, ∃ f ≤ e + 1, (w, f) ∈ done ++ (v, d) :: s.queue
  scanned : ∀ w ∈ ws, ∃ e ≤ d + 1, (w, e) ∈ done ++ (v, d) :: s.queue

theorem pop (h : Layered next root done ⟨(v, d) :: rest, s.seen⟩) :
    Scanning next root v d done ⟨rest, s.seen⟩ [] where
  seen := h.seen
  once := h.once
  rising := h.rising
  near x hx := by
    have hrising := (List.pairwise_append.mp h.rising).2.1
    have hle := (List.pairwise_cons.mp hrising).1 x hx
    have hwidth := h.width (v, d) List.mem_cons_self x (List.mem_cons_of_mem _ hx)
    exact ⟨hle, hwidth⟩
  path := h.path
  rooted := h.rooted
  closed := h.closed
  scanned := by simp

namespace Scanning

variable {ws : List α} {w : α}

/-- Nothing is further than one layer after the vertex at work. -/
theorem layer_le (h : Scanning next root v d done s ws) {x : α × Nat}
    (hx : x ∈ done ++ (v, d) :: s.queue) : x.2 ≤ d + 1 := by
  rcases List.mem_append.mp hx with hdone | hqueue
  · have hle := (List.pairwise_append.mp h.rising).2.2 x hdone (v, d) List.mem_cons_self
    simp only at hle
    omega
  · rcases List.mem_cons.mp hqueue with rfl | hqueue
    · simp
    · exact (h.near x hqueue).2

theorem seen_near (h : Scanning next root v d done s ws) (hw : w ∈ s.seen) :
    ∃ e ≤ d + 1, (w, e) ∈ done ++ (v, d) :: s.queue := by
  obtain ⟨⟨w', e⟩, hmem, rfl⟩ := List.mem_map.mp ((h.seen w).mp hw)
  exact ⟨e, h.layer_le hmem, hmem⟩

variable [DecidableEq α]

theorem discover (h : Scanning next root v d done s ws) (hv : Path next d root v)
    (hw : w ∈ next v) : Scanning next root v d done (s.discover d w) (ws ++ [w]) := by
  unfold Search.discover
  split
  · rename_i hseen
    refine ⟨h.seen, h.once, h.rising, h.near, h.path, h.rooted, h.closed, fun x hx => ?_⟩
    rcases List.mem_append.mp hx with hx | hx
    · exact h.scanned x hx
    · rw [List.mem_singleton.mp hx]
      exact h.seen_near hseen
  · rename_i hnew
    have happ : done ++ (v, d) :: (s.queue ++ [(w, d + 1)]) =
        (done ++ (v, d) :: s.queue) ++ [(w, d + 1)] := by simp
    have hmem : ∀ x, x ∈ done ++ (v, d) :: s.queue →
        x ∈ done ++ (v, d) :: (s.queue ++ [(w, d + 1)]) := by
      intro x hx
      rw [happ]
      exact List.mem_append_left _ hx
    constructor
    · intro x
      rw [happ, List.map_append, List.mem_append, ← h.seen]
      simp [or_comm]
    · rw [happ, List.map_append]
      exact h.once.append (List.nodup_singleton _)
        (List.disjoint_singleton.mpr fun hx => hnew ((h.seen w).mpr hx))
    · rw [happ]
      refine List.pairwise_append.mpr ⟨h.rising, List.pairwise_singleton _ _, fun x hx y hy => ?_⟩
      rw [List.mem_singleton.mp hy]
      exact h.layer_le hx
    · intro x hx
      rcases List.mem_append.mp hx with hx | hx
      · exact h.near x hx
      · rw [List.mem_singleton.mp hx]
        simp
    · intro x e hx
      rw [happ] at hx
      rcases List.mem_append.mp hx with hx | hx
      · exact h.path x e hx
      · cases List.mem_singleton.mp hx
        exact ⟨v, hv, hw⟩
    · exact hmem _ h.rooted
    · intro u e hu x hx
      obtain ⟨f, hf, hxf⟩ := h.closed u e hu x hx
      exact ⟨f, hf, hmem _ hxf⟩
    · intro x hx
      rcases List.mem_append.mp hx with hx | hx
      · obtain ⟨e, he, hxe⟩ := h.scanned x hx
        exact ⟨e, he, hmem _ hxe⟩
      · rw [List.mem_singleton.mp hx]
        exact ⟨d + 1, le_rfl, by simp⟩

theorem expand (h : Scanning next root v d done s ws) (hv : Path next d root v)
    (us : List α) (hus : ∀ w ∈ us, w ∈ next v) :
    Scanning next root v d done (s.expand us d) (ws ++ us) := by
  induction us generalizing s ws with
  | nil => simpa [Search.expand] using h
  | cons u us ih =>
    have hu := h.discover hv (hus u List.mem_cons_self)
    simpa [Search.expand] using ih hu fun w hw => hus w (List.mem_cons_of_mem _ hw)

end Scanning

theorem init (next : α → List α) (root : α) : Layered next root [] (Search.start root) := by
  constructor <;> simp [Search.start, Path]

variable [DecidableEq α] in
/-- One round: the first vertex of the queue is done and its neighbours are looked at. -/
theorem expand (h : Layered next root done ⟨(v, d) :: rest, s.seen⟩) :
    Layered next root (done ++ [(v, d)]) (Search.expand (next v) d ⟨rest, s.seen⟩) := by
  have hv : Path next d root v := h.path v d (by simp)
  have hscan := h.pop.expand hv (next v) fun _ hw => hw
  have happ : ∀ l : List (α × Nat), (done ++ [(v, d)]) ++ l = done ++ (v, d) :: l := by simp
  constructor
  · simpa [happ] using hscan.seen
  · simpa [happ] using hscan.once
  · simpa [happ] using hscan.rising
  · intro x hx y hy
    have h₁ := hscan.near x hx
    have h₂ := hscan.near y hy
    omega
  · simpa [happ] using hscan.path
  · simpa [happ] using hscan.rooted
  · intro u e hu w hw
    rw [happ]
    rcases List.mem_append.mp hu with hu | hu
    · exact hscan.closed u e hu w hw
    · cases List.mem_singleton.mp hu
      exact hscan.scanned w (by simpa using hw)

/-- When the queue is empty, a path of `n` edges leads to a vertex that is done, at a distance of
at most `n`. -/
theorem reached (h : Layered next root done s) (hs : s.queue = []) {n : Nat} {w : α}
    (hp : Path next n root w) : ∃ e ≤ n, (w, e) ∈ done := by
  induction n generalizing w with
  | zero =>
    have hroot := h.rooted
    rw [hs, List.append_nil] at hroot
    cases hp
    exact ⟨0, le_rfl, hroot⟩
  | succ n ih =>
    obtain ⟨u, hu, hw⟩ := hp
    obtain ⟨e, he, hue⟩ := ih hu
    obtain ⟨f, hf, hwf⟩ := h.closed u e hue w hw
    rw [hs, List.append_nil] at hwf
    exact ⟨f, by omega, hwf⟩

theorem finished (h : Layered next root done s) (hs : s.queue = []) :
    (done.map Prod.fst).Nodup ∧ (done.Pairwise fun x y => x.2 ≤ y.2) ∧
      ∀ w e, (w, e) ∈ done ↔ IsLeast {n | Path next n root w} e := by
  have honce := h.once
  have hrising := h.rising
  rw [hs, List.append_nil] at honce hrising
  have hsound : ∀ w e, (w, e) ∈ done → IsLeast {n | Path next n root w} e := by
    intro w e hw
    refine ⟨h.path w e (List.mem_append_left _ hw), fun n hn => ?_⟩
    obtain ⟨f, hf, hwf⟩ := h.reached hs hn
    cases List.inj_on_of_nodup_map honce hw hwf rfl
    exact hf
  refine ⟨honce, hrising, fun w e => ⟨hsound w e, fun hw => ?_⟩⟩
  obtain ⟨f, -, hwf⟩ := h.reached hs hw.1
  rwa [hw.unique (hsound w f hwf)]

variable [DecidableEq α] in
/-- The vertices done are different ones of any set that holds the root and is closed under
`next`, so there are no more of them than the set has. -/
theorem length_le (h : Layered next root done s) {U : Finset α} (hroot : root ∈ U)
    (hU : ∀ v ∈ U, ∀ w ∈ next v, w ∈ U) : done.length ≤ U.card := by
  have hpath : ∀ n w, Path next n root w → w ∈ U := by
    intro n
    induction n with
    | zero =>
      rintro w rfl
      exact hroot
    | succ n ih =>
      rintro w ⟨u, hu, hw⟩
      exact hU u (ih u hu) w hw
  have honce : (done.map Prod.fst).Nodup :=
    h.once.sublist ((List.sublist_append_left _ _).map _)
  calc done.length = (done.map Prod.fst).toFinset.card := by
        rw [List.toFinset_card_of_nodup honce, List.length_map]
    _ ≤ U.card := Finset.card_le_card fun w hw => by
        obtain ⟨⟨w', e⟩, hmem, rfl⟩ := List.mem_map.mp (List.mem_toFinset.mp hw)
        exact hpath e w' (h.path w' e (List.mem_append_left _ hmem))

end Layered

end Metcalfe.Bfs
