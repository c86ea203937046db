import Metcalfe.Library.Bfs
import Metcalfe.Network.Links

/-!
# Breadth-first search over the links

`bfs` of `BasicNetwork.h`. The callback is an arbitrary function of the distance, the peer, the
variables it captures (`σ`) and the network, and may change the last three: the peer is handed to it
by reference, and its links are read afterwards. The loop is given fuel and records the calls it
makes, with the peers as they were handed out; it returns `none` when the fuel runs out.
-/

namespace Metcalfe.Network

open Bfs

variable {P σ : Type} [LinearOrder P]

abbrev Callback (P σ : Type) [LinearOrder P] := Nat → P → σ → Net P → P × σ × Net P

namespace Net

/-- The peers in the link map of a peer, in its order. -/
def neighbours (net : Net P) (v : P) : List P := (net.links v).entries.map Prod.fst

/-- The while loop of `bfs`. The deque and the set of peers seen are a `Search`. -/
def bfsLoop (f : Callback P σ) : Nat → Search P → List (P × Nat) → σ → Net P →
    Option (List (P × Nat) × σ × Net P)
  | 0, _, _, _, _ => none
  | fuel + 1, s, calls, vars, net =>
    match s.queue with
    | [] => some (calls, vars, net)
    | (v, d) :: q =>
      let r := f d v vars net
      bfsLoop f fuel (Search.expand (r.2.2.neighbours r.1) d ⟨q, s.seen⟩) (calls ++ [(v, d)]) r.2.1
        r.2.2

/-- `bfs`. Returns the calls of the callback, oldest first, with what it left behind. -/
def bfs (fuel : Nat) (start : P) (f : Callback P σ) (vars : σ) (net : Net P) :
    Option (List (P × Nat) × σ × Net P) :=
  bfsLoop f fuel (Search.start start) [] vars net

theorem mem_neighbours {net : Net P} {v w : P} : w ∈ net.neighbours v ↔ net.link v w ≠ none := by
  unfold neighbours link FlatMap.find?
  rw [Ne, FlatMap.search_eq_none_iff, List.mem_map]
  push Not
  exact Iff.rfl

theorem neighbours_congr {net net' : Net P} (h : net'.links = net.links) :
    net'.neighbours = net.neighbours := by
  unfold neighbours
  rw [h]

end Net

/-- There are finitely many linked peers. -/
theorem Reach.finite {running : Option (Msg P)} {net : Net P} (h : Reach running net) :
    ∃ U : Finset P, ∀ a b, net.link a b ≠ none → b ∈ U := by
  induction h with
  | new epoch => exact ⟨∅, by simp [Net.new, Net.link]⟩
  | op op hreach happly ih =>
    obtain ⟨U, hU⟩ := ih
    cases (Net.apply_effect hreach.paired.indexed op).of_ok happly with
    | refused => exact ⟨U, hU⟩
    | @connected x y d _ _ _ _ _ _ _ hlink =>
      refine ⟨insert x (insert y U), fun a b hab => ?_⟩
      rw [hlink] at hab
      split at hab
      · rename_i h'
        simp [h'.2]
      · split at hab
        · rename_i h'
          simp [h'.2]
        · simp [hU a b hab]
    | disconnected _ _ _ _ _ _ _ _ hlink =>
      refine ⟨U, fun a b hab => hU a b ?_⟩
      rw [hlink] at hab
      split at hab
      · exact absurd rfl hab
      · exact hab
    | sent _ => exact ⟨U, hU⟩
    | timerSet _ _ => exact ⟨U, hU⟩
    | cancelled _ _ _ _ => exact ⟨U, hU⟩
  | start _ _ ih => exact ih
  | finish hreach herase ih =>
    obtain ⟨-, q, rfl, -⟩ := (Net.erase_effect hreach.paired.indexed _).of_ok herase
    exact ih
  | clock time _ ih => exact ih

namespace Net

variable {f : Callback P σ} {start : P} {net₀ : Net P} {U : Finset P}

/-- The loop ends, with the invariant and an empty queue: the fuel bounds the peers that are not
done yet. -/
theorem bfsLoop_ends (hpeer : ∀ d v vars net, (f d v vars net).1 = v)
    (hf : ∀ d v vars net, (f d v vars net).2.2.links = net.links)
    (hroot : start ∈ U) (hU : ∀ v ∈ U, ∀ w ∈ net₀.neighbours v, w ∈ U) (fuel : Nat)
    (s : Search P) (calls : List (P × Nat)) (vars : σ) (net : Net P)
    (h : Layered net₀.neighbours start calls s) (hlinks : net.links = net₀.links)
    (hfuel : U.card < fuel + calls.length) :
    ∃ calls' vars' net' s', bfsLoop f fuel s calls vars net = some (calls', vars', net') ∧
      net'.links = net₀.links ∧ Layered net₀.neighbours start calls' s' ∧ s'.queue = [] := by
  induction fuel generalizing s calls vars net with
  | zero =>
    have := h.length_le hroot hU
    omega
  | succ fuel ih =>
    obtain ⟨queue, seen⟩ := s
    cases queue with
    | nil => exact ⟨calls, vars, net, ⟨[], seen⟩, rfl, hlinks, h, rfl⟩
    | cons head q =>
      obtain ⟨v, d⟩ := head
      have hlinks' : (f d v vars net).2.2.links = net₀.links := (hf d v vars net).trans hlinks
      have hnext := neighbours_congr hlinks'
      refine ih _ _ _ _ ?_ hlinks' ?_
      · rw [hnext, hpeer]
        exact Layered.expand (s := ⟨q, seen⟩) h
      · rw [List.length_append, List.length_singleton]
        omega

end Net

/-- `bfs` is breadth-first search. In every state, from every peer and with every callback that
changes neither the peer it is handed nor the links, it comes to an end; it calls the callback once
for each peer that a path of links leads to, with the length of a shortest such path and in order of
these lengths, and it leaves the links as they were. -/
theorem bfs_shortest {running : Option (Msg P)} {net : Net P} (h : Reach running net) (start : P)
    (f : Callback P σ) (hpeer : ∀ d v vars net, (f d v vars net).1 = v)
    (hf : ∀ d v vars net, (f d v vars net).2.2.links = net.links) (vars : σ) :
    ∃ fuel calls vars' net', net.bfs fuel start f vars = some (calls, vars', net') ∧
      net'.links = net.links ∧ (calls.map Prod.fst).Nodup ∧
      (∀ w, w ∈ calls.map Prod.fst ↔ ∃ n, Path net.neighbours n start w) ∧
      (∀ w d, (w, d) ∈ calls ↔ IsLeast {n | Path net.neighbours n start w} d) ∧
      calls.Pairwise fun x y => x.2 ≤ y.2 := by
  obtain ⟨U, hU⟩ := h.finite
  have hclosed : ∀ v ∈ insert start U, ∀ w ∈ net.neighbours v, w ∈ insert start U :=
    fun v _ w hw => Finset.mem_insert_of_mem (hU v w (Net.mem_neighbours.mp hw))
  obtain ⟨calls, vars', net', s, hbfs, hlinks, hlayered, hempty⟩ :=
    Net.bfsLoop_ends hpeer hf (Finset.mem_insert_self start U) hclosed ((insert start U).card + 1)
      (Search.start start) [] vars net (Layered.init _ start) rfl (by simp)
  obtain ⟨honce, hrising, hleast⟩ := hlayered.finished hempty
  refine ⟨_, calls, vars', net', hbfs, hlinks, honce, fun w => ?_, hleast, hrising⟩
  rw [List.mem_map]
  constructor
  · rintro ⟨⟨w', d⟩, hmem, rfl⟩
    exact ⟨d, ((hleast w' d).mp hmem).1⟩
  · rintro ⟨n, hn⟩
    obtain ⟨e, -, he⟩ := hlayered.reached hempty hn
    exact ⟨(w, e), he, rfl⟩

/-- A cycle of four peers and a fifth that is not linked, with a callback that counts its calls. -/
theorem bfs_shortest_cycle :
    ∃ (net net' : Net Nat) (fuel : Nat) (calls : List (Nat × Nat)) (count : Nat),
      Net.run anything [.op (.connect 0 1 5), .op (.connect 1 2 5), .op (.connect 2 3 5),
        .op (.connect 3 0 5), .op (.connect 7 8 5)] (Net.new 0) = .ok net ∧
      net.bfs fuel 0 (fun _ v n net => (v, n + 1, net)) 0 = some (calls, count, net') ∧
      (2, 2) ∈ calls ∧ (calls.map Prod.fst).Nodup := by
  obtain ⟨net, hrun, h₁, h₂, h₃⟩ : ∃ net : Net Nat, Net.run anything [.op (.connect 0 1 5),
        .op (.connect 1 2 5), .op (.connect 2 3 5), .op (.connect 3 0 5), .op (.connect 7 8 5)]
        (Net.new 0) = .ok net ∧ 1 ∈ net.neighbours 0 ∧ 2 ∈ net.neighbours 1 ∧
      2 ∉ net.neighbours 0 :=
    ⟨_, rfl, by decide, by decide, by decide⟩
  have hreach : Reach none net := ((reach_preserved anything).run _ (.new 0)).of_ok hrun
  obtain ⟨fuel, calls, count, net', hbfs, -, honce, -, hleast, -⟩ :=
    bfs_shortest hreach 0 (fun _ v n net => (v, n + 1, net)) (fun _ _ _ _ => rfl)
      (fun _ _ _ _ => rfl) 0
  refine ⟨net, net', fuel, calls, count, hrun, hbfs, (hleast 2 2).mpr ⟨?_, fun n hn => ?_⟩, honce⟩
  · exact ⟨1, ⟨0, rfl, h₁⟩, h₂⟩
  · -- neither the start itself nor a neighbour of it
    match n, hn with
    | 0, hn => cases hn
    | 1, ⟨_, rfl, hw⟩ => exact absurd hw h₃
    | n + 2, _ => exact Nat.le_add_left 2 n

/-- A callback that assigns its argument: the links of another peer are searched, and a peer that is
linked to the start is never reached. -/
theorem bfs_misses_of_assignment :
    ∃ net net' : Net Nat, Net.run anything [.op (.connect 0 1 5)] (Net.new 0) = .ok net ∧
      (∃ n, Path net.neighbours n 0 1) ∧
      ∀ fuel, 2 ≤ fuel →
        net.bfs fuel 0 (fun _ _ vars net => (7, vars, net)) () = some ([(0, 0)], (), net') := by
  obtain ⟨net, hrun, hlink, hnone⟩ : ∃ net : Net Nat,
      Net.run anything [.op (.connect 0 1 5)] (Net.new 0) = .ok net ∧ 1 ∈ net.neighbours 0 ∧
      net.neighbours 7 = [] := ⟨_, rfl, by decide, rfl⟩
  refine ⟨net, net, hrun, ⟨1, 0, rfl, hlink⟩, fun fuel hfuel => ?_⟩
  obtain ⟨k, rfl⟩ := Nat.exists_eq_add_of_le' hfuel
  simp [Net.bfs, Net.bfsLoop, Search.start, Search.expand, hnone]

end Metcalfe.Network
