import DiskCut.Proofs.Distance.Exact

/-!
# The distance search settles each vertex once

The arrivals that a search takes from its queue, in the order in which it takes them.

* `SearchSteps …`        the states that the steps of a search lead to, with the arrivals taken
* `SettlesOnce pops s`   the arrivals `pops`, the latest first, come in order of distance; no vertex
                         has two fresh ones among them, and the label in `s` is that of the fresh one
* `SettlesOnce.take`     one more step keeps this
* `Settling …`           it holds in every state that the steps of a search lead to, and there are only
                         so many steps
* `SearchSteps.searching`, `settling`   by induction on the steps
* `distancesFrom_settling`   and so it is with the search on a mesh

A fresh arrival is one that is extended along the roads, a stale one is dropped.
-/

namespace DiskCut
open Std Finset
variable {α : Type} [Scalar α] [Extended α]

namespace Search

/-- the steps of a search that lead from `first` to a state, with the arrivals that they take -/
abbrev SearchSteps (roads : Roads α) (cap : Option α) (first : Search α) :
    List (Arrival α × Bool) → Search α → Prop :=
  Recorded (step roads cap) taken first

/-- the arrivals taken so far, the latest first: none is nearer than one before it, the fresh ones are
at different vertices, and each of these still has the label with which it was settled -/
structure SettlesOnce (pops : List (Arrival α × Bool)) (s : Search α) : Prop where
  ordered : (pops.map (·.1.distance)).Pairwise fun later earlier => NoMore earlier later
  once : ((pops.filter Prod.snd).map (·.1.vertex)).Nodup
  final : ∀ x ∈ pops, x.2 = true → s.label x.1.vertex = x.1.distance

/-- in every state that the steps from `first` lead to, the arrivals taken settle each vertex once, and a
fresh one is as far as the label says; no step fails, and there are `bound` of them at most -/
structure Settling (roads : Roads α) (cap : Option α) (first : Search α) (bound : Nat) : Prop where
  once : ∀ pops s, SearchSteps roads cap first pops s → SettlesOnce pops s
  fresh : ∀ pops s a, SearchSteps roads cap first pops s → s.taken = [(a, true)] →
    s.label a.vertex = a.distance
  bounded : ∀ pops s, SearchSteps roads cap first pops s → pops.length ≤ bound
  goesOn : ∀ pops s, SearchSteps roads cap first pops s →
    (∃ next, s.step roads cap = .ok (some next)) ∨ s.queue = ∅ ∧ s.step roads cap = .ok none

/-- all arrivals in the record are at most as far as `far`, and the fresh ones at settled vertices -/
structure Behind (settled : Finset Nat) (far : α) (pops : List (Arrival α × Bool)) : Prop where
  noMore : ∀ x ∈ pops, NoMore x.1.distance far
  settled : ∀ x ∈ pops, x.2 = true → x.1.vertex ∈ settled

section
variable {n : Nat} {s next : Search α} {roads : Roads α} {cap : Option α} {S : VertexId → Prop}
  {settled : Finset Nat} {far : α} {pops : List (Arrival α × Bool)} {a : Arrival α} {fresh : Bool}

/-- one more arrival in the record -/
theorem Behind.take (h : Behind settled far pops)
    (hs : Searching roads cap S n settled (DiskCut.ahead roads) far s)
    (ht : Takes roads cap S n settled s a fresh next) :
    Behind (if fresh then insert a.vertex settled else settled) a.distance ((a, fresh) :: pops) where
  noMore := List.forall_mem_cons.mpr
    ⟨.refl _, fun x hx => (h.noMore x hx).trans (hs.ahead a ht.mem)⟩
  settled := by
    refine List.forall_mem_cons.mpr ⟨fun hfresh => ?_, fun x hx hfresh' => ?_⟩
    · rw [if_pos hfresh]
      exact mem_insert_self _ _
    · have hmem := h.settled x hx hfresh'
      split
      · exact mem_insert_of_mem hmem
      · exact hmem

theorem SettlesOnce.take (h : SettlesOnce pops s) (hbehind : Behind settled far pops)
    (hs : Searching roads cap S n settled (DiskCut.ahead roads) far s)
    (ht : Takes roads cap S n settled s a fresh next) : SettlesOnce ((a, fresh) :: pops) next where
  ordered := by
    rw [List.map_cons, List.pairwise_cons, List.forall_mem_map]
    exact ⟨fun x hx => (hbehind.noMore x hx).trans (hs.ahead a ht.mem), h.ordered⟩
  once := by
    cases fresh with
    | false => exact h.once
    | true =>
      rw [List.filter_cons_of_pos rfl, List.map_cons, List.nodup_cons]
      refine ⟨fun hmem => ?_, h.once⟩
      obtain ⟨x, hx, heq⟩ := List.mem_map.mp hmem
      obtain ⟨hx, hfresh⟩ := List.mem_filter.mp hx
      exact (ht.settles rfl).1 (heq ▸ hbehind.settled x hx hfresh)
  final := by
    refine List.forall_mem_cons.mpr ⟨fun hfresh => (ht.settles hfresh).2.2, fun x hx hfresh => ?_⟩
    rw [ht.kept _ (hbehind.settled x hx hfresh)]
    exact h.final x hx hfresh

end

/-! ## a whole search -/

section
variable [LawfulLengths α] {n : Nat} {roads : Roads α} {cap : Option α} {sources : List VertexId}
  {s : Search α} {pops : List (Arrival α × Bool)} (hlt : ∀ v ∈ sources, v < n)
  (measured : Measured (Road roads)) (size : roads.size = n)
  (across : ∀ v, ∀ road ∈ ahead roads v, road.1 < n)
include hlt measured size across

/-- what every step keeps holds in every state; a step counts as one arrival -/
theorem SearchSteps.searching (hrun : SearchSteps roads cap (start n sources) pops s) :
    ∃ settled far, Searching roads cap (· ∈ sources) n settled (ahead roads) far s ∧
      Behind settled far pops ∧ SettlesOnce pops s ∧
      pops.length + pending roads n settled s
        ≤ sources.length + ∑ v ∈ range n, (ahead roads v).length := by
  induction hrun with
  | start =>
    exact ⟨∅, 0.0, searching_start hlt, ⟨nofun, nofun⟩, ⟨.nil, .nil, nofun⟩,
      (Nat.zero_add _).symm ▸ pending_start n roads sources⟩
  | @next pops s next _ hstep ih =>
    obtain ⟨settled, far, hs, hbehind, honce, hcount⟩ := ih
    rcases hs.step measured size across with ⟨_, hnone⟩ | ⟨a, fresh, next', ht⟩
    · rw [hnone] at hstep
      cases hstep
    · rw [ht.step] at hstep
      cases hstep
      rw [ht.taken]
      refine ⟨_, a.distance, ht.searching, hbehind.take hs ht, honce.take hbehind hs ht, ?_⟩
      have hless := ht.less
      rw [List.singleton_append, List.length_cons]
      omega

theorem settling : Settling roads cap (start n sources : Search α)
    (sources.length + ∑ v ∈ range n, (ahead roads v).length) where
  once := by
    intro pops s hrun
    obtain ⟨_, _, _, _, honce, _⟩ := SearchSteps.searching hlt measured size across hrun
    exact honce
  fresh := by
    intro pops s a hrun htaken
    obtain ⟨settled, far, hs, _⟩ := SearchSteps.searching hlt measured size across hrun
    rcases hs.step measured size across with ⟨hempty, _⟩ | ⟨b, fresh, next, ht⟩
    · unfold taken at htaken
      rw [Queue.first?_eq_min?, hempty, ExtTreeSet.min?_eq_none_iff.mpr rfl] at htaken
      cases htaken
    · rw [ht.taken] at htaken
      cases htaken
      exact (ht.settles rfl).2.1
  bounded := by
    intro pops s hrun
    obtain ⟨_, _, _, _, _, hcount⟩ := SearchSteps.searching hlt measured size across hrun
    omega
  goesOn := by
    intro pops s hrun
    obtain ⟨settled, far, hs, _⟩ := SearchSteps.searching hlt measured size across hrun
    rcases hs.step measured size across with hdone | ⟨a, fresh, next, ht⟩
    · exact .inr hdone
    · exact .inl ⟨next, ht.step⟩

end
end Search

/-! ## on a mesh -/

namespace Mesh
open Search

/-- Whatever the edge lengths, the sources and the cap are, a search on a valid mesh takes its arrivals
in order of distance, settles each vertex once and for all, and ends after at most as many arrivals as
there are sources and ends of edges. -/
theorem distancesFrom_settling {m : Mesh Float} (valid : m.Valid) (sources : List VertexId)
    (cap : Option Float) : ∃ roads, m.roads = .ok roads ∧
      Settling roads cap (start m.vertices.size (m.sourcesIn sources))
        ((m.sourcesIn sources).length + 2 * m.edges.size) ∧
      ∃ pops last, SearchSteps roads cap (start m.vertices.size (m.sourcesIn sources)) pops last ∧
        last.queue = ∅ ∧ (m.sourcesIn sources ≠ [] →
          m.distancesFrom sources cap = .ok ⟨last.distances, (m.sourcesIn sources).length⟩) := by
  have h := valid.edgeGraph
  obtain ⟨roads, hroads, hpaved⟩ := h.roads_ok
  have hroad : Search.Road roads = m.Road := hpaved.road_eq h
  have measured : Measured (Search.Road roads) := hroad.symm ▸ measured_road m
  have hlt : ∀ v ∈ m.sourcesIn sources, v < m.vertices.size := fun v hv => (mem_sourcesIn.mp hv).2
  have hcount := hpaved.count
  rw [List.length_range] at hcount
  refine ⟨roads, hroads, ?_, ?_⟩
  · rw [← hcount]
    exact Search.settling hlt measured hpaved.size (hpaved.across h)
  · obtain ⟨last, _, _, hlast, _, hempty⟩ := run_completes hlt cap measured hpaved.size
      (hpaved.across h) ((m.sourcesIn sources).length + 2 * m.edges.size + 1)
      (by rw [hcount]; exact Nat.lt_succ_self _)
    obtain ⟨pops, hrun⟩ := Recorded.repeatWhile taken .start hlast
    refine ⟨pops, last, hrun, hempty, fun hsome => ?_⟩
    unfold distancesFrom
    rw [if_neg (mt List.isEmpty_iff.mp hsome)]
    exact bind_eq_ok_iff.mpr ⟨roads, hroads, bind_eq_ok_iff.mpr ⟨last, hlast, rfl⟩⟩

theorem settling_threeTriangles : ∃ m roads pops last f, threeTriangles.result = .ok m ∧ m.Valid ∧
    m.roads = .ok roads ∧ Settling roads (some 1.5) (start 5 [1, 4]) (2 + 2 * m.edges.size) ∧
    SearchSteps roads (some 1.5) (start 5 [1, 4]) pops last ∧ SettlesOnce pops last ∧
    m.distancesFrom [4, 9, 1] (some 1.5) = .ok f ∧ f.distances = last.distances := by
  obtain ⟨m, hm, valid, hsize⟩ := exists_valid_threeTriangles
  obtain ⟨roads, hroads, hsettling, pops, last, hrun, _, hok⟩ :=
    distancesFrom_settling valid [4, 9, 1] (some 1.5)
  have hstarts : m.sourcesIn [4, 9, 1] = [1, 4] := by
    unfold sourcesIn
    rw [hsize]
    decide +kernel
  rw [hstarts, hsize] at hsettling hrun
  rw [hstarts] at hok
  exact ⟨m, roads, pops, last, _, hm, valid, hroads, hsettling, hrun, hsettling.once pops last hrun,
    hok (List.cons_ne_nil _ _), rfl⟩

end Mesh
end DiskCut
