import DiskCut.Proofs.Distance.Roads

/-!
# One step of the distance search

What a step does, and the arrays that it finds and leaves, whatever the arithmetic does.

* `relax_cases`, `step_of_empty`, `step_of_stale`, `step_of_fresh`   what one step of the search does
* `Search.Ranged n s`         labels for `n` vertices, and only these in the queue
* `Search.ranged_start`       a search starts so
* `Paved.across`              and the roads of a mesh lead to its vertices only
-/

namespace DiskCut
open Std
variable {α : Type} [Scalar α] [Extended α]

namespace Search
variable {n : Nat} {s : Search α} {cap : Option α} {base : α} {road : VertexId × α}
  {roads : Roads α} {a : Arrival α} {rest : Queue (Arrival α) Arrival.order}

/-- the search after a shorter path to a vertex was found -/
def shortened (s : Search α) (v : VertexId) (reach : α) : Search α where
  distances := s.distances.modify v fun _ => reach
  queue := s.queue.insert ⟨reach, v⟩

/-- a road shortens the path to its end, or nothing happens -/
theorem relax_cases (cap : Option α) (base : α) (hlt : road.1 < s.distances.size) :
    ((beyond cap (base + road.2) = true ∨ ¬ base + road.2 < s.distances[road.1]) ∧
      relax cap base s road = .ok s) ∨
    (beyond cap (base + road.2) = false ∧ base + road.2 < s.distances[road.1] ∧
      relax cap base s road = .ok (s.shortened road.1 (base + road.2))) := by
  unfold relax
  simp only [fetch_of_lt hlt, alter_of_lt hlt]
  by_cases hbeyond : beyond cap (base + road.2) = true
  · rw [if_pos hbeyond]
    exact .inl ⟨.inl hbeyond, rfl⟩
  · rw [if_neg hbeyond]
    show _ ∨ (_ ∧ _ ∧ (if base + road.2 < s.distances[road.1] then _ else _) = _)
    by_cases hless : base + road.2 < s.distances[road.1]
    · rw [if_pos hless]
      exact .inr ⟨Bool.eq_false_iff.mpr hbeyond, hless, rfl⟩
    · refine .inl ⟨.inr hless, ?_⟩
      show (if base + road.2 < s.distances[road.1] then _ else _) = _
      rw [if_neg hless]
      rfl

theorem step_of_empty (hqueue : s.queue = ∅) : s.step roads cap = .ok none := by
  unfold step
  rw [Queue.pop?_eq_none_iff.mpr hqueue]

/-- an arrival at a vertex with a shorter label is passed over -/
theorem step_of_stale (hpop : Queue.pop? s.queue = some (a, rest))
    (hlt : a.vertex < s.distances.size) (hstale : s.distances[a.vertex] < a.distance) :
    s.step roads cap = .ok (some { s with queue := rest }) := by
  unfold step
  rw [hpop]
  simp only [fetch_of_lt hlt]
  show (if _ then _ else _) = _
  rw [if_pos hstale]
  rfl

/-- any other arrival is extended along all roads -/
theorem step_of_fresh (hpop : Queue.pop? s.queue = some (a, rest))
    (hlt : a.vertex < s.distances.size) (hfresh : ¬ s.distances[a.vertex] < a.distance)
    (hroads : a.vertex < roads.size) :
    s.step roads cap = some <$> (ahead roads a.vertex).foldlM (relax cap a.distance)
      { s with queue := rest } := by
  unfold step ahead
  rw [hpop, Array.getElem?_eq_getElem hroads]
  simp only [fetch_of_lt hlt, fetch_of_lt hroads]
  show (if _ then _ else _) = _
  rw [if_neg hfresh]
  rfl

/-! ## labels and arrivals -/

/-- labels for `n` vertices, and arrivals at these only -/
structure Ranged (n : Nat) (s : Search α) : Prop where
  size : s.distances.size = n
  queue : ∀ a ∈ s.queue, a.vertex < n

theorem Ranged.shortened (hs : Ranged n s) {v : VertexId} (hv : v < n) (reach : α) :
    Ranged n (s.shortened v reach) where
  size := by
    show (s.distances.modify v _).size = n
    rw [Array.size_modify]
    exact hs.size
  queue := by
    intro a ha
    rcases ExtTreeSet.mem_insert.mp ha with heq | ha
    · rw [← LawfulEqCmp.eq_of_compare heq]
      exact hv
    · exact hs.queue a ha

theorem size_start (n : Nat) (sources : List VertexId) :
    (start n sources : Search α).distances.size = n := by
  have keep : ∀ (sources : List VertexId) (labels : Array α),
      (sources.foldl (·.setIfInBounds · 0.0) labels).size = labels.size := by
    intro sources
    induction sources with
    | nil => exact fun _ => rfl
    | cons v sources ih =>
      intro labels
      rw [List.foldl_cons, ih, Array.size_setIfInBounds]
  unfold start
  rw [keep, List.size_toArray, List.length_replicate]

theorem mem_start {sources : List VertexId} :
    a ∈ (start n sources : Search α).queue ↔ a.distance = 0.0 ∧ a.vertex ∈ sources := by
  unfold start
  rw [mem_ofList_iff, List.mem_map]
  refine ⟨?_, ?_⟩
  · rintro ⟨v, hv, rfl⟩
    exact ⟨rfl, hv⟩
  · intro ⟨hd, hv⟩
    exact ⟨a.vertex, hv, by rw [← hd]⟩

theorem ranged_start {sources : List VertexId} (hlt : ∀ v ∈ sources, v < n) :
    Ranged n (start n sources : Search α) where
  size := size_start n sources
  queue := fun a ha => hlt a.vertex (mem_start.mp ha).2

end Search

/-! ## distances on a mesh -/

namespace Mesh
variable {m : Mesh α}

omit [Scalar α] [Extended α] in
theorem mem_sourcesIn {sources : List VertexId} {v : VertexId} :
    v ∈ m.sourcesIn sources ↔ v ∈ sources ∧ v < m.vertices.size := by
  unfold sourcesIn
  rw [ExtTreeSet.mem_toList, mem_ofList_iff, List.mem_filter, decide_eq_true_iff]

omit [Extended α] in
theorem Paved.across {done : List EdgeId} {roads : Roads α} (h : m.EdgeGraph)
    (hp : Paved m done roads) (v : VertexId) : ∀ road ∈ ahead roads v, road.1 < m.vertices.size := by
  intro road hroad
  by_cases hv : v < m.vertices.size
  · obtain ⟨e, _, hjoin, _⟩ := (hp.mem hv).mp hroad
    exact h.end_lt hjoin.isEnd_right
  · unfold ahead at hroad
    rw [Array.getElem?_eq_none (hp.size.symm ▸ Nat.le_of_not_lt hv)] at hroad
    exact absurd hroad List.not_mem_nil

end Mesh
end DiskCut
