import DiskCut.Distance.Dijkstra
import DiskCut.Proofs.Mesh.Coherent
import DiskCut.Proofs.Mesh.Normals
import Mathlib.Algebra.BigOperators.Group.Finset.Piecewise

/-!
# The roads of a mesh

Each edge is entered at both its ends, with its length and the vertex across.

* `EdgeGraph m`              the edges of `m` join different vertices that are there
* `EdgeGraph.edgeLength_ok`  so every edge has a length
* `ahead roads v`            the roads at a vertex
* `Paved m done roads`       the roads are those of the edges `done`
* `EdgeGraph.roads_ok`       the roads of the mesh are those of all its edges
-/

namespace DiskCut
open Std Finset
variable {α : Type}

/-- the roads at a vertex, none where there is no vertex -/
def ahead (roads : Roads α) (v : VertexId) : List (VertexId × α) := roads[v]?.getD []

namespace Mesh
variable {m : Mesh α} {e : EdgeId} {x : Edge α}

theorem Coherent.end_lt (h : m.Coherent) {v : VertexId} (hv : m.IsEnd e v) :
    v < m.vertices.size := by
  obtain ⟨t, ht⟩ := h.exists_incident hv.lt_size
  exact h.corner_lt_of_isCorner (h.isCorner_of_incident ht hv)

/-- each edge joins two vertices that are there, the lower one first -/
structure EdgeGraph (m : Mesh α) : Prop where
  ends_lt : ∀ {e : EdgeId} {x : Edge α}, m.edges[e]? = some x → x.ends.1 < x.ends.2
  end_lt : ∀ {e : EdgeId} {v : VertexId}, m.IsEnd e v → v < m.vertices.size

theorem Coherent.edgeGraph (h : m.Coherent) : m.EdgeGraph := ⟨h.ends_lt, h.end_lt⟩

section
variable [Scalar α]

/-- the length of an edge between vertices that are there -/
theorem EdgeGraph.edgeLength_ok (h : m.EdgeGraph) (he : e < m.edges.size) :
    ∃ l, m.edgeLength e = .ok l := by
  have hx := Array.getElem?_eq_getElem he
  have h₁ := h.end_lt ⟨_, hx, .inl rfl⟩
  have h₂ := h.end_lt ⟨_, hx, .inr rfl⟩
  unfold edgeLength edge
  rw [fetch_of_lt he]
  show ∃ l, (m.position _ >>= _) = .ok l
  rw [position_of_lt h₂]
  show ∃ l, (m.position _ >>= _) = .ok l
  rw [position_of_lt h₁]
  exact ⟨_, rfl⟩

/-- the edges `done` are entered at both their ends -/
structure Paved (m : Mesh α) (done : List EdgeId) (roads : Roads α) : Prop where
  size : roads.size = m.vertices.size
  mem : ∀ {v w : VertexId} {l : α}, v < m.vertices.size →
    ((w, l) ∈ ahead roads v ↔ ∃ e ∈ done, m.Joins e v w ∧ m.edgeLength e = .ok l)
  count : ∑ v ∈ range m.vertices.size, (ahead roads v).length = 2 * done.length

omit [Scalar α] in
theorem joins_iff_of_lt {v w : VertexId} (hx : m.edges[e]? = some x) (hlt : x.ends.1 < x.ends.2) :
    m.Joins e v w ↔ v = x.ends.1 ∧ w = x.ends.2 ∨ v = x.ends.2 ∧ w = x.ends.1 := by
  have hkey : edgeKey x.ends.1 x.ends.2 = x.ends := edgeKey_of_le (Nat.le_of_lt hlt)
  unfold Joins
  rw [hx]
  refine ⟨?_, ?_⟩
  · rintro ⟨y, hy, hends⟩
    obtain rfl := Option.some.inj hy
    rw [← hkey, edgeKey_eq_iff] at hends
    rcases hends with ⟨h₁, h₂⟩ | ⟨h₁, h₂⟩
    · exact .inl ⟨h₁.symm, h₂.symm⟩
    · exact .inr ⟨h₂.symm, h₁.symm⟩
  · intro hcase
    refine ⟨x, rfl, ?_⟩
    rcases hcase with ⟨rfl, rfl⟩ | ⟨rfl, rfl⟩
    · exact hkey.symm
    · rw [edgeKey_comm]
      exact hkey.symm

omit [Scalar α] in
/-- the roads at a vertex after one more edge from `a` to `b` is entered -/
theorem ahead_enter {roads : Roads α} {a b v : VertexId} {l : α} (hab : a ≠ b)
    (ha : a < roads.size) (hb : b < roads.size) :
    ahead ((roads.modify a (· ++ [(b, l)])).modify b (· ++ [(a, l)])) v
      = ahead roads v ++ (if v = a then [(b, l)] else []) ++ if v = b then [(a, l)] else [] := by
  unfold ahead
  rw [Array.getElem?_modify, Array.getElem?_modify]
  by_cases hva : v = a
  · subst hva
    rw [if_neg (Ne.symm hab), if_pos rfl, if_pos rfl, if_neg hab, Array.getElem?_eq_getElem ha,
      List.append_nil]
    rfl
  · rw [if_neg hva, if_neg (Ne.symm hva)]
    by_cases hvb : v = b
    · subst hvb
      rw [if_pos rfl, if_pos rfl, Array.getElem?_eq_getElem hb, List.append_nil]
      rfl
    · rw [if_neg (Ne.symm hvb), if_neg hvb, List.append_nil, List.append_nil]

/-- one edge more is entered -/
theorem Paved.addRoad (h : m.EdgeGraph) {done : List EdgeId} {roads : Roads α}
    (hp : Paved m done roads) (he : e < m.edges.size) :
    ∃ next, m.addRoad roads e = .ok next ∧ Paved m (done ++ [e]) next := by
  obtain ⟨l, hl⟩ := h.edgeLength_ok he
  have hx := Array.getElem?_eq_getElem he
  have hlt := h.ends_lt hx
  have h₁ := h.end_lt ⟨_, hx, .inl rfl⟩
  have h₂ := h.end_lt ⟨_, hx, .inr rfl⟩
  rw [← hp.size] at h₁ h₂
  refine ⟨(roads.modify m.edges[e].ends.1 (· ++ [(m.edges[e].ends.2, l)])).modify
    m.edges[e].ends.2 (· ++ [(m.edges[e].ends.1, l)]), ?_, ?_⟩
  · unfold Mesh.addRoad edge
    rw [fetch_of_lt he]
    show (m.edgeLength e >>= _) = _
    rw [hl]
    show (alter roads _ _ >>= _) = _
    rw [alter_of_lt h₁]
    exact alter_of_lt (by rwa [Array.size_modify])
  · have hahead := fun v => ahead_enter (v := v) (l := l) (Nat.ne_of_lt hlt) h₁ h₂
    exact {
      size := by rw [Array.size_modify, Array.size_modify, hp.size]
      mem := by
        intro v w l' hv
        rw [hahead v, List.mem_append, List.mem_append, hp.mem hv]
        simp only [List.mem_append, List.mem_singleton, or_and_right, exists_or, exists_eq_left,
          joins_iff_of_lt hx hlt, hl, Except.ok.injEq, or_assoc]
        refine or_congr_right ?_
        by_cases hva : v = m.edges[e].ends.1
        · subst hva
          simp [Nat.ne_of_lt hlt, eq_comm]
        · by_cases hvb : v = m.edges[e].ends.2
          · subst hvb
            simp [Nat.ne_of_gt hlt, eq_comm]
          · simp [hva, hvb]
      count := by
        simp only [hahead, List.length_append, apply_ite List.length, List.length_singleton,
          List.length_nil, sum_add_distrib, sum_ite_eq', mem_range, hp.count]
        rw [hp.size] at h₁ h₂
        rw [if_pos h₁, if_pos h₂]
        omega }

/-- the roads of a mesh -/
theorem EdgeGraph.roads_ok (h : m.EdgeGraph) :
    ∃ roads, m.roads = .ok roads ∧ Paved m (List.range m.edges.size) roads := by
  have hstart : Paved m [] (List.replicate m.vertices.size []).toArray := by
    have hahead : ∀ v, ahead (List.replicate m.vertices.size ([] : List (VertexId × α))).toArray v
        = [] := by
      intro v
      unfold ahead
      rw [List.getElem?_toArray, List.getElem?_replicate]
      split <;> rfl
    exact {
      size := by simp
      mem := by
        intro v w l _
        rw [hahead]
        simp
      count := by simp only [hahead, List.length_nil, sum_const_zero, Nat.mul_zero] }
  refine foldlM_total (fun pre e post roads hsplit hp => ?_) hstart
  exact hp.addRoad h (List.mem_range.mp (by rw [hsplit]; simp))

end
end Mesh
end DiskCut
