import DiskCut.Proofs.Mesh.Sides

/-!
# The edge table

`edges` and `edgeIndex` are two views of one table: the edge with a given number, and the number of
the edge with given ends.

* `Tabled m`         the views agree, ends are in order, and every edge has a list of triangles
* `pairs m`          the ends of all edges in the order of their numbers
* `Tabled.push`      a new pair at the end of the table
* `insertEdge_cases`, `insertFeatureEdge_cases`   what an insertion does to the table
* `setCorner_eq_ok_iff`, `setSingularity_eq_ok_iff`   and edits elsewhere, which leave the table alone
-/

namespace DiskCut
open Std

theorem pairOrder_eq_iff {k k' : VertexId × VertexId} : pairOrder k k' = .eq ↔ k = k' :=
  LawfulEqCmp.compare_eq_iff_eq

namespace Mesh
variable {α : Type}

/-- pairs and edges name each other -/
structure Tabled (m : Mesh α) : Prop where
  index_of_edge : ∀ {e : EdgeId} {edge : Edge α}, m.edges[e]? = some edge →
    m.edgeIndex[edge.ends]? = some e
  edge_of_index : ∀ {k : VertexId × VertexId} {e : EdgeId}, m.edgeIndex[k]? = some e →
    ∃ edge, m.edges[e]? = some edge ∧ edge.ends = k
  ends_le : ∀ {e : EdgeId} {edge : Edge α}, m.edges[e]? = some edge → edge.ends.1 ≤ edge.ends.2
  size_eq : m.edgeTriangles.size = m.edges.size

/-- the ends of all edges, in the order of their numbers -/
def pairs (m : Mesh α) : List (VertexId × VertexId) := m.edges.toList.map Edge.ends

theorem getElem?_pairs {m : Mesh α} {e : EdgeId} {k : VertexId × VertexId} :
    m.pairs[e]? = some k ↔ ∃ x, m.edges[e]? = some x ∧ x.ends = k := by
  rw [pairs, List.getElem?_map, Option.map_eq_some_iff, Array.getElem?_toList]

theorem pairs_pushEdge (m : Mesh α) (x : Edge α) : (m.pushEdge x).pairs = m.pairs ++ [x.ends] := by
  unfold pairs pushEdge
  rw [Array.toList_push, List.map_append, List.map_singleton]

namespace Tabled
variable {m : Mesh α} (h : m.Tabled)
include h

/-- the index holds the numbers of the pairs -/
theorem index_iff {k : VertexId × VertexId} {e : EdgeId} :
    m.edgeIndex[k]? = some e ↔ m.pairs[e]? = some k := by
  rw [getElem?_pairs]
  refine ⟨h.edge_of_index, ?_⟩
  intro hx
  obtain ⟨x, hx, rfl⟩ := hx
  exact h.index_of_edge hx

theorem mem_pairs {k : VertexId × VertexId} : k ∈ m.pairs ↔ ∃ e, m.edgeIndex[k]? = some e := by
  rw [List.mem_iff_getElem?]
  exact exists_congr fun _ => h.index_iff.symm

theorem pairs_nodup : m.pairs.Nodup := by
  rw [List.nodup_iff_getElem?_ne_getElem?]
  intro i j hij hj heq
  have hget := List.getElem?_eq_getElem hj
  have hi := h.index_iff.mpr (heq.trans hget)
  rw [h.index_iff.mpr hget] at hi
  exact absurd (Option.some.inj hi) (Nat.ne_of_gt hij)

theorem eq_of_ends {e e' : EdgeId} {x x' : Edge α} (hx : m.edges[e]? = some x)
    (hx' : m.edges[e']? = some x') (ends : x.ends = x'.ends) : e = e' := by
  have h₁ := h.index_of_edge hx
  have h₂ := h.index_of_edge hx'
  rw [ends, h₂] at h₁
  exact (Option.some.inj h₁).symm

theorem ends_eq {e : EdgeId} {x : Edge α} {k : VertexId × VertexId} (hx : m.edges[e]? = some x)
    (hk : m.edgeIndex[k]? = some e) : x.ends = k := by
  obtain ⟨y, hy, rfl⟩ := h.edge_of_index hk
  rw [hx] at hy
  rw [Option.some.inj hy]

theorem lt_size {k : VertexId × VertexId} {e : EdgeId} (hk : m.edgeIndex[k]? = some e) :
    e < m.edges.size := by
  obtain ⟨x, hx, _⟩ := h.edge_of_index hk
  exact (Array.getElem?_eq_some_iff.mp hx).1

theorem edgeKey_ends {e : EdgeId} {x : Edge α} (hx : m.edges[e]? = some x) :
    edgeKey x.ends.1 x.ends.2 = x.ends :=
  edgeKey_of_le (h.ends_le hx)

/-- a pair that the table does not know takes the next number -/
theorem push {x : Edge α} (le : x.ends.1 ≤ x.ends.2) (fresh : m.edgeIndex[x.ends]? = none) :
    (m.pushEdge x).Tabled where
  index_of_edge := by
    intro e y hy
    show (m.edgeIndex.insert x.ends m.edges.size)[y.ends]? = some e
    rw [ExtTreeMap.getElem?_insert]
    change (m.edges.push x)[e]? = some y at hy
    rw [Array.getElem?_push] at hy
    split at hy
    · rename_i he
      obtain rfl := Option.some.inj hy
      rw [if_pos (pairOrder_eq_iff.mpr rfl), he]
    · have hne : x.ends ≠ y.ends := by
        intro hends
        rw [hends, h.index_of_edge hy] at fresh
        cases fresh
      rw [if_neg (mt pairOrder_eq_iff.mp hne)]
      exact h.index_of_edge hy
  edge_of_index := by
    intro k e hk
    change (m.edgeIndex.insert x.ends m.edges.size)[k]? = some e at hk
    show ∃ y, (m.edges.push x)[e]? = some y ∧ y.ends = k
    rw [ExtTreeMap.getElem?_insert] at hk
    rw [Array.getElem?_push]
    split at hk
    · rename_i hkey
      obtain rfl := Option.some.inj hk
      exact ⟨x, if_pos rfl, pairOrder_eq_iff.mp hkey⟩
    · have hlt := h.lt_size hk
      rw [if_neg (Nat.ne_of_lt hlt)]
      exact h.edge_of_index hk
  ends_le := by
    intro e y hy
    change (m.edges.push x)[e]? = some y at hy
    rw [Array.getElem?_push] at hy
    split at hy
    · obtain rfl := Option.some.inj hy
      exact le
    · exact h.ends_le hy
  size_eq := by
    show (m.edgeTriangles.push []).size = (m.edges.push x).size
    rw [Array.size_push, Array.size_push, h.size_eq]

end Tabled

/-! ## insertions -/

section
variable [Scalar α]

theorem ends_plainEdge (a b : VertexId) : (plainEdge a b : Edge α).ends = edgeKey a b := rfl

theorem insertEdge_cases (m : Mesh α) (a b : VertexId) :
    (∃ e, m.edgeIndex[edgeKey a b]? = some e ∧ m.insertEdge a b = (m, e, false)) ∨
    (m.edgeIndex[edgeKey a b]? = none ∧
      m.insertEdge a b = (m.pushEdge (plainEdge a b), m.edges.size, true)) := by
  unfold insertEdge findEdge?
  cases m.edgeIndex[edgeKey a b]? with
  | some e => exact .inl ⟨e, rfl, rfl⟩
  | none => exact .inr ⟨rfl, rfl⟩

theorem insertFeatureEdge_cases (m : Mesh α) (a b : VertexId) (curve : Option Int) :
    (∃ e, m.edgeIndex[edgeKey a b]? = some e ∧ (m.insertFeatureEdge a b curve).1 = m) ∨
    (m.edgeIndex[edgeKey a b]? = none ∧
      (m.insertFeatureEdge a b curve).1 = { m.pushEdge (featureEdge a b curve) with
        featureEdges := m.featureEdges.insert m.edges.size
        lines := m.lines.push ⟨edgeKey a b, curve⟩ }) := by
  unfold insertFeatureEdge findEdge?
  cases m.edgeIndex[edgeKey a b]? with
  | some e => exact .inl ⟨e, rfl, rfl⟩
  | none => exact .inr ⟨rfl, rfl⟩

end

/-! ## edits elsewhere -/

section
variable {m m' : Mesh α} {v : VertexId}

theorem setCorner_eq_ok_iff {t : TriangleId} {corner : Nat} : m.setCorner t corner v = .ok m' ↔
    ∃ h : corner < 3, t < m.triangles.size ∧
      m' = { m with triangles := m.triangles.modify t (·.set ⟨corner, h⟩ v) } := by
  unfold setCorner
  by_cases h : corner < 3
  · rw [dif_pos h, exists_prop_of_true h, bind_eq_ok_iff]
    simp only [alter_eq_ok_iff, pure_eq_ok_iff]
    exact ⟨fun ⟨_, ⟨ht, htriangles⟩, hm⟩ => ⟨ht, htriangles ▸ hm.symm⟩,
      fun ⟨ht, hm⟩ => ⟨_, ⟨ht, rfl⟩, hm.symm⟩⟩
  · rw [dif_neg h]
    exact ⟨nofun, fun ⟨hlt, _⟩ => absurd hlt h⟩

/-- only a vertex of the mesh without another singularity is designated -/
theorem setSingularity_eq_ok_iff {kind : SingularityKind} : m.setSingularity v kind = .ok m' ↔
    v < m.vertices.size ∧ (∀ present, m.singularities[v]? = some present → present = kind) ∧
      m' = { m with singularities := m.singularities.insert v kind } := by
  unfold setSingularity singularity?
  by_cases hlt : m.vertices.size ≤ v
  · rw [if_pos hlt]
    refine ⟨nofun, fun h => absurd h.1 (Nat.not_lt.mpr hlt)⟩
  rw [if_neg hlt]
  cases hpresent : m.singularities[v]? with
  | none => simp [Nat.not_le.mp hlt, eq_comm]
  | some present =>
    by_cases hsame : present = kind
    · have hinsert : m.singularities.insert v kind = m.singularities := by
        refine ExtTreeMap.ext_getElem? fun u => ?_
        rw [ExtTreeMap.getElem?_insert]
        split
        · rename_i hu
          rw [← Nat.compare_eq_eq.mp hu, hpresent, hsame]
        · rfl
      simp only [if_pos hsame, hinsert]
      refine ⟨fun h => ⟨Nat.not_le.mp hlt, fun _ heq => ?_, (Except.ok.inj h).symm⟩, fun h => ?_⟩
      · exact Option.some.inj heq ▸ hsame
      · exact congrArg _ h.2.2.symm
    · simp [hsame]

/-- singular vertices are there when they were before -/
theorem singular_lt_of_setSingularity {kind : SingularityKind}
    (hok : m.setSingularity v kind = .ok m') (hm : ∀ w ∈ m.singularities, w < m.vertices.size) :
    ∀ w ∈ m'.singularities, w < m'.vertices.size := by
  obtain ⟨hv, _, rfl⟩ := setSingularity_eq_ok_iff.mp hok
  intro w hw
  rcases ExtTreeMap.mem_insert.mp hw with hvw | hw
  · rw [← Nat.compare_eq_eq.mp hvw]
    exact hv
  · exact hm w hw

end
end Mesh
end DiskCut
