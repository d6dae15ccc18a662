import DiskCut.Proofs.Mesh.Valid
import DiskCut.Proofs.FeatureCut.Drawing
import DiskCut.Proofs.Obtained

/-!
# Meshes that are edited

An edit may take apart what fits together, and may stop half way; still the containers of a mesh
agree with each other in every state that edits lead to.

* `Edited m`           `m` is the result of any edits, completed or not, of a mesh that is obtained
* `Edited.kept`        so its adjacency is what an update left behind
* `Consistent m`       edges, index, lists and marks correspond to each other, all numbers in range
* `consistent_of_edited`   every edited mesh is consistent, and valid just when an update of the
                       edges leaves it alone
-/

namespace DiskCut
open Std
namespace Mesh
variable {α : Type}

/-! ## cuts -/

section
variable [Scalar α] {m bare cut : Mesh α}

/-- lines drawn on a mesh without adjacency -/
theorem DrawnOn.kept (h : DrawnOn bare cut) (traced : bare.Traced [] []) (marks : bare.Marks) :
    cut.Kept := by
  obtain ⟨htraced, hmarks⟩ := drawLines_invariant (P := fun m => m.Traced [] [] ∧ m.Marks)
    (fun a b curve hm => ⟨hm.1.insertFeatureEdge a b curve, hm.2.insertFeatureEdge a b curve⟩)
    cut.lines.toList ⟨traced, marks⟩
  unfold DrawnOn at h
  rw [h]
  refine ⟨⟨[], [], ?_⟩, { hmarks with }⟩
  exact traced_nil { htraced.tabled with } (Array.size_eq_zero_iff.mp htraced.sided.size)
    htraced.present

theorem Kept.complete (h : m.Kept) {m' : Mesh α} (hok : m.complete = .ok m') : m'.Kept := by
  obtain ⟨joined, oriented, hjoin, horient, hlast⟩ := complete_eq_ok_iff.mp hok
  have hjoined := meshAfter_of_ok hjoin h.updateEdges
  have horiented := meshAfter_of_ok horient hjoined.updateNormals
  obtain ⟨last, hlast', hkept⟩ := horiented.updateFeatureIncidence
  rw [hlast] at hlast'
  exact Except.ok.inj hlast' ▸ hkept

theorem kept_of_cut {c : FeatureCut α} (hok : m.cutAlongFeatures = .ok c) : c.mesh.Kept := by
  obtain ⟨bare, split, hdrawn, hlast⟩ := exists_drawn_of_cut hok
  exact (hdrawn.kept (traced_clearTopology bare) (marks_of_empty rfl rfl rfl)).complete hlast

end

/-! ## states that edits lead to -/

/-- a mesh that was built, copied or cut, and then edited in any order; an edit that stops counts
with the mesh that it leaves behind -/
inductive Edited [Scalar α] : Mesh α → Prop where
  | obtained {m : Mesh α} : Obtained m → Edited m
  | copy {m m' : Mesh α} : Edited m → m.copy = .ok m' → Edited m'
  | cutAlongFeatures {m : Mesh α} {c : FeatureCut α} :
      Edited m → m.cutAlongFeatures = .ok c → Edited c.mesh
  | addVertex {m : Mesh α} (position : Vec3 α) (entity : Option Entity) :
      Edited m → Edited (m.addVertex position entity)
  | setCorner {m m' : Mesh α} {t : TriangleId} {corner : Nat} {v : VertexId} :
      Edited m → m.setCorner t corner v = .ok m' → Edited m'
  | insertEdge {m : Mesh α} (a b : VertexId) : Edited m → Edited (m.insertEdge a b).1
  | insertFeatureEdge {m : Mesh α} (a b : VertexId) (curve : Option Int) :
      Edited m → Edited (m.insertFeatureEdge a b curve).1
  | clearTopology {m : Mesh α} : Edited m → Edited m.clearTopology
  | updateFeatureIncidence {m m' : Mesh α} :
      Edited m → m.updateFeatureIncidence = .ok m' → Edited m'
  | updateEdges {m : Mesh α} : Edited m → Edited (meshAfter m.updateEdges)
  | updateNormals {m : Mesh α} : Edited m → Edited (meshAfter m.updateNormals)
  | deriveTopology {m : Mesh α} : Edited m → Edited (meshAfter m.deriveTopology)
  | setSingularity {m m' : Mesh α} {v : VertexId} {kind : SingularityKind} :
      Edited m → m.setSingularity v kind = .ok m' → Edited m'

theorem Coherent.kept {m : Mesh α} (h : m.Coherent) : m.Kept where
  traced := ⟨m.numberedTriangles, [], h.adjacent.traced h.tabled⟩
  marks :=
    { feature := h.feature
      star_lt := by
        intro v es hes e he
        rw [h.starred v] at hes
        obtain rfl := eq_of_starOf hes
        exact ((h.feature e).mp (mem_raysAt.mp he).1).lt_size }

theorem Edited.kept [Scalar α] {m : Mesh α} (h : Edited m) : m.Kept := by
  induction h with
  | obtained h => exact h.coherent.kept
  | copy _ hok => exact kept_of_copy hok
  | cutAlongFeatures _ hok => exact kept_of_cut hok
  | addVertex position entity _ ih => exact ih.addVertex position entity
  | setCorner _ hok ih => exact ih.setCorner hok
  | insertEdge a b _ ih => exact ih.insertEdge a b
  | insertFeatureEdge a b curve _ ih => exact ih.insertFeatureEdge a b curve
  | @clearTopology m => exact kept_clearTopology m
  | updateFeatureIncidence _ hok ih =>
    obtain ⟨m', hok', hkept⟩ := ih.updateFeatureIncidence
    rw [hok] at hok'
    exact Except.ok.inj hok' ▸ hkept
  | updateEdges _ ih => exact ih.updateEdges
  | updateNormals _ ih => exact ih.updateNormals
  | @deriveTopology m => exact kept_deriveTopology m
  | setSingularity _ hok ih => exact ih.setSingularity hok

/-! ## consistency -/

/-- the containers of the derived part correspond to each other, and what they store is in range -/
structure Consistent (m : Mesh α) : Prop where
  ends_le : ∀ (e : EdgeId) (x : Edge α), m.edges[e]? = some x → x.ends.1 ≤ x.ends.2
  ends_injective : ∀ (e e' : EdgeId) (x x' : Edge α), m.edges[e]? = some x →
    m.edges[e']? = some x' → x.ends = x'.ends → e = e'
  index_iff : ∀ (k : VertexId × VertexId) (e : EdgeId), m.edgeIndex[k]? = some e ↔
    ∃ x, m.edges[e]? = some x ∧ x.ends = k
  lists : m.edgeTriangles.size = m.edges.size
  few : ∀ ts ∈ m.edgeTriangles, ts.length ≤ 2
  feature_iff : ∀ e, e ∈ m.featureEdges ↔ m.IsFeature e
  side_lt : ∀ es ∈ m.triangleEdges, ∀ j, es.get j < m.edges.size
  triangle_lt : ∀ ts ∈ m.edgeTriangles, ∀ t ∈ ts, t < m.triangles.size
  feature_lt : ∀ e ∈ m.featureEdges, e < m.edges.size
  star_lt : ∀ (v : VertexId) (es : List EdgeId), m.featureStars[v]? = some es →
    ∀ e ∈ es, e < m.edges.size

section
variable {m : Mesh α} {seen : List (Triple VertexId × TriangleId)}
  {rest : List ((VertexId × VertexId) × TriangleId)}

/-- every list of triangles at an edge is what the update recorded there -/
theorem Traced.exists_owners (h : m.Traced seen rest) {ts : List TriangleId}
    (hts : ts ∈ m.edgeTriangles) : ∃ k, ts = owners (sidesAmong seen ++ rest) k := by
  obtain ⟨e, he, rfl⟩ := Array.mem_iff_getElem.mp hts
  have hx := Array.getElem?_eq_getElem (h.tabled.size_eq ▸ he : e < m.edges.size)
  have hpresent := h.present hx
  rw [Array.getElem?_eq_getElem he] at hpresent
  exact ⟨_, Option.some.inj hpresent⟩

/-- recorded triangles exist -/
theorem Traced.lt_of_mem_owners (h : m.Traced seen rest) {k : VertexId × VertexId} {t : TriangleId}
    (ht : t ∈ owners (sidesAmong seen ++ rest) k) : t < m.triangles.size := by
  rcases List.mem_append.mp (mem_owners.mp ht) with ht | ht
  · obtain ⟨vs, hvs, _⟩ := mem_sidesAmong.mp ht
    obtain ⟨i, hi⟩ := List.mem_iff_getElem?.mp hvs
    obtain rfl := h.numbered hi
    exact Nat.lt_of_lt_of_le (List.getElem?_eq_some_iff.mp hi).1 h.within
  · obtain ⟨rfl, hlt⟩ := h.halted _ ht
    exact hlt

theorem Kept.consistent (h : m.Kept) : m.Consistent := by
  obtain ⟨seen, rest, hseen⟩ := h.traced
  exact {
    ends_le := fun _ _ hx => hseen.tabled.ends_le hx
    ends_injective := fun _ _ _ _ hx hx' => hseen.tabled.eq_of_ends hx hx'
    index_iff := fun k e => ⟨fun hk => hseen.tabled.edge_of_index hk, fun ⟨x, hx, hends⟩ =>
      hends ▸ hseen.tabled.index_of_edge hx⟩
    lists := hseen.tabled.size_eq
    few := by
      intro ts hts
      obtain ⟨k, rfl⟩ := hseen.exists_owners hts
      exact hseen.few k
    feature_iff := h.marks.feature
    side_lt := by
      intro es hes j
      obtain ⟨i, hi, rfl⟩ := Array.mem_iff_getElem.mp hes
      have hlt : i < seen.length := Nat.lt_of_lt_of_eq hi hseen.sided.size
      obtain ⟨es', hes', hside⟩ := hseen.sided.side (List.getElem?_eq_getElem hlt)
      rw [Array.getElem?_eq_getElem hi] at hes'
      rw [Option.some.inj hes']
      exact hseen.tabled.lt_size (hside j)
    triangle_lt := by
      intro ts hts t ht
      obtain ⟨k, rfl⟩ := hseen.exists_owners hts
      exact hseen.lt_of_mem_owners ht
    feature_lt := h.marks.lt_size
    star_lt := fun _ _ hes => h.marks.star_lt hes }

end

section
variable [Scalar α] {m : Mesh α}

/-- every mesh that edits lead to is consistent; it passes the test of validity just when no edge
joins a vertex to itself and an update of the edges completes and changes nothing -/
theorem consistent_of_edited (h : Edited m) : m.Consistent ∧ (m.isValid = true ↔
    (∀ (e : EdgeId) (x : Edge α), m.edges[e]? = some x → x.ends.1 ≠ x.ends.2) ∧
      m.updateEdges = .ok m) :=
  ⟨h.kept.consistent, h.kept.isValid_iff⟩

/-- the third triangle moved onto a side of the first two, so that an update stops half way -/
theorem consistent_threeTriangles : ∃ m m', threeTriangles.result = .ok m ∧
    m.setCorner 2 2 2 = .ok m' ∧ (meshAfter m'.updateEdges).triangleEdges.size = 2 ∧
    (meshAfter m'.updateEdges).Consistent ∧ ((meshAfter m'.updateEdges).isValid = true ↔
      (∀ (e : EdgeId) (x : Edge Float), (meshAfter m'.updateEdges).edges[e]? = some x →
        x.ends.1 ≠ x.ends.2) ∧
      (meshAfter m'.updateEdges).updateEdges = .ok (meshAfter m'.updateEdges)) := by
  obtain ⟨m, hm, hstop⟩ := exists_of_yields (x := threeTriangles.result)
    (p := fun m => yields (m.setCorner 2 2 2) fun m' =>
      (meshAfter m'.updateEdges).triangleEdges.size == 2) (by decide +kernel)
  obtain ⟨m', hm', hsize⟩ := exists_of_yields hstop
  exact ⟨m, m', hm, hm', beq_iff_eq.mp hsize,
    consistent_of_edited (.updateEdges (.setCorner (.obtained (.ofTriangles hm)) hm'))⟩

end
end Mesh
end DiskCut
