import DiskCut.Proofs.CutGraph.Trim
import DiskCut.Proofs.Edited

/-!
# Valid meshes

The test of validity reads edges, triangles and adjacency, not the vertices.  So a mesh that edits
lead to counts as valid when it passes the test and the ends of its edges are there.

* `SamePlaces m m'`      `m'` has as many vertices as `m`, the same of them singular
* `Edited.singular_lt`   singular vertices are there in every state that edits lead to
* `Valid m`              the edges and the adjacency of `m` are those of its triangles, but for
                         features that run along no triangle
* `Valid.sound`, `Valid.trimmable`   so the later stages can read all that they need
* `spiked`               a valid mesh with a feature that runs along no triangle
-/

namespace DiskCut
open Std
namespace Mesh
variable {α : Type}

/-! ## singular vertices are there -/

/-- `m'` has as many vertices as `m`, and the same of them are singular -/
structure SamePlaces (m m' : Mesh α) : Prop where
  singularities : m'.singularities = m.singularities
  size : m'.vertices.size = m.vertices.size

section
variable {m m' m'' : Mesh α}

theorem SamePlaces.refl (m : Mesh α) : SamePlaces m m := ⟨rfl, rfl⟩

theorem SamePlaces.trans (h : SamePlaces m m') (h' : SamePlaces m' m'') : SamePlaces m m'' :=
  ⟨h'.singularities.trans h.singularities, h'.size.trans h.size⟩

/-- singular vertices stay there when vertices are added -/
theorem singular_lt_of_le (hm : ∀ v ∈ m.singularities, v < m.vertices.size)
    (same : m'.singularities = m.singularities) (le : m.vertices.size ≤ m'.vertices.size) :
    ∀ v ∈ m'.singularities, v < m'.vertices.size := by
  intro v hv
  rw [same] at hv
  exact Nat.lt_of_lt_of_le (hm v hv) le

theorem SamePlaces.singular_lt (h : SamePlaces m m')
    (hm : ∀ v ∈ m.singularities, v < m.vertices.size) :
    ∀ v ∈ m'.singularities, v < m'.vertices.size :=
  singular_lt_of_le hm h.singularities (Nat.le_of_eq h.size.symm)

variable [Scalar α]

theorem samePlaces_of_given (h : m'.given = m.given) : SamePlaces m m' :=
  ⟨singularities_of_given h, size_vertices_of_given h⟩

theorem samePlaces_clearTopology (m : Mesh α) : SamePlaces m m.clearTopology :=
  ⟨rfl, Array.size_map⟩

theorem samePlaces_insertEdge (m : Mesh α) (a b : VertexId) :
    SamePlaces m (m.insertEdge a b).1 := by
  rcases insertEdge_cases m a b with ⟨_, _, hins⟩ | ⟨_, hins⟩ <;> rw [hins] <;> exact ⟨rfl, rfl⟩

theorem samePlaces_insertFeatureEdge (m : Mesh α) (a b : VertexId) (curve : Option Int) :
    SamePlaces m (m.insertFeatureEdge a b curve).1 := by
  rcases insertFeatureEdge_cases m a b curve with ⟨_, _, hins⟩ | ⟨_, hins⟩ <;> rw [hins] <;>
    exact ⟨rfl, rfl⟩

theorem samePlaces_drawLines (lines : List Line) (m : Mesh α) : SamePlaces m (m.drawLines lines) :=
  List.foldlRecOn lines _ (SamePlaces.refl m) fun _ h line _ =>
    h.trans (samePlaces_insertFeatureEdge _ line.ends.1 line.ends.2 line.curve)

/-- a cut mesh has the singular vertices of the mesh that was cut, and no fewer vertices -/
theorem singularities_of_cut {c : FeatureCut α} (hok : m.cutAlongFeatures = .ok c) :
    c.mesh.singularities = m.singularities ∧ m.vertices.size ≤ c.mesh.vertices.size := by
  obtain ⟨copied, fans, split, vertices, hcopy, hsplit, _, hlast, _, hless⟩ :=
    cutAlongFeatures_eq_ok_iff.mp hok
  obtain ⟨joined, oriented, hjoin, horient, hincidence⟩ := complete_eq_ok_iff.mp hlast
  have hdrawn : DrawnOn copied.clearTopology split := drawnOn_of_cutEdges rfl hsplit
  have hkept := (hdrawn.withGiven vertices split.triangles).kept (traced_clearTopology copied)
    (marks_of_empty rfl rfl rfl)
  have hsplitted : split.singularities = copied.singularities := by
    have hlines := (samePlaces_drawLines split.lines.toList copied.clearTopology).singularities
    unfold DrawnOn at hdrawn
    rw [hdrawn]
    exact hlines
  have hjoined := meshAfter_of_ok (P := fun x => x.given = _) hjoin hkept.given_updateEdges
  have horiented := meshAfter_of_ok (P := fun x => x.given = _) horient (given_updateNormals joined)
  have hcut := (given_updateFeatureIncidence hincidence).trans (horiented.trans hjoined)
  refine ⟨?_, (less_eq_ok_iff.mp hless).1⟩
  exact (singularities_of_given hcut).trans
    (hsplitted.trans (singularities_of_given (given_copy hcopy)))

theorem Edited.singular_lt (h : Edited m) : ∀ v ∈ m.singularities, v < m.vertices.size := by
  induction h with
  | obtained h => exact h.coherent.singular_lt
  | copy _ hok ih => exact (samePlaces_of_given (given_copy hok)).singular_lt ih
  | cutAlongFeatures _ hok ih =>
    obtain ⟨hsame, hle⟩ := singularities_of_cut hok
    exact singular_lt_of_le ih hsame hle
  | addVertex position entity _ ih =>
    exact singular_lt_of_le ih rfl (by rw [Mesh.addVertex, Array.size_push]; exact Nat.le_succ _)
  | setCorner _ hok ih =>
    obtain ⟨_, _, rfl⟩ := setCorner_eq_ok_iff.mp hok
    exact ih
  | insertEdge a b _ ih => exact (samePlaces_insertEdge _ a b).singular_lt ih
  | insertFeatureEdge a b curve _ ih =>
    exact (samePlaces_insertFeatureEdge _ a b curve).singular_lt ih
  | clearTopology _ ih => exact (samePlaces_clearTopology _).singular_lt ih
  | updateFeatureIncidence _ hok ih =>
    exact (samePlaces_of_given (given_updateFeatureIncidence hok)).singular_lt ih
  | updateEdges h ih => exact (samePlaces_of_given h.kept.given_updateEdges).singular_lt ih
  | updateNormals _ ih => exact (samePlaces_of_given (given_updateNormals _)).singular_lt ih
  | deriveTopology _ ih => exact (samePlaces_of_given (given_deriveTopology _)).singular_lt ih
  | setSingularity _ hok ih => exact singular_lt_of_setSingularity hok ih

end

/-! ## validity -/

/-- a mesh that edits lead to, which passes the test, and whose edges join vertices that are
there -/
structure Valid [Scalar α] (m : Mesh α) : Prop where
  edited : Edited m
  passes : m.isValid = true
  end_lt : ∀ x ∈ m.edges, x.ends.2 < m.vertices.size

section
variable [Scalar α] {m : Mesh α} (h : m.Valid)
include h

theorem Valid.upToDate : m.UpToDate := h.edited.kept.upToDate h.passes

theorem Valid.ends_lt {e : EdgeId} {x : Edge α} (hx : m.edges[e]? = some x) : x.ends.1 < x.ends.2 :=
  Nat.lt_of_le_of_ne (h.upToDate.tabled.ends_le hx) (h.upToDate.ends_ne hx)

theorem Valid.lt_of_isEnd {e : EdgeId} {v : VertexId} (hv : m.IsEnd e v) : v < m.vertices.size := by
  obtain ⟨x, hx, rfl | rfl⟩ := hv
  · exact Nat.lt_trans (h.ends_lt hx) (h.end_lt x (Array.mem_of_getElem? hx))
  · exact h.end_lt x (Array.mem_of_getElem? hx)

/-- each side of a triangle is an edge -/
theorem Valid.exists_side {t : TriangleId} {vs : Triple VertexId} (hvs : m.triangles[t]? = some vs)
    (j : Fin 3) : ∃ e, m.Joins e (vs.get j) (vs.get (j + 1)) := by
  obtain ⟨es, _, hside⟩ := h.upToDate.adjacent.side hvs
  obtain ⟨x, hx, hends⟩ := h.upToDate.tabled.edge_of_index (hside j)
  exact ⟨es.get j, x, hx, by rw [hends, Triple.get_keys]⟩

theorem Valid.sound : m.Sound where
  corner_lt := by
    intro t vs hvs j
    obtain ⟨e, hjoin⟩ := h.exists_side hvs j
    exact h.lt_of_isEnd hjoin.isEnd_left
  proper := by
    intro t vs hvs
    have hne : ∀ j, vs.get j ≠ vs.get (j + 1) := by
      intro j heq
      obtain ⟨e, x, hx, hends⟩ := h.exists_side hvs j
      refine h.upToDate.ends_ne hx ?_
      rw [hends, ← heq, edgeKey_of_le (Nat.le_refl _)]
    exact ⟨hne 0, hne 1, (hne 2).symm⟩
  tabled := h.upToDate.tabled
  adjacent := h.upToDate.adjacent
  feature := h.upToDate.feature

/-- trimming can read all that it needs of a valid mesh -/
theorem Valid.trimmable {K : ExtTreeSet EdgeId} (hK : ∀ e ∈ K, e < m.edges.size) :
    m.Trimmable K where
  ends_lt := h.ends_lt
  end_lt := fun hx => h.end_lt _ (Array.mem_of_getElem? hx)
  size_eq := h.upToDate.tabled.size_eq
  feature := h.upToDate.feature
  singular_lt := h.edited.singular_lt
  candidate_lt := hK

end

/-- the test of validity, with the ends of the edges -/
def passesValid [Scalar α] (m : Mesh α) : Bool :=
  m.isValid && m.edges.all fun x => x.ends.2 < m.vertices.size

theorem Edited.valid [Scalar α] {m : Mesh α} (h : Edited m) (htest : m.passesValid = true) :
    m.Valid := by
  unfold passesValid at htest
  rw [Bool.and_eq_true, Array.all_eq_true_iff_forall_mem] at htest
  exact ⟨h, htest.1, fun x hx => of_decide_eq_true (htest.2 x hx)⟩

theorem exists_valid_threeTriangles :
    ∃ m, threeTriangles.result = .ok m ∧ m.Valid ∧ m.vertices.size = 5 := by
  obtain ⟨m, hm, htest⟩ := exists_of_yields (x := threeTriangles.result)
    (p := fun m => m.passesValid && m.vertices.size == 5) (by decide +kernel)
  rw [Bool.and_eq_true, beq_iff_eq] at htest
  have edited : Edited m := .obtained (.ofTriangles hm)
  exact ⟨m, hm, edited.valid htest.1, htest.2⟩

/-! ## a mesh with a feature on no triangle -/

/-- a vertex 4 added, and a feature from vertex 1 to it -/
def spiked (m : Mesh Float) : Mesh Float :=
  ((m.addVertex ⟨0, 0, 2⟩ none).insertFeatureEdge 1 4 none).1

/-- two edges at the singular vertex 3 and a third that leads on to it -/
def spikeCandidates : ExtTreeSet EdgeId := .ofList [1, 4, 5]

theorem exists_spiked : ∃ m m' g, tetrahedron.result = .ok m ∧ m.setSingularity 3 .two = .ok m' ∧
    (spiked m').Valid ∧ (∀ e ∈ spikeCandidates, e < (spiked m').edges.size) ∧
    (spiked m').trimCutGraph spikeCandidates = .ok g ∧ g.edges.toList = [1, 5] ∧ g.removed = 1 := by
  have htest : yields tetrahedron.result (fun m => yields (m.setSingularity 3 .two) fun m' =>
      (spiked m').passesValid && (spiked m').edges.size == 7 &&
        yields ((spiked m').trimCutGraph spikeCandidates) fun g =>
          g.edges.toList == [1, 5] && g.removed == 1) = true := by decide +kernel
  obtain ⟨m, hm, htest⟩ := exists_of_yields htest
  obtain ⟨m', hm', htest⟩ := exists_of_yields htest
  simp only [Bool.and_eq_true, beq_iff_eq] at htest
  obtain ⟨⟨hpasses, hsize⟩, htest⟩ := htest
  obtain ⟨g, hg, htest⟩ := exists_of_yields htest
  simp only [Bool.and_eq_true, beq_iff_eq] at htest
  have edited : Edited (spiked m') := .insertFeatureEdge _ _ _ (.addVertex _ _
    (.setSingularity (.obtained (.ofTriangles hm)) hm'))
  refine ⟨m, m', g, hm, hm', edited.valid hpasses, fun e he => ?_, hg, htest⟩
  have hmem : e ∈ [1, 4, 5] := mem_ofList_iff.mp he
  rw [hsize]
  simp at hmem
  rcases hmem with rfl | rfl | rfl <;> decide

end Mesh
end DiskCut
