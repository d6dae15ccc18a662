import DiskCut.Proofs.CutGraph.Slit
import DiskCut.Proofs.Distance.Nearest

/-!
# The pipeline completes

On a coherent mesh no stage of the pipeline leaves its arrays and every loop comes to its end.  Of the
arithmetic only the search for distances needs anything, and no more than that lengths add up
monotonically.

* `IsUsed m v`              vertex `v` is a corner of a triangle
* `Coherent.countUnreachable_ok`, `Coherent.vertexScalars_ok`, `Coherent.edgeLines_ok`
                            the stages one by one
* `framesIfWanted_ok`       frames are found where there is no feature vertex, or not wanted
* `cutStages_upTo_frames`   so the stages complete as far as the frames
* `cutStages_complete`      and to the end when the frames are found
* `computeCutGraph_complete`   and the pipeline does without frames
-/

namespace DiskCut
open Std
namespace Mesh
variable {α : Type} {m : Mesh α}

/-- vertex `v` is a corner of a triangle -/
def IsUsed (m : Mesh α) (v : VertexId) : Prop := ∃ t, m.IsCorner t v

theorem mem_usedVertices {v : VertexId} : v ∈ m.usedVertices ↔ m.IsUsed v := by
  unfold usedVertices IsUsed IsCorner
  rw [mem_ofList_iff, List.mem_flatMap]
  refine ⟨?_, ?_⟩
  · intro ⟨vs, hvs, hv⟩
    obtain ⟨t, ht⟩ := List.mem_iff_getElem?.mp hvs
    rw [Array.getElem?_toList] at ht
    exact ⟨t, vs, ht, Triple.mem_toList.mp hv⟩
  · intro ⟨t, vs, ht, hv⟩
    rw [← Array.getElem?_toList] at ht
    exact ⟨vs, List.mem_iff_getElem?.mpr ⟨t, ht⟩, Triple.mem_toList.mpr hv⟩

theorem Fitted.lt_of_isUsed (fit : m.Fitted) {v : VertexId} (hv : m.IsUsed v) :
    v < m.vertices.size := by
  obtain ⟨t, ht⟩ := hv
  exact fit.corner_lt_of_isCorner ht

/-! ## the stages one by one -/

section
variable [Scalar α] [Extended α] {f : DistanceField α} (coh : m.Coherent)
include coh

omit [Scalar α] in
theorem Coherent.countUnreachable_ok (hf : f.distances.size = m.vertices.size) :
    ∃ n, m.countUnreachable f = .ok n := by
  have total : ∀ v ∈ m.usedVertices.toList, ∃ b,
      (do return Extended.isInfinite (← f.distance v) : Except Fault Bool) = .ok b := by
    intro v hv
    have hlt := coh.lt_of_isUsed (mem_usedVertices.mp (ExtTreeSet.mem_toList.mp hv))
    unfold DistanceField.distance
    rw [fetch_of_lt (hf.symm ▸ hlt)]
    exact ⟨_, rfl⟩
  obtain ⟨far, hfar⟩ := filterM_total total
  exact ⟨far.length, bind_eq_ok_iff.mpr ⟨far, hfar, rfl⟩⟩

omit [Scalar α] [Extended α] coh in
theorem vertexScalars_ok (hf : f.distances.size = m.vertices.size) {vs : List VertexId}
    (hvs : ∀ v ∈ vs, v < m.vertices.size) : ∃ p, Payload.vertexScalars m f vs = .ok p := by
  have total : ∀ v ∈ vs, ∃ x, (do return (← m.position v, ← f.distance v) :
      Except Fault (Vec3 α × α)) = .ok x := by
    intro v hv
    rw [position_of_lt (hvs v hv)]
    unfold DistanceField.distance
    rw [fetch_of_lt (hf.symm ▸ hvs v hv)]
    exact ⟨_, rfl⟩
  obtain ⟨items, hitems⟩ := mapM_total total
  exact ⟨.scalars items, bind_eq_ok_iff.mpr ⟨items, hitems, rfl⟩⟩

omit [Scalar α] coh in
theorem lt_of_mem_reachable {v : VertexId} (hv : v ∈ f.reachable) : v < f.distances.size := by
  unfold DistanceField.reachable DistanceField.numbered at hv
  obtain ⟨⟨d, w⟩, hx, rfl⟩ := List.mem_map.mp hv
  have hmem := (List.mem_filter.mp hx).1
  rw [List.mk_mem_zipIdx_iff_getElem?, Array.getElem?_toList] at hmem
  exact (Array.getElem?_eq_some_iff.mp hmem).1

omit [Scalar α] [Extended α] in
theorem Coherent.edgeLines_ok {es : List EdgeId} (hes : ∀ e ∈ es, e < m.edges.size) :
    ∃ p, Payload.edgeLines m es = .ok p := by
  have total : ∀ e ∈ es, ∃ x, (do
      let edge ← m.edge e
      return (← m.position edge.ends.1, ← m.position edge.ends.2) :
      Except Fault (Vec3 α × Vec3 α)) = .ok x := by
    intro e he
    have hx := Array.getElem?_eq_getElem (hes e he)
    unfold edge
    rw [fetch_of_lt (hes e he)]
    refine ⟨_, bind_eq_ok_iff.mpr ⟨_, rfl, bind_eq_ok_iff.mpr ⟨_,
      position_of_lt (coh.end_lt ⟨_, hx, .inl rfl⟩), bind_eq_ok_iff.mpr ⟨_,
      position_of_lt (coh.end_lt ⟨_, hx, .inr rfl⟩), rfl⟩⟩⟩⟩
  obtain ⟨items, hitems⟩ := mapM_total total
  exact ⟨.lines items, bind_eq_ok_iff.mpr ⟨items, hitems, rfl⟩⟩

end

/-! ## all stages -/

section
variable [Scalar α] [Extended α] [Trig α] {options : Options α}

omit [Extended α] in
/-- frames are found when they are not wanted, and when there is no feature vertex -/
theorem framesIfWanted_ok {wanted : Bool} (h : wanted = false ∨ m.featureVertices = []) :
    ∃ k, (m.framesIfWanted wanted).result = .ok k := by
  unfold framesIfWanted
  rcases h with rfl | hnone
  · exact ⟨none, rfl⟩
  · cases wanted with
    | false => exact ⟨none, rfl⟩
    | true =>
      unfold darbouxFrames
      rw [if_pos rfl, hnone]
      exact ⟨some [], rfl⟩

/-- on a coherent mesh the stages complete as far as the frames -/
theorem cutStages_upTo_frames [LawfulLengths α] (h : m.Coherent) (options : Options α) :
    ∃ (c : FeatureCut α) (r : CutResult α), m.cutAlongFeatures = .ok c ∧
      (m.cutStages options).result =
        (c.mesh.framesIfWanted options.frames).result >>= fun frames => .ok { r with frames } := by
  obtain ⟨c, s, hok, hcut⟩ := cutAlongFeatures_spec h
  have coh := hcut.coherent
  obtain ⟨distances, hdistances, hsize⟩ :=
    coh.edgeGraph.distancesFrom_ok c.mesh.constraints options.cap
  obtain ⟨far, hfar⟩ := coh.countUnreachable_ok hsize
  obtain ⟨p, hp⟩ := vertexScalars_ok hsize fun v hv => hsize ▸ lt_of_mem_reachable hv
  obtain ⟨forest, visits, hforest, hspan⟩ := coh.toFitted.spanningForest_ok hsize options.order
  have hlt : ∀ e ∈ forest.candidates, e < c.mesh.edges.size :=
    fun e he => hspan.candidate_lt coh.toFitted he
  obtain ⟨q, hq⟩ := coh.edgeLines_ok fun e he => hlt e (ExtTreeSet.mem_toList.mp he)
  obtain ⟨g, removals, hg, htrim⟩ := trimCutGraph_spec (coh.trimmable hlt)
  have hltg : ∀ e ∈ g.edges.toList, e < c.mesh.edges.size :=
    fun e he => hlt e ((htrim.edges e).mp (ExtTreeSet.mem_toList.mp he)).1
  obtain ⟨k, hk⟩ := coh.edgeLines_ok hltg
  refine ⟨c, ⟨c.mesh, c.origin, distances, forest.numConnections, forest.numComponents,
    forest.candidates.size, g, none⟩, hok, ?_⟩
  unfold cutStages distanceToConstraints
  simp only [Logged.result_bind, Logged.result_lift, Logged.result_emit, Logged.result_of_warning,
    Logged.result_pure, hok, hdistances, hfar, hp, hforest, hq, hg, hk, ok_bind]

/-- so they complete when the frames are found -/
theorem cutStages_complete [LawfulLengths α] (h : m.Coherent) (hframes : ∀ c, m.cutAlongFeatures = .ok c →
    ∃ k, (c.mesh.framesIfWanted options.frames).result = .ok k) :
    ∃ r, (m.cutStages options).result = .ok r := by
  obtain ⟨c, r, hok, hresult⟩ := cutStages_upTo_frames h options
  obtain ⟨k, hk⟩ := hframes c hok
  exact ⟨{ r with frames := k }, by rw [hresult, hk]; rfl⟩

/-- without frames the pipeline completes -/
theorem computeCutGraph_complete [LawfulLengths α] (h : m.Coherent)
    (hframes : options.frames = false) : ∃ r, (m.computeCutGraph options).result = .ok r := by
  by_cases hm : m.Constrained
  · rw [computeCutGraph_of_constrained hm]
    exact cutStages_complete h fun _ _ => framesIfWanted_ok (.inl hframes)
  · exact ⟨m.uncut, result_of_not_constrained hm options⟩

end
end Mesh
end DiskCut
