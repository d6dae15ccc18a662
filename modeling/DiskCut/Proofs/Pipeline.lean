import DiskCut.Pipeline
import DiskCut.Proofs.Obtained

/-!
# The stages of the pipeline

* `Constrained m`        a mesh with triangles and something to anchor a cut graph
* `Staged m options c f r`   the result `r` was found on the cut `c` with the forest `f`
* `cutStages_ok`         every result on a constrained mesh was
* `computeCutGraph_of_constrained`, `result_of_not_constrained`   what is done on which meshes
-/

namespace DiskCut
open Std

theorem Logged.result_of_warning {α β : Type} {p : Prop} [Decidable p] (w : Warning)
    (x : Logged α β) :
    (if p then do
        Logged.warn w
        x
      else x).result = x.result := by
  split
  · rw [Logged.result_bind, Logged.result_warn]
    rfl
  · rfl

namespace Mesh
variable {α : Type} [Scalar α] [Extended α]

/-- there are triangles, and there is a feature edge or a singularity -/
def Constrained (m : Mesh α) : Prop :=
  0 < m.triangles.size ∧ ((∃ e, e ∈ m.featureEdges) ∨ ∃ v, v ∈ m.singularities)

structure Staged (m : Mesh α) (options : Options α) (c : FeatureCut α) (f : SpanningForest)
    (r : CutResult α) : Prop where
  cut : m.cutAlongFeatures = .ok c
  mesh : r.mesh = c.mesh
  origin : r.origin = c.origin
  distances : c.mesh.distanceToConstraints options.cap = .ok r.distances
  forest : c.mesh.spanningForest r.distances options.order = .ok f
  numConnections : r.numConnections = f.numConnections
  numComponents : r.numComponents = f.numComponents
  numCandidates : r.numCandidates = f.candidates.size
  trimmed : c.mesh.trimCutGraph f.candidates = .ok r.cutGraph

variable [Trig α] {m : Mesh α} {options : Options α} {r : CutResult α}

theorem cutStages_ok (h : (m.cutStages options).result = .ok r) :
    ∃ c f, m.Staged options c f r := by
  unfold cutStages at h
  simp only [Logged.result_bind, Logged.result_lift, Logged.result_emit, Logged.result_of_warning,
    bind_eq_ok_iff] at h
  obtain ⟨c, hcut, _, _, distances, hdistances, _, _, _, _, _, _, f, hforest, _, _, _, _, g, htrim,
    _, _, _, _, _, _, h⟩ := h
  obtain rfl := Except.ok.inj h
  exact ⟨c, f, {
    cut := hcut
    mesh := rfl
    origin := rfl
    distances := hdistances
    forest := hforest
    numConnections := rfl
    numComponents := rfl
    numCandidates := rfl
    trimmed := htrim }⟩

omit [Scalar α] [Extended α] [Trig α] in
theorem constrained_iff : m.Constrained ↔
    ¬ m.triangles.isEmpty = true ∧ ¬ (m.featureEdges.isEmpty && m.singularities.isEmpty) = true := by
  have htriangles : ¬ m.triangles.isEmpty = true ↔ 0 < m.triangles.size := by
    rw [Array.isEmpty_iff_size_eq_zero]
    exact Nat.pos_iff_ne_zero.symm
  rw [htriangles, Bool.and_eq_true, not_and_or, ExtTreeSet.isEmpty_iff,
    ExtTreeSet.eq_empty_iff_forall_not_mem, ExtTreeMap.isEmpty_iff,
    ExtTreeMap.eq_empty_iff_forall_not_mem, not_forall_not, not_forall_not]
  rfl

theorem computeCutGraph_of_constrained (hm : m.Constrained) (options : Options α) :
    m.computeCutGraph options = m.cutStages options := by
  obtain ⟨htriangles, hanchor⟩ := constrained_iff.mp hm
  unfold computeCutGraph
  rw [if_neg htriangles, if_neg hanchor]

/-- a mesh with nothing to anchor a cut graph is left as it is -/
theorem result_of_not_constrained (hm : ¬ m.Constrained) (options : Options α) :
    (m.computeCutGraph options).result = .ok m.uncut := by
  unfold computeCutGraph
  split
  · rfl
  · rename_i htriangles
    split
    · rfl
    · rename_i hanchor
      exact absurd (constrained_iff.mpr ⟨htriangles, hanchor⟩) hm

theorem computeCutGraph_ok (hm : m.Constrained) (h : (m.computeCutGraph options).result = .ok r) :
    ∃ c f, m.Staged options c f r := by
  rw [computeCutGraph_of_constrained hm] at h
  exact cutStages_ok h

/-- the pipeline run on three triangles gives a result that passes the test -/
def threeTrianglesCut (p : CutResult Float → Bool) : Bool :=
  yields threeTriangles.result fun m =>
    decide (0 < m.triangles.size) && m.featureEdges.contains 2
      && yields (m.computeCutGraph default).result p

theorem exists_threeTrianglesCut {p : CutResult Float → Bool} (h : threeTrianglesCut p = true) :
    ∃ m r, threeTriangles.result = .ok m ∧ m.Constrained ∧
      (m.computeCutGraph default).result = .ok r ∧ p r = true := by
  obtain ⟨m, hm, h⟩ := exists_of_yields h
  rw [Bool.and_eq_true, Bool.and_eq_true, decide_eq_true_iff, ExtTreeSet.contains_iff_mem] at h
  obtain ⟨r, hr, hp⟩ := exists_of_yields h.2
  exact ⟨m, r, hm, ⟨h.1.1, .inl ⟨2, h.1.2⟩⟩, hr, hp⟩

end Mesh
end DiskCut
