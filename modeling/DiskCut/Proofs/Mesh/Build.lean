import DiskCut.Mesh.Patch
import DiskCut.Proofs.Mesh.Checks
import DiskCut.Proofs.Mesh.Derive

/-!
# Built meshes are coherent

* `derived_of_assemble`     a mesh assembled from points, triangles and lines is derived
* `designate_invariant`     what single designations keep, those of a model do
* `ofModel_invariant`, `ofPatch_invariant`   so it is kept from assembling to the mesh of a model or
                            of one of its surfaces
* `coherent_of_ofModel`, …  all of these meshes are coherent
-/

namespace DiskCut
open Std

namespace Mesh
variable {α : Type}

/-! ## assembling -/

theorem coherent_empty : (empty : Mesh α).Coherent where
  corner_lt := by
    intro t vs hvs
    cases hvs
  proper := by
    intro t vs hvs
    cases hvs
  tabled := tabled_of_nil rfl rfl rfl
  adjacent :=
    { size := rfl
      side := by
        intro t vs hvs
        cases hvs
      present := by
        intro e x hx
        cases hx
      few := fun _ => Nat.zero_le 2 }
  feature := by
    intro e
    refine ⟨?_, ?_⟩
    · intro he
      exact absurd he ExtTreeSet.not_mem_empty
    · intro ⟨x, hx, _⟩
      cases hx
  covered := by
    intro e x hx
    cases hx
  covers := by
    intro line hline
    cases hline
  starred := by
    intro v
    show (∅ : ExtTreeMap VertexId (List EdgeId))[v]? = _
    rw [ExtTreeMap.getElem?_empty, raysAt]
    show none = starOf (List.filter _ (∅ : ExtTreeSet EdgeId).toList)
    rw [ExtTreeSet.toList_eq_nil_iff.mpr rfl]
    rfl
  singular_lt := by
    intro v hv
    exact absurd hv ExtTreeMap.not_mem_empty

section
variable [Scalar α] {points : Array (ModelPoint α)} {triangles : List (Triple Nat)}
  {lines : List Line} {m m' : Mesh α}

theorem wellPosed_ofParts (h : ∀ vs ∈ triangles, TriangleFits points.size vs) :
    (ofParts points triangles lines).WellPosed where
  corner_lt := by
    intro t vs hvs j
    change triangles.toArray[t]? = some vs at hvs
    show vs.get j < (points.map _).size
    rw [List.getElem?_toArray] at hvs
    rw [Array.size_map]
    exact (h vs (List.mem_of_getElem? hvs)).1 _ (Triple.mem_toList.mpr ⟨j, rfl⟩)
  proper := by
    intro t vs hvs
    change triangles.toArray[t]? = some vs at hvs
    rw [List.getElem?_toArray] at hvs
    exact (h vs (List.mem_of_getElem? hvs)).2
  singular_lt := by
    intro v hv
    exact absurd hv ExtTreeMap.not_mem_empty

omit [Scalar α] in
/-- the given part of a mesh passed its checks -/
theorem fits_of_checkInput (h : checkInput points.size triangles lines = .ok ()) :
    ∀ vs ∈ triangles, TriangleFits points.size vs := by
  rcases checkInput_cases points.size triangles lines with ⟨_, hfits, _⟩ | ⟨_, herr, _⟩
  · exact hfits
  · rw [h] at herr
    cases herr

/-- an assembled mesh is empty, or derived from parts that passed their checks -/
theorem derived_of_assemble (h : (assemble points triangles lines).result = .ok m) :
    m = empty ∨ Derived (ofParts points triangles lines) m := by
  unfold assemble at h
  split at h
  · rw [Logged.result_bind, Logged.result_warn] at h
    exact .inl (Except.ok.inj h).symm
  · rw [Logged.result_lift] at h
    unfold assembleChecked at h
    obtain ⟨_, hcheck, h⟩ := bind_eq_ok_iff.mp h
    rw [mapError_eq_ok_iff] at hcheck h
    exact .inr (deriveTopology_spec (wellPosed_ofParts (fits_of_checkInput hcheck)) h)

theorem coherent_of_assemble (h : (assemble points triangles lines).result = .ok m) :
    m.Coherent := by
  rcases derived_of_assemble h with rfl | hderived
  · exact coherent_empty
  · exact hderived.toCoherent

theorem coherent_of_ofTriangles {points : Array (Vec3 α)} {segments : List (Nat × Nat)}
    (h : (ofTriangles points triangles segments).result = .ok m) : m.Coherent :=
  coherent_of_assemble h

/-! ## designated singularities -/

omit [Scalar α] in
/-- what every single designation keeps is kept by those of a model -/
theorem designate_invariant {P : Mesh α → Prop}
    (keep : ∀ {s next : Mesh α} {v : VertexId} {kind : SingularityKind}, P s →
      s.setSingularity v kind = .ok next → P next)
    {model : Model α} {rename : Nat → Option VertexId} (start : P m)
    (h : m.designate model rename = .ok m') : P m' := by
  refine foldlM_invariant (fun s x next _ hs hgroup => ?_) start h
  unfold designateGroup at hgroup
  split at hgroup
  · exact Except.ok.inj hgroup ▸ hs
  refine foldlM_invariant (fun s entity next _ hs hentity => ?_) hs hgroup
  unfold designateEntity at hentity
  split at hentity
  · exact Except.ok.inj hentity ▸ hs
  split at hentity
  · cases hentity
  split at hentity
  · exact Except.ok.inj hentity ▸ hs
  · exact keep hs hentity

section
variable {P : Mesh α → Prop}
  (built : ∀ {points : Array (ModelPoint α)} {triangles : List (Triple Nat)} {lines : List Line}
    {m : Mesh α}, (assemble points triangles lines).result = .ok m → P m)
  (keep : ∀ {s next : Mesh α} {v : VertexId} {kind : SingularityKind}, P s →
    s.setSingularity v kind = .ok next → P next)
  {model : Model α}
include built keep

/-- what assembled meshes have and single designations keep, the mesh of a model has -/
theorem ofModel_invariant (h : (ofModel model).result = .ok m) : P m := by
  unfold ofModel at h
  rw [Logged.result_bind] at h
  obtain ⟨m₀, hm₀, h⟩ := bind_eq_ok_iff.mp h
  split at h
  · exact Except.ok.inj h ▸ built hm₀
  · rw [Logged.result_require, mapError_eq_ok_iff] at h
    exact designate_invariant keep (built hm₀) h

/-- and so has the mesh of a surface of the model -/
theorem ofPatch_invariant (empty : P empty) {tag : Int} {p : Patch α}
    (h : (Patch.ofModel model tag).result = .ok p) : P p.mesh := by
  unfold Patch.ofModel at h
  split at h
  · cases h
  split at h
  · rw [Logged.result_bind, Logged.result_warn] at h
    exact Except.ok.inj h ▸ empty
  · unfold Patch.ofSurface at h
    simp only [Logged.result_bind, Logged.result_require, Logged.result_lift,
      Logged.result_mapFault, bind_eq_ok_iff, mapError_eq_ok_iff] at h
    obtain ⟨_, _, lines, _, points, _, m₀, hm₀, m, hm, h⟩ := h
    obtain rfl := Except.ok.inj h
    exact designate_invariant keep (built hm₀) hm

end

theorem coherent_of_ofModel {model : Model α} (h : (ofModel model).result = .ok m) :
    m.Coherent :=
  ofModel_invariant coherent_of_assemble (fun coh hok => coh.setSingularity hok) h

theorem coherent_of_ofPatch {model : Model α} {tag : Int} {p : Patch α}
    (h : (Patch.ofModel model tag).result = .ok p) : p.mesh.Coherent :=
  ofPatch_invariant coherent_of_assemble (fun coh hok => coh.setSingularity hok) coherent_empty h

end
end Mesh
end DiskCut
