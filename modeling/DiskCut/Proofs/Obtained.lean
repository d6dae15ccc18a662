import DiskCut.Proofs.FeatureCut.Cut
import DiskCut.Proofs.Mesh.Build

/-!
# The meshes that the library gives

* `Obtained m`         `m` is the result of building, copying, cutting and updating meshes
* `Obtained.coherent`  so `m` is coherent
* `Obtained.cut`       and can be cut along its features
* `threeTriangles`, `tetrahedron`   meshes that are obtained
-/

namespace DiskCut
namespace Mesh
variable {α : Type} [Scalar α]

/-- a mesh that was built, and then copied, cut, designated and updated in any order; an update
that stops counts with the mesh that it leaves behind -/
inductive Obtained : Mesh α → Prop where
  | empty : Obtained empty
  | ofTriangles {points : Array (Vec3 α)} {triangles : List (Triple Nat)}
      {segments : List (Nat × Nat)} {m : Mesh α} :
      (ofTriangles points triangles segments).result = .ok m → Obtained m
  | ofModel {model : Model α} {m : Mesh α} : (ofModel model).result = .ok m → Obtained m
  | ofPatch {model : Model α} {tag : Int} {p : Patch α} :
      (Patch.ofModel model tag).result = .ok p → Obtained p.mesh
  | copy {m m' : Mesh α} : Obtained m → m.copy = .ok m' → Obtained m'
  | cutAlongFeatures {m : Mesh α} {c : FeatureCut α} :
      Obtained m → m.cutAlongFeatures = .ok c → Obtained c.mesh
  | setSingularity {m m' : Mesh α} {v : VertexId} {kind : SingularityKind} :
      Obtained m → m.setSingularity v kind = .ok m' → Obtained m'
  | updateEdges {m : Mesh α} : Obtained m → Obtained (meshAfter m.updateEdges)
  | updateNormals {m : Mesh α} : Obtained m → Obtained (meshAfter m.updateNormals)

theorem Obtained.coherent {m : Mesh α} (h : Obtained m) : m.Coherent := by
  induction h with
  | empty => exact coherent_empty
  | ofTriangles hok => exact coherent_of_ofTriangles hok
  | ofModel hok => exact coherent_of_ofModel hok
  | ofPatch hok => exact coherent_of_ofPatch hok
  | copy _ hok ih =>
    obtain ⟨m', hok', hcoh, _⟩ := ih.copy
    rw [hok] at hok'
    exact Except.ok.inj hok' ▸ hcoh
  | cutAlongFeatures _ hok ih =>
    obtain ⟨c, s, hok', hcut⟩ := cutAlongFeatures_spec ih
    rw [hok] at hok'
    exact Except.ok.inj hok' ▸ hcut.coherent
  | setSingularity _ hok ih => exact ih.setSingularity hok
  | updateEdges _ ih =>
    rw [ih.updateEdges]
    exact ih
  | updateNormals _ ih => exact ih.updateNormals

/-- what comes out of a cut of a mesh that the library gives -/
theorem Obtained.cut {m : Mesh α} (h : Obtained m) : ∃ c s, m.cutAlongFeatures = .ok c ∧ Cut m c s :=
  cutAlongFeatures_spec h.coherent

/-- three triangles about the vertex 0, with a feature between the first two -/
def threeTriangles : Logged Float (Mesh Float) :=
  ofTriangles #[⟨0, 0, 0⟩, ⟨1, 0, 0⟩, ⟨1, 1, 0⟩, ⟨0, 1, 0⟩, ⟨-1, 0, 0⟩]
    [⟨0, 1, 2⟩, ⟨0, 2, 3⟩, ⟨0, 3, 4⟩] [(0, 2)]

theorem threeTriangles_ok : ∃ m, threeTriangles.result = .ok m ∧ m.featureEdges.contains 2 = true :=
  exists_of_yields (by decide +kernel)

/-- the four faces of a tetrahedron -/
def tetrahedron : Logged Float (Mesh Float) :=
  ofTriangles #[⟨0, 0, 0⟩, ⟨1, 0, 0⟩, ⟨0, 1, 0⟩, ⟨0, 0, 1⟩]
    [⟨0, 2, 1⟩, ⟨0, 1, 3⟩, ⟨0, 3, 2⟩, ⟨1, 2, 3⟩] []

end Mesh
end DiskCut
