import DiskCut.Mesh.Assemble

/-!
# The mesh of one surface

`Patch.ofModel model tag` is the mesh of the surface `tag` with the curves that it lists.  Only
the points that its triangles use become vertices, numbered in increasing order of the model;
`modelVertices` leads back.  Designations of points off the surface are passed over.

Errors about pairs of vertices are reported with the indices of the model.
-/

namespace DiskCut
open Std

/-- a mesh of one surface and, for each of its vertices, the point of the model -/
structure Patch (α : Type) where
  mesh : Mesh α
  modelVertices : Array Nat

namespace Patch
variable {α : Type}

/-- the model point of a vertex -/
def modelVertex (p : Patch α) (v : VertexId) : Except Fault Nat := fetch p.modelVertices v

/-- the points that the triangles use, in increasing order -/
def usedPoints (triangles : List (Triple Nat)) : List Nat :=
  (ExtTreeSet.ofList (triangles.flatMap Triple.toList) compare).toList

/-- from model points to vertices: the place of a point among the used ones -/
def localNames (used : List Nat) : ExtTreeMap Nat VertexId := ExtTreeMap.ofList used.zipIdx compare

/-- an error about a pair of vertices told in the indices of the model -/
def inModelIndices (used : Array Nat) : MeshError → MeshError
  | .featureEdgeNotFound u v =>
    .featureEdgeNotFound (used[u]?.getD u) (used[v]?.getD v)
  | .nonManifoldEdge u v => .nonManifoldEdge (used[u]?.getD u) (used[v]?.getD v)
  | other => other

/-- the same for a fault -/
def faultInModelIndices (used : Array Nat) : Fault → Fault
  | .mesh cause => .mesh (inModelIndices used cause)
  | other => other

/-- a segment of a listed curve in the indices of the patch -/
def localLine (count : Nat) (names : ExtTreeMap Nat VertexId) (tag : Int)
    (numbered : (Nat × Nat) × Nat) : Except MeshError Line := do
  let ((a, b), s) := numbered
  Mesh.checkIndices count s [a, b]
  match names[a]?, names[b]? with
  | some u, some v => return ⟨(u, v), some tag⟩
  | _, _ => .error (.featureEdgeNotFound a b)

/-- the segments of a listed curve -/
def localLines (count : Nat) (names : ExtTreeMap Nat VertexId) (curve : Curve) :
    Except MeshError (List Line) :=
  curve.segments.zipIdx.mapM (localLine count names curve.tag)

section
variable [Scalar α]

/-- the mesh of a surface that has a triangle -/
def ofSurface (model : Model α) (surface : Surface) : Logged α (Patch α) := do
  let count := model.points.size
  Logged.require (surface.triangles.zipIdx.forM fun (corners, t) =>
    Mesh.checkIndices count t corners.toList)
  let used := usedPoints surface.triangles
  let names := localNames used
  let lines ← Logged.require
    ((surface.curves.filterMap model.curve?).mapM (localLines count names))
  let points ← Logged.lift (used.mapM (fetch model.points))
  let triangles := surface.triangles.map (·.map fun v => names.getD v v)
  let m ← (Mesh.assemble points.toArray triangles lines.flatten).mapFault
    (faultInModelIndices used.toArray)
  let m ← Logged.require (m.designate model (names[·]?))
  return ⟨m, used.toArray⟩

/-- the mesh of the surface with the given tag; empty, with a warning, when the surface is -/
def ofModel (model : Model α) (tag : Int) : Logged α (Patch α) :=
  match model.surface? tag with
  | none => Logged.fail (.mesh (.unknownSurface tag))
  | some surface =>
    if surface.triangles.isEmpty then do
      Logged.warn (.emptySurface tag)
      return ⟨.empty, #[]⟩
    else ofSurface model surface

end
end Patch
end DiskCut
