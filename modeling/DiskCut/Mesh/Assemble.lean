import DiskCut.Journal
import DiskCut.Mesh.Topology

/-!
# Building meshes

* `assemble`       points, triangles and lines checked and made into a mesh
* `ofTriangles`    the same from plain index lists
* `designate`      the singularities that the groups of a model name
* `ofModel`        every surface and curve of a model, with its singularities

Without triangles the mesh is empty and a warning says so.  Otherwise the checks come in this
order: triangle by triangle its indices and then that its corners differ, next the indices of the
lines, next that no edge gets a third triangle, last that every line is an edge.
-/

namespace DiskCut
namespace Mesh
variable {α : Type}

/-! ## checks -/

/-- the first of `indices` that is not below `count` is an error of element `element` -/
def checkIndices (count element : Nat) (indices : List Nat) : Except MeshError Unit :=
  match indices.find? (count ≤ ·) with
  | some v => .error (.invalidVertexIndex element v)
  | none => .ok ()

/-- a triangle names three different points -/
def checkTriangle (count : Nat) (numbered : Triple Nat × Nat) : Except MeshError Unit := do
  let (corners, t) := numbered
  checkIndices count t corners.toList
  if corners.Distinct then return () else .error (.degenerateTriangle t)

/-- a line names points -/
def checkLine (count : Nat) (numbered : Line × Nat) : Except MeshError Unit :=
  checkIndices count numbered.2 [numbered.1.ends.1, numbered.1.ends.2]

/-- the first fault of the index lists, triangles before lines -/
def checkInput (count : Nat) (triangles : List (Triple Nat)) (lines : List Line) :
    Except MeshError Unit := do
  triangles.zipIdx.forM (checkTriangle count)
  lines.zipIdx.forM (checkLine count)

/-! ## assembling -/

section
variable [Scalar α]

/-- the given part of a mesh, nothing derived -/
def ofParts (points : Array (ModelPoint α)) (triangles : List (Triple Nat)) (lines : List Line) :
    Mesh α :=
  { (empty : Mesh α) with
    vertices := points.map fun p => ⟨p.position, p.entity, .zero⟩
    triangles := triangles.toArray
    lines := lines.toArray }

/-- a mesh on checked input -/
def assembleChecked (points : Array (ModelPoint α)) (triangles : List (Triple Nat))
    (lines : List Line) : Except Fault (Mesh α) := do
  (checkInput points.size triangles lines).mapError .mesh
  (ofParts points triangles lines).deriveTopology.mapError (·.fault)

/-- a mesh with the given points, triangles and lines; the empty mesh without triangles -/
def assemble (points : Array (ModelPoint α)) (triangles : List (Triple Nat))
    (lines : List Line) : Logged α (Mesh α) :=
  if triangles.isEmpty then do
    Logged.warn .nothingToBuild
    return empty
  else Logged.lift (assembleChecked points triangles lines)

/-- a mesh with the given points, triangles and feature segments -/
def ofTriangles (points : Array (Vec3 α)) (triangles : List (Triple Nat))
    (segments : List (Nat × Nat)) : Logged α (Mesh α) :=
  assemble (points.map (⟨·, none⟩)) triangles (segments.map (⟨·, none⟩))

/-! ## designated singularities -/

/-- the first vertex of a point entity of group number `g` designated, under the index that `rename`
gives it; entities without vertices and vertices without a new index are passed over -/
def designateEntity (model : Model α) (rename : Nat → Option VertexId) (g : Nat)
    (kind : SingularityKind) (m : Mesh α) (entity : PointEntity) : Except MeshError (Mesh α) :=
  match entity.vertices.head? with
  | none => .ok m
  | some v =>
    if model.points.size ≤ v then .error (.invalidVertexIndex g v)
    else match rename v with
      | none => .ok m
      | some u => m.setSingularity u kind

/-- the designations of one group; a group with another name makes none -/
def designateGroup (model : Model α) (rename : Nat → Option VertexId) (m : Mesh α)
    (numbered : Group × Nat) : Except MeshError (Mesh α) :=
  match SingularityKind.ofGroupName? numbered.1.name with
  | none => .ok m
  | some kind => numbered.1.points.foldlM (designateEntity model rename numbered.2 kind) m

/-- the designations of all groups of a model, in order -/
def designate (m : Mesh α) (model : Model α) (rename : Nat → Option VertexId) :
    Except MeshError (Mesh α) :=
  model.groups.zipIdx.foldlM (designateGroup model rename) m

/-! ## whole models -/

/-- the segments of a curve as lines with its tag -/
def linesOfCurve (curve : Curve) : List Line := curve.segments.map (⟨·, some curve.tag⟩)

/-- the mesh of a whole model; its vertices are the model's points -/
def ofModel (model : Model α) : Logged α (Mesh α) := do
  let m ← assemble model.points (model.surfaces.flatMap (·.triangles))
    (model.curves.flatMap linesOfCurve)
  if m.triangles.isEmpty then return m
  else Logged.require (m.designate model some)

end
end Mesh
end DiskCut
