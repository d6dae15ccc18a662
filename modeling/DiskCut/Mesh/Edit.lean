import DiskCut.Mesh.Geometry

/-!
# Editing a mesh

Small edits that leave the derived part of the mesh as it is, apart from the edge set itself.

* `addVertex`, `setCorner`                 the given part
* `insertEdge`, `insertFeatureEdge`        the edge set, one pair at a time
* `clearTopology`                          nothing derived any more, and no lines
* `setSingularity`                         a designation, which may be repeated but not changed
-/

namespace DiskCut
namespace Mesh
variable {α : Type} [Scalar α]

/-- the mesh with one more vertex, whose index is the old number of vertices -/
def addVertex (m : Mesh α) (position : Vec3 α) (entity : Option Entity) : Mesh α :=
  { m with vertices := m.vertices.push ⟨position, entity, .zero⟩ }

/-- corner number `corner` of triangle `t` moved to vertex `v` -/
def setCorner (m : Mesh α) (t : TriangleId) (corner : Nat) (v : VertexId) :
    Except Fault (Mesh α) :=
  if h : corner < 3 then do
    return { m with triangles := ← alter m.triangles t (·.set ⟨corner, h⟩ v) }
  else .error .outOfRange

/-! ## the edge set -/

/-- an edge on no feature -/
def plainEdge (a b : VertexId) : Edge α := ⟨edgeKey a b, .zero, false, none⟩

/-- an edge on the feature curve `curve` -/
def featureEdge (a b : VertexId) (curve : Option Int) : Edge α := ⟨edgeKey a b, .zero, true, curve⟩

/-- the mesh with `edge` as the last edge, with no triangles yet -/
def pushEdge (m : Mesh α) (edge : Edge α) : Mesh α :=
  { m with
    edges := m.edges.push edge
    edgeTriangles := m.edgeTriangles.push []
    edgeIndex := m.edgeIndex.insert edge.ends m.edges.size }

/-- the edge between `a` and `b`, inserted if there is none, and whether it was -/
def insertEdge (m : Mesh α) (a b : VertexId) : Mesh α × EdgeId × Bool :=
  match m.findEdge? a b with
  | some e => (m, e, false)
  | none => (m.pushEdge (plainEdge a b), m.edges.size, true)

/-- the same, a new edge being a feature edge of `curve` with a line of its own -/
def insertFeatureEdge (m : Mesh α) (a b : VertexId) (curve : Option Int) :
    Mesh α × EdgeId × Bool :=
  match m.findEdge? a b with
  | some e => (m, e, false)
  | none =>
    let grown := m.pushEdge (featureEdge a b curve)
    ({ grown with
        featureEdges := m.featureEdges.insert m.edges.size
        lines := m.lines.push ⟨edgeKey a b, curve⟩ }, m.edges.size, true)

/-- the given part without its lines; vertices lose their normals -/
def clearTopology (m : Mesh α) : Mesh α :=
  { (empty : Mesh α) with
    vertices := m.vertices.map ({ · with normal := .zero })
    triangles := m.triangles
    singularities := m.singularities }

/-! ## designations -/

/-- vertex `v` designated as a singularity of the kind `kind`; a second, different designation of a
vertex is refused -/
def setSingularity (m : Mesh α) (v : VertexId) (kind : SingularityKind) :
    Except MeshError (Mesh α) :=
  if m.vertices.size ≤ v then .error (.vertexOutOfRange v m.vertices.size)
  else match m.singularity? v with
    | none => .ok { m with singularities := m.singularities.insert v kind }
    | some present =>
      if present = kind then .ok m
      else .error (.conflictingSingularity v present.value kind.value)

end Mesh
end DiskCut
