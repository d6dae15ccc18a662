import DiskCut.Mesh.Basic

/-!
# Lengths, areas and normals of a mesh

* `areaNormal`    normal of a triangle, as long as twice its area
* `edgeLength`    distance of the two ends of an edge
* `edgeMidpoint`  the point half way between them
* `updateNormals` normals of vertices and edges from the triangles around them

The normals are summed over the triangles in order and brought to length one at the end; a sum no
longer than `epsilon` gives the zero vector.  A triangle side that is missing from the edge set
stops the update, and the sums collected so far stay in the mesh.
-/

namespace DiskCut

namespace Mesh
variable {α : Type} [Scalar α]

/-- the positions of the corners of a triangle -/
def corners (m : Mesh α) (t : TriangleId) : Except Fault (Triple (Vec3 α)) := do
  let vs ← m.triangle t
  let p₀ ← m.position vs.a
  let p₁ ← m.position vs.b
  let p₂ ← m.position vs.c
  return ⟨p₀, p₁, p₂⟩

def areaNormal (m : Mesh α) (t : TriangleId) : Except Fault (Vec3 α) := do
  let p ← m.corners t
  return (p.b - p.a).cross (p.c - p.a)

def area (m : Mesh α) (t : TriangleId) : Except Fault α := do
  return 0.5 * (← m.areaNormal t).norm

def edgeLength (m : Mesh α) (e : EdgeId) : Except Fault α := do
  let edge ← m.edge e
  let p₁ ← m.position edge.ends.2
  let p₀ ← m.position edge.ends.1
  return (p₁ - p₀).norm

def edgeMidpoint (m : Mesh α) (e : EdgeId) : Except Fault (Vec3 α) := do
  let edge ← m.edge e
  let p₀ ← m.position edge.ends.1
  let p₁ ← m.position edge.ends.2
  return (p₀ + p₁).scale 0.5

/-! ## aggregated normals -/

/-- no normals -/
def clearNormals (m : Mesh α) : Mesh α :=
  { m with
    vertices := m.vertices.map ({ · with normal := .zero })
    edges := m.edges.map ({ · with normal := .zero }) }

/-- the normal `n` added at the side from `a` to `b` of a triangle: at its edge and at its first end -/
def addNormal (n : Vec3 α) (m : Mesh α) (side : VertexId × VertexId) :
    Except (Interrupted α) (Mesh α) :=
  match m.findEdge? side.1 side.2 with
  | none => .error ⟨m, .mesh (.missingEdge side.1 side.2)⟩
  | some e => leaving m do
    let edges ← alter m.edges e fun edge => { edge with normal := edge.normal + n }
    let vertices ← alter m.vertices side.1 fun v => { v with normal := v.normal + n }
    return { m with edges, vertices }

/-- the normal of a triangle added at its three sides -/
def addTriangleNormal (m : Mesh α) (t : TriangleId) : Except (Interrupted α) (Mesh α) := do
  let n ← leaving m (m.areaNormal t)
  let vs ← leaving m (m.triangle t)
  vs.sides.toList.foldlM (addNormal n) m

/-- the direction of a sum of normals -/
def settleNormal (n : Vec3 α) : Vec3 α := n.unit?.getD .zero

/-- every sum of normals replaced by its direction -/
def settleNormals (m : Mesh α) : Mesh α :=
  { m with
    vertices := m.vertices.map fun v => { v with normal := settleNormal v.normal }
    edges := m.edges.map fun e => { e with normal := settleNormal e.normal } }

/-- the normals of all vertices and edges computed again -/
def updateNormals (m : Mesh α) : Except (Interrupted α) (Mesh α) := do
  let sums ← (List.range m.triangles.size).foldlM addTriangleNormal m.clearNormals
  return sums.settleNormals

end Mesh
end DiskCut
