import DiskCut.Loop
import DiskCut.Mesh.Topology

/-!
# Cutting a mesh along its feature edges

Around a feature vertex the triangles fall into fans, separated by feature edges.  The cut gives
every fan with a feature edge a vertex of its own: the first one keeps the vertex, each further
one gets a copy at the same position on the same model entity.

* `Separation`      the corners of the cut mesh while fans are being separated, with the vertex
                    that each new one was copied from
* `Flood`           one fan at one vertex being walked through
* `separateEdge`    the fans at both ends of a feature edge
* `splitEdge`       the images of a feature edge, seen from its triangles
* `cutEdges`        one feature edge after the other: its fans separated, its images inserted
* `cutAlongFeatures` the cut mesh with the map back to the vertices of the input

A corner is a triangle with a vertex of the input.  Each corner is reached once, so it is moved to
the vertex of one fan only, and once both ends of a feature edge are done its triangles show where
its images run, although other corners of these triangles may still move.
-/

namespace DiskCut
open Std

/-- a triangle and a vertex of the input mesh -/
abbrev Corner := TriangleId × VertexId

/-- a mesh cut along its features: `origin` leads back to the vertices of the input -/
structure FeatureCut (α : Type) where
  mesh : Mesh α
  origin : Array VertexId
  duplicated : Nat

/-- the vertex of the input that a vertex was copied from -/
def FeatureCut.originOf {α : Type} (cut : FeatureCut α) (v : VertexId) : Except Fault VertexId :=
  fetch cut.origin v

namespace Mesh
variable {α : Type}

/-! ## walking through a fan -/

/-- a walk through the triangles of one fan: those still to visit, the corners reached by this and
earlier walks, and the corners of the cut mesh -/
structure Flood where
  stack : List TriangleId
  reached : ExtTreeSet Corner pairOrder
  triangles : Array (Triple VertexId)

/-- a triangle put on the stack unless its corner at `v` was reached before -/
def Flood.reach (v : VertexId) (s : Flood) (t : TriangleId) : Flood :=
  if s.reached.contains (t, v) then s
  else { s with stack := t :: s.stack, reached := s.reached.insert (t, v) }

/-- the walk goes on across edge `e` of triangle `t`, if that is no feature edge -/
def Flood.cross (m : Mesh α) (v : VertexId) (t : TriangleId) (s : Flood) (e : EdgeId) :
    Except Fault Flood := do
  if ← m.isFeatureEdge e then return s
  else return ((← m.trianglesAt e).filter (· != t)).foldl (Flood.reach v) s

/-- one triangle visited: its corner at `v` is moved to `target`, and the walk goes on across its
two edges at that corner -/
def Flood.step (m : Mesh α) (v target : VertexId) (s : Flood) : Except Fault (Option Flood) :=
  match s.stack with
  | [] => .ok none
  | t :: stack => do
    let corners ← m.triangle t
    match corners.place? v with
    | none => return some { s with stack }
    | some k =>
      let triangles ← alter s.triangles t (·.set k target)
      let sides ← m.sidesOf t
      return some (← [sides.get k, sides.getBefore k].foldlM (Flood.cross m v t)
        { s with stack, triangles })

/-! ## separating the fans -/

/-- the fans separated so far; `claimed` holds the vertices that a fan has kept -/
structure Separation where
  triangles : Array (Triple VertexId)
  origin : Array VertexId
  claimed : ExtTreeSet VertexId
  reached : ExtTreeSet Corner pairOrder

/-- nothing separated yet -/
def Separation.start (m : Mesh α) : Separation where
  triangles := m.triangles
  origin := (List.range m.vertices.size).toArray
  claimed := ∅
  reached := ∅

/-- the vertex for the next fan at `v`: itself for the first fan, else a new copy -/
def Separation.claim (s : Separation) (v : VertexId) : Separation × VertexId :=
  if s.claimed.contains v then ({ s with origin := s.origin.push v }, s.origin.size)
  else ({ s with claimed := s.claimed.insert v }, v)

/-- the fan of triangle `seed` at `v` moved to a vertex of its own, unless that was done before -/
def separateFan (m : Mesh α) (v : VertexId) (s : Separation) (seed : TriangleId) :
    Except Fault Separation :=
  if s.reached.contains (seed, v) then .ok s
  else do
    let (s, target) := s.claim v
    let flood ← repeatWhile (Flood.step m v target) (m.triangles.size + 1)
      ⟨[seed], s.reached.insert (seed, v), s.triangles⟩
    return { s with triangles := flood.triangles, reached := flood.reached }

/-- the fans at `v` of the triangles at a feature edge -/
def separateEnd (m : Mesh α) (e : EdgeId) (s : Separation) (v : VertexId) :
    Except Fault Separation := do
  (← m.trianglesAt e).foldlM (m.separateFan v) s

/-- the fans at both ends of a feature edge -/
def separateEdge (m : Mesh α) (s : Separation) (e : EdgeId) : Except Fault Separation := do
  let edge ← m.edge e
  [edge.ends.1, edge.ends.2].foldlM (m.separateEnd e) s

/-! ## the cut mesh -/

section
variable [Scalar α]

/-- side `(before, after)` of a triangle, if it was feature edge `edge` before the cut, inserted as
a feature edge where it runs after the cut -/
def splitSide (edge : Edge α) (cut : Mesh α)
    (side : (VertexId × VertexId) × (VertexId × VertexId)) : Mesh α :=
  let (before, after) := side
  if edgeKey before.1 before.2 = edge.ends then
    (cut.insertFeatureEdge after.1 after.2 edge.curve).1
  else cut

/-- the images of a feature edge seen from one of its triangles -/
def splitAt (m : Mesh α) (edge : Edge α) (cut : Mesh α) (t : TriangleId) :
    Except Fault (Mesh α) := do
  let before ← m.triangle t
  let after ← cut.triangle t
  return (before.sides.toList.zip after.sides.toList).foldl (splitSide edge) cut

/-- the images of a feature edge -/
def splitEdge (m : Mesh α) (cut : Mesh α) (e : EdgeId) : Except Fault (Mesh α) := do
  let edge ← m.edge e
  (← m.trianglesAt e).foldlM (m.splitAt edge) cut

/-- one feature edge cut: the fans at its ends separated, then its images inserted where its
triangles have their corners now -/
def cutEdge (m : Mesh α) (state : Separation × Mesh α) (e : EdgeId) :
    Except Fault (Separation × Mesh α) := do
  let fans ← m.separateEdge state.1 e
  let cut ← m.splitEdge { state.2 with triangles := fans.triangles } e
  return (fans, cut)

/-- all feature edges cut, in the order of the edges -/
def cutEdges (m cut : Mesh α) : Except Fault (Separation × Mesh α) :=
  m.featureEdges.toList.foldlM m.cutEdge (.start m, cut)

/-- the vertices of the cut mesh, copied from the vertices that `origin` names -/
def copiedVertices (m : Mesh α) (origin : Array VertexId) : Except Fault (Array (Vertex α)) := do
  let vertices ← origin.toList.mapM fun v => do
    let vertex ← fetch m.vertices v
    return { vertex with normal := .zero }
  return vertices.toArray

/-- the mesh cut along every feature edge -/
def cutAlongFeatures (m : Mesh α) : Except Fault (FeatureCut α) := do
  let bare := (← m.copy).clearTopology
  let (fans, split) ← m.cutEdges bare
  let vertices ← m.copiedVertices fans.origin
  let dressed := { split with vertices }
  let joined ← dressed.updateEdges.mapError (·.fault)
  let oriented ← joined.updateNormals.mapError (·.fault)
  let cut ← oriented.updateFeatureIncidence
  return ⟨cut, fans.origin, ← less cut.vertices.size m.vertices.size⟩

end
end Mesh
end DiskCut
