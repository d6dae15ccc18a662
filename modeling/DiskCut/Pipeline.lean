import DiskCut.CutGraph.Trim
import DiskCut.Distance.Dijkstra
import DiskCut.FeatureCut
import DiskCut.Forest
import DiskCut.Frame

/-!
# From a mesh to its cut graph

`computeCutGraph` cuts a mesh along its features, measures distances to features and
singularities, grows the spanning forest, trims its candidates and, on request, computes the
Darboux frames.  Every part of the result is about the cut mesh; `origin` leads back.

A mesh without triangles, or with neither features nor singularities, has nothing to anchor a cut
graph: a warning says so, and the result has an empty graph on the mesh as it is.

Each stage makes its result known under the name of a `Stage`.
-/

namespace DiskCut
open Std

structure Options (α : Type) where
  /-- the largest distance of interest -/
  cap : Option α
  order : GrowthOrder
  /-- whether Darboux frames are wanted -/
  frames : Bool

instance {α : Type} : Inhabited (Options α) := ⟨⟨none, default, false⟩⟩

/-- a cut graph with everything it was found from -/
structure CutResult (α : Type) where
  mesh : Mesh α
  origin : Array VertexId
  distances : DistanceField α
  numConnections : Nat
  numComponents : Nat
  numCandidates : Nat
  cutGraph : CutGraph
  frames : Option (List (VertexId × Frame α))

variable {α : Type}

/-- the edges of the cut graph as pairs of vertices of the input mesh -/
def CutResult.inputVertexPairs (r : CutResult α) :
    Except Fault (List (VertexId × VertexId)) := do
  (← r.cutGraph.vertexPairs r.mesh).mapM fun ends => do
    return (← fetch r.origin ends.1, ← fetch r.origin ends.2)

/-! ## payloads -/

namespace Payload

/-- the value of a field at vertices -/
def vertexScalars (m : Mesh α) (f : DistanceField α) (vs : List VertexId) :
    Except Fault (Payload α) := do
  return .scalars (← vs.mapM fun v => do return (← m.position v, ← f.distance v))

/-- the normals of all vertices -/
def vertexNormals (m : Mesh α) : Payload α :=
  .vectors (m.vertices.toList.map fun v => (v.position, v.normal))

/-- edges as segments -/
def edgeLines (m : Mesh α) (es : List EdgeId) : Except Fault (Payload α) := do
  return .lines (← es.mapM fun e => do
    let edge ← m.edge e
    return (← m.position edge.ends.1, ← m.position edge.ends.2))

/-- the axes of frames, three vectors at each vertex -/
def frameAxes [Scalar α] (m : Mesh α) (frames : List (VertexId × Frame α)) :
    Except Fault (Payload α) := do
  let items ← frames.mapM fun (v, frame) => do
    let p ← m.position v
    return frame.axes.map (p, ·)
  return .vectors items.flatten

end Payload

namespace Mesh

/-- the vertices that triangles use -/
def usedVertices (m : Mesh α) : ExtTreeSet VertexId :=
  ExtTreeSet.ofList (m.triangles.toList.flatMap Triple.toList) compare

/-- the number of vertices of triangles at an infinite distance -/
def countUnreachable [Extended α] (m : Mesh α) (f : DistanceField α) : Except Fault Nat := do
  let far ← m.usedVertices.toList.filterM fun v => do
    return Extended.isInfinite (← f.distance v)
  return far.length

variable [Scalar α] [Extended α]

/-- the result without a cut -/
def uncut (m : Mesh α) : CutResult α where
  mesh := m
  origin := (List.range m.vertices.size).toArray
  distances := .unreachable m.vertices.size
  numConnections := 0
  numComponents := 0
  numCandidates := 0
  cutGraph := .empty
  frames := none

variable [Trig α]

/-- the frames, when they are wanted -/
def framesIfWanted (m : Mesh α) (wanted : Bool) : Logged α (Option (List (VertexId × Frame α))) :=
  if wanted then do
    let frames ← m.darbouxFrames
    Logged.emit .frames (← Logged.lift (Payload.frameAxes m frames))
    return some frames
  else return none

/-- the stages on a mesh that has triangles and something to anchor a cut graph -/
def cutStages (m : Mesh α) (options : Options α) : Logged α (CutResult α) := do
  let cut ← Logged.lift m.cutAlongFeatures
  Logged.emit .normals (.vertexNormals cut.mesh)
  let distances ← Logged.lift (cut.mesh.distanceToConstraints options.cap)
  let unreachable ← Logged.lift (cut.mesh.countUnreachable distances)
  if unreachable > 0 then Logged.warn (.unconnected unreachable)
  Logged.emit .distances
    (← Logged.lift (Payload.vertexScalars cut.mesh distances distances.reachable))
  let forest ← Logged.lift (cut.mesh.spanningForest distances options.order)
  Logged.emit .candidates (← Logged.lift (Payload.edgeLines cut.mesh forest.candidates.toList))
  let cutGraph ← Logged.lift (cut.mesh.trimCutGraph forest.candidates)
  Logged.emit .cutGraph (← Logged.lift (Payload.edgeLines cut.mesh cutGraph.edges.toList))
  let frames ← cut.mesh.framesIfWanted options.frames
  return {
    mesh := cut.mesh
    origin := cut.origin
    distances
    numConnections := forest.numConnections
    numComponents := forest.numComponents
    numCandidates := forest.candidates.size
    cutGraph
    frames }

/-- the cut graph of a mesh -/
def computeCutGraph (m : Mesh α) (options : Options α) : Logged α (CutResult α) :=
  if m.triangles.isEmpty then do
    Logged.warn .noTriangles
    return m.uncut
  else if m.featureEdges.isEmpty && m.singularities.isEmpty then do
    Logged.warn .nothingToAnchor
    return m.uncut
  else m.cutStages options

end Mesh
end DiskCut
