import DiskCut.Mesh.Edit

/-!
# Deriving the topology of a mesh

* `updateEdges`              edges and adjacency from the triangles; edges that are there keep their
                             feature flag, plain edges that no triangle uses are dropped
* `markFeatureLines`         the edge of every line flagged as a feature
* `updateFeatureIncidence`   the feature edges at each vertex from the set of feature edges
* `deriveTopology`           everything derived afresh from triangles and lines
* `copy`                     an independent mesh on the same given part, derived afresh
* `isValid`                  the derived part fits the triangles

An edge belongs to two triangles at most.  A third triangle at an edge stops the update; what was
inserted and recorded until then stays in the mesh.
-/

namespace DiskCut
open Std
namespace Mesh
variable {α : Type}

/-! ## feature incidence -/

/-- edge `e` recorded at its end `v` -/
def addRay (e : EdgeId) (stars : ExtTreeMap VertexId (List EdgeId)) (v : VertexId) :
    ExtTreeMap VertexId (List EdgeId) :=
  stars.insert v (stars.getD v [] ++ [e])

/-- edge `e` recorded at both ends -/
def addFeatureRays (m : Mesh α) (stars : ExtTreeMap VertexId (List EdgeId)) (e : EdgeId) :
    Except Fault (ExtTreeMap VertexId (List EdgeId)) := do
  let edge ← m.edge e
  return [edge.ends.1, edge.ends.2].foldl (addRay e) stars

/-- the feature edges at each vertex, found again from the set of feature edges -/
def updateFeatureIncidence (m : Mesh α) : Except Fault (Mesh α) := do
  return { m with featureStars := ← m.featureEdges.toList.foldlM m.addFeatureRays ∅ }

/-! ## dropping unused edges -/

/-- new numbers for the members that are kept, counted from `next` -/
def renumber : Nat → List Bool → List (Option Nat)
  | _, [] => []
  | next, true :: keep => some next :: renumber (next + 1) keep
  | next, false :: keep => none :: renumber next keep

/-- edge and adjacency are worth keeping: a feature, or a side of a triangle -/
def isUsed (slot : Edge α × List TriangleId) : Bool := slot.1.isFeature || !slot.2.isEmpty

/-- the new number of an edge, the old one if it has none -/
def renamed (names : Array (Option EdgeId)) (e : EdgeId) : Except Fault EdgeId :=
  (·.getD e) <$> fetch names e

/-- plain edges without triangles removed and the others numbered again, in the old order -/
def dropUnusedEdges (m : Mesh α) : Except Fault (Mesh α) :=
  let slots := m.edges.toList.zip m.edgeTriangles.toList
  if slots.all isUsed then .ok m
  else do
    let kept := slots.filter isUsed
    let names := (renumber 0 (slots.map isUsed)).toArray
    let triangleEdges ← m.triangleEdges.toList.mapM fun sides => do
      return (⟨← renamed names sides.a, ← renamed names sides.b, ← renamed names sides.c⟩ :
        Triple EdgeId)
    let featureEdges ← m.featureEdges.toList.mapM (fetch names)
    updateFeatureIncidence
      { m with
        edges := (kept.map Prod.fst).toArray
        edgeTriangles := (kept.map Prod.snd).toArray
        edgeIndex := ExtTreeMap.ofList (kept.map (·.1.ends)).zipIdx pairOrder
        triangleEdges := triangleEdges.toArray
        featureEdges := ExtTreeSet.ofList (featureEdges.filterMap id) compare }

/-! ## edges and adjacency -/

section
variable [Scalar α]

/-- the side from `a` to `b` of triangle `t` recorded: its edge, and `t` at that edge -/
def joinSide (m : Mesh α) (t : TriangleId) (a b : VertexId) :
    Except (Interrupted α) (Mesh α × EdgeId) := do
  let (m, e, _) := m.insertEdge a b
  let present ← leaving m (m.trianglesAt e)
  if present.length = 2 then
    let edge ← leaving m (m.edge e)
    .error ⟨m, .mesh (.nonManifoldEdge edge.ends.1 edge.ends.2)⟩
  else
    let edgeTriangles ← leaving m (alter m.edgeTriangles e (· ++ [t]))
    return ({ m with edgeTriangles }, e)

/-- the three sides of a triangle recorded -/
def joinTriangle (m : Mesh α) (numbered : Triple VertexId × TriangleId) :
    Except (Interrupted α) (Mesh α) := do
  let (corners, t) := numbered
  let (m, e₀) ← m.joinSide t corners.a corners.b
  let (m, e₁) ← m.joinSide t corners.b corners.c
  let (m, e₂) ← m.joinSide t corners.c corners.a
  return { m with triangleEdges := m.triangleEdges.push ⟨e₀, e₁, e₂⟩ }

/-- no triangle is recorded at any edge -/
def clearAdjacency (m : Mesh α) : Mesh α :=
  { m with triangleEdges := #[], edgeTriangles := m.edgeTriangles.map fun _ => [] }

/-- edges and adjacency brought up to date with the triangles -/
def updateEdges (m : Mesh α) : Except (Interrupted α) (Mesh α) := do
  let joined ← m.numberedTriangles.foldlM joinTriangle m.clearAdjacency
  leaving joined joined.dropUnusedEdges

/-! ## features -/

/-- the edge of a line flagged as a feature of its curve -/
def markLine (m : Mesh α) (line : Line) : Except (Interrupted α) (Mesh α) :=
  match m.findEdge? line.ends.1 line.ends.2 with
  | none => .error ⟨m, .mesh (.featureEdgeNotFound line.ends.1 line.ends.2)⟩
  | some e => leaving m do
    let edges ← alter m.edges e ({ · with isFeature := true, curve := line.curve })
    return { m with edges, featureEdges := m.featureEdges.insert e }

def markFeatureLines (m : Mesh α) : Except (Interrupted α) (Mesh α) :=
  m.lines.toList.foldlM markLine m

/-- everything derived afresh from triangles and lines -/
def deriveTopology (m : Mesh α) : Except (Interrupted α) (Mesh α) := do
  let bare := { m.clearTopology with lines := m.lines }
  let joined ← bare.updateEdges
  let oriented ← joined.updateNormals
  let marked ← oriented.markFeatureLines
  leaving marked marked.updateFeatureIncidence

/-- an independent mesh with the same vertices, triangles, lines and singularities -/
def copy (m : Mesh α) : Except Fault (Mesh α) :=
  let given : Mesh α :=
    { empty with
      vertices := m.vertices
      triangles := m.triangles
      lines := m.lines
      singularities := m.singularities }
  given.deriveTopology.mapError (·.fault)

end

/-! ## validity -/

/-- side `e` of triangle `t` is an edge that joins `a` and `b` and knows `t` -/
def isSide (m : Mesh α) (t : TriangleId) (e : EdgeId) (a b : VertexId) : Bool :=
  match m.edges[e]?, m.edgeTriangles[e]? with
  | some edge, some present => edge.contains a && edge.contains b && present.contains t
  | _, _ => false

/-- the recorded sides of triangle `t` are its sides -/
def hasSides (m : Mesh α) (numbered : Triple VertexId × TriangleId) : Bool :=
  let (corners, t) := numbered
  match m.triangleEdges[t]? with
  | some sides =>
    m.isSide t sides.a corners.a corners.b && m.isSide t sides.b corners.b corners.c
      && m.isSide t sides.c corners.c corners.a
  | none => false

/-- edge `e` has different ends, is found by them, knows whether it is a feature, and has one or
two triangles; a feature edge may have none -/
def isConsistentEdge (m : Mesh α) (numbered : Edge α × EdgeId) : Bool :=
  let (edge, e) := numbered
  let count := (m.edgeTriangles[e]?.getD []).length
  decide (edge.ends.1 < edge.ends.2) && m.edgeIndex[edge.ends]? == some e
    && edge.isFeature == m.featureEdges.contains e
    && decide (count ≤ 2) && (decide (0 < count) || edge.isFeature)

/-- the derived part of the mesh fits its triangles -/
def isValid (m : Mesh α) : Bool :=
  m.triangleEdges.size == m.triangles.size && m.edgeTriangles.size == m.edges.size
    && m.edgeIndex.size == m.edges.size
    && m.numberedTriangles.all m.hasSides
    && m.edges.toList.zipIdx.all m.isConsistentEdge

end Mesh
end DiskCut
