import DiskCut.Fault
import DiskCut.Model
import Std.Data.ExtTreeMap

/-!
# Triangle meshes with derived edges

A mesh is given by its vertices, triangles and feature lines; everything else is derived from
them.

* `Vertex`    position, model entity, aggregated normal
* `Edge`      an unordered pair of vertices, smaller one first, with its feature flag
* `Line`      a feature segment, ends in the order in which it was supplied
* `Mesh`      the given part `vertices`, `triangles`, `lines`, `singularities` and the derived part
              `edges`, `edgeIndex` (pair to edge), `triangleEdges` (side `k` of a triangle),
              `edgeTriangles` (the triangles at an edge), `featureEdges`, `featureStars` (the
              feature edges at each feature vertex)

The accessors that take an identifier are checked: they return a fault when the identifier names
nothing.  An edit in place that stops half way returns the mesh as it left it, `Interrupted`.
-/

namespace DiskCut
open Std

/-! ## unordered pairs -/

/-- the unordered pair of `a` and `b`, smaller one first -/
def edgeKey (a b : VertexId) : VertexId × VertexId := if a ≤ b then (a, b) else (b, a)

/-- pairs by first member, then by second -/
def pairOrder : Nat × Nat → Nat × Nat → Ordering :=
  compareLex (compareOn Prod.fst) (compareOn Prod.snd)

instance pairOrder_trans : TransCmp pairOrder :=
  inferInstanceAs (TransCmp (compareLex (compareOn Prod.fst) (compareOn Prod.snd)))

instance pairOrder_eq : LawfulEqCmp pairOrder where
  eq_of_compare {a b} h := by
    simp only [pairOrder, compareLex_eq_eq, compareOn, Nat.compare_eq_eq] at h
    exact Prod.ext h.1 h.2

theorem edgeKey_comm (a b : VertexId) : edgeKey a b = edgeKey b a := by
  grind [edgeKey]

theorem edgeKey_fst_le (a b : VertexId) : (edgeKey a b).1 ≤ (edgeKey a b).2 := by
  grind [edgeKey]

theorem edgeKey_of_le {a b : VertexId} (h : a ≤ b) : edgeKey a b = (a, b) := by
  simp [edgeKey, h]

theorem edgeKey_eq_iff {a b c d : VertexId} :
    edgeKey a b = edgeKey c d ↔ a = c ∧ b = d ∨ a = d ∧ b = c := by
  grind [edgeKey]

/-! ## the parts of a mesh -/

/-- a vertex; its normal is the area-weighted average of the normals of its triangles -/
@[ext] structure Vertex (α : Type) where
  position : Vec3 α
  entity : Option Entity
  normal : Vec3 α

/-- an edge; `curve` is the tag of the model curve of a feature edge, if it has one -/
@[ext] structure Edge (α : Type) where
  ends : VertexId × VertexId
  normal : Vec3 α
  isFeature : Bool
  curve : Option Int

/-- a feature segment of a curve -/
@[ext] structure Line where
  ends : VertexId × VertexId
  curve : Option Int
deriving DecidableEq, Repr

/-- vertex `v` is an end of the edge -/
def Edge.contains {α : Type} (e : Edge α) (v : VertexId) : Bool := e.ends.1 == v || e.ends.2 == v

/-- the end across from `v`; for a `v` that is no end, the first end -/
def Edge.opposite {α : Type} (e : Edge α) (v : VertexId) : VertexId :=
  if e.ends.1 = v then e.ends.2 else e.ends.1

/-- a triangle mesh with feature lines and singular vertices -/
@[ext] structure Mesh (α : Type) where
  vertices : Array (Vertex α)
  triangles : Array (Triple VertexId)
  lines : Array Line
  edges : Array (Edge α)
  edgeIndex : ExtTreeMap (VertexId × VertexId) EdgeId pairOrder
  triangleEdges : Array (Triple EdgeId)
  edgeTriangles : Array (List TriangleId)
  featureEdges : ExtTreeSet EdgeId
  featureStars : ExtTreeMap VertexId (List EdgeId)
  singularities : ExtTreeMap VertexId SingularityKind

namespace Mesh
variable {α : Type}

/-- the mesh of nothing -/
def empty : Mesh α where
  vertices := #[]
  triangles := #[]
  lines := #[]
  edges := #[]
  edgeIndex := ∅
  triangleEdges := #[]
  edgeTriangles := #[]
  featureEdges := ∅
  featureStars := ∅
  singularities := ∅

instance : Inhabited (Mesh α) := ⟨empty⟩

/-! ## looking up -/

def position (m : Mesh α) (v : VertexId) : Except Fault (Vec3 α) :=
  (·.position) <$> fetch m.vertices v

def triangle (m : Mesh α) (t : TriangleId) : Except Fault (Triple VertexId) :=
  fetch m.triangles t

def edge (m : Mesh α) (e : EdgeId) : Except Fault (Edge α) := fetch m.edges e

/-- the edges of a triangle, side by side -/
def sidesOf (m : Mesh α) (t : TriangleId) : Except Fault (Triple EdgeId) :=
  fetch m.triangleEdges t

/-- the triangles at an edge -/
def trianglesAt (m : Mesh α) (e : EdgeId) : Except Fault (List TriangleId) :=
  fetch m.edgeTriangles e

/-- the edge that joins `a` and `b`, in either order -/
def findEdge? (m : Mesh α) (a b : VertexId) : Option EdgeId := m.edgeIndex[edgeKey a b]?

def isFeatureEdge (m : Mesh α) (e : EdgeId) : Except Fault Bool := (·.isFeature) <$> m.edge e

/-- an edge with fewer than two triangles -/
def isBoundaryEdge (m : Mesh α) (e : EdgeId) : Except Fault Bool :=
  (fun ts => decide (ts.length < 2)) <$> m.trianglesAt e

/-- the vertices on feature edges, in increasing order -/
def featureVertices (m : Mesh α) : List VertexId := m.featureStars.keys

def isFeatureVertex (m : Mesh α) (v : VertexId) : Bool := m.featureStars.contains v

/-- the feature edges at a vertex, in increasing order -/
def featureEdgesAt (m : Mesh α) (v : VertexId) : List EdgeId := m.featureStars.getD v []

def singularity? (m : Mesh α) (v : VertexId) : Option SingularityKind := m.singularities[v]?

def isSingular (m : Mesh α) (v : VertexId) : Bool := m.singularities.contains v

/-- the triangles with their corners -/
def numberedTriangles (m : Mesh α) : List (Triple VertexId × TriangleId) :=
  m.triangles.toList.zipIdx

/-- the points and corners alone -/
def faceVertex (m : Mesh α) : List (Vec3 α) × List (Triple VertexId) :=
  ((m.vertices.map (·.position)).toList, m.triangles.toList)

end Mesh

/-! ## edits that may stop -/

/-- an edit that stopped: the mesh it leaves behind, and why -/
structure Interrupted (α : Type) where
  mesh : Mesh α
  fault : Fault

/-- the result of `x`, or its fault with `m` as the mesh left behind -/
def leaving {α β : Type} (m : Mesh α) (x : Except Fault β) : Except (Interrupted α) β :=
  x.mapError fun fault => ⟨m, fault⟩

/-- the mesh after an edit, completed or not -/
def meshAfter {α : Type} : Except (Interrupted α) (Mesh α) → Mesh α
  | .ok m => m
  | .error stopped => stopped.mesh

section
variable {α β : Type} {m : Mesh α} {x : Except Fault β}

theorem leaving_eq_ok_iff {y : β} : leaving m x = .ok y ↔ x = .ok y := mapError_eq_ok_iff

end
end DiskCut
