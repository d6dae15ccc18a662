import DiskCut.Mesh.Basic

/-!
# Cut graphs

A cut graph is a set of edges of a mesh, with the number of candidates that were given up for it.

* `vertexPairs`   its edges as pairs of vertices
* `degrees`       the number of its edges at each vertex that it touches
* `leaves`        the vertices with exactly one
-/

namespace DiskCut
open Std

/-- a set of edges; `removed` counts the candidates that are not among them -/
@[ext] structure CutGraph where
  edges : ExtTreeSet EdgeId
  removed : Nat

namespace CutGraph
variable {α : Type}

def empty : CutGraph := ⟨∅, 0⟩

instance : Inhabited CutGraph := ⟨empty⟩

def size (g : CutGraph) : Nat := g.edges.size

def isEmpty (g : CutGraph) : Bool := g.edges.isEmpty

def contains (g : CutGraph) (e : EdgeId) : Bool := g.edges.contains e

/-- the edges as pairs of vertices, in the order of the edges -/
def vertexPairs (g : CutGraph) (m : Mesh α) : Except Fault (List (VertexId × VertexId)) :=
  g.edges.toList.mapM fun e => (·.ends) <$> m.edge e

/-- one more edge at `v` -/
def countAt (degrees : ExtTreeMap VertexId Nat) (v : VertexId) : ExtTreeMap VertexId Nat :=
  degrees.insert v (degrees.getD v 0 + 1)

/-- the number of edges at each vertex that the graph touches, in increasing order -/
def degrees (g : CutGraph) (m : Mesh α) : Except Fault (List (VertexId × Nat)) := do
  let pairs ← g.vertexPairs m
  return ((pairs.flatMap fun ends => [ends.1, ends.2]).foldl countAt ∅).toList

/-- the number of edges at `v`; an edge from `v` to itself counts once -/
def degree (g : CutGraph) (m : Mesh α) (v : VertexId) : Except Fault Nat := do
  let edges ← g.edges.toList.mapM m.edge
  return edges.countP (·.contains v)

/-- the vertices with exactly one edge, in increasing order -/
def leaves (g : CutGraph) (m : Mesh α) : Except Fault (List VertexId) := do
  return ((← g.degrees m).filter (·.2 == 1)).map Prod.fst

end CutGraph
end DiskCut
