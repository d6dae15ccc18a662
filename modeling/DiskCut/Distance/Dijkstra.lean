import DiskCut.Distance.Field
import DiskCut.Loop
import DiskCut.Mesh.Geometry
import DiskCut.Queue

/-!
# Shortest edge paths from several sources

Dijkstra's search on the graph of the mesh edges, weighted by their lengths.

* `roads`                    the edges at each vertex, with the vertex across and the length
* `Arrival`                  a path that was found, as it waits in the queue: shorter ones first, of
                             equal ones the lower vertex first
* `Search`                   labels and queue
* `Search.step`              one arrival taken from the queue; it is stale, and passed over, when
                             its vertex has a shorter label by now
* `distancesFrom`            distances from a list of sources, no farther than a cap
* `distanceToConstraints`    distances from the feature vertices and singularities

A longer path than the cap is dropped where it arises; a cap that is not a number drops nothing.
Lengths that are infinite or not a number never shorten a label.
-/

namespace DiskCut
open Std
variable {α : Type} [Scalar α] [Extended α]

/-- a vertex with the length of a path to it -/
structure Arrival (α : Type) where
  distance : α
  vertex : VertexId

/-- shorter paths first, of equal ones the lower vertex -/
def Arrival.order : Arrival α → Arrival α → Ordering :=
  compareLex (orderBy Extended.totalOrder Arrival.distance) (compareOn Arrival.vertex)

instance Arrival.order_trans : TransCmp (order : Arrival α → Arrival α → Ordering) :=
  inferInstanceAs (TransCmp
    (compareLex (orderBy Extended.totalOrder Arrival.distance) (compareOn Arrival.vertex)))

instance Arrival.order_eq : LawfulEqCmp (order : Arrival α → Arrival α → Ordering) where
  eq_of_compare {a b} h := by
    simp only [Arrival.order, compareLex_eq_eq, compareOn, Nat.compare_eq_eq] at h
    obtain ⟨d, v⟩ := a
    obtain ⟨e, w⟩ := b
    obtain rfl : d = e := eq_of_orderBy_eq h.1
    obtain rfl : v = w := h.2
    rfl

/-- the edges at each vertex: the vertex across, and the length -/
abbrev Roads (α : Type) := Array (List (VertexId × α))

namespace Mesh

/-- edge `e` entered at both ends -/
def addRoad (m : Mesh α) (roads : Roads α) (e : EdgeId) : Except Fault (Roads α) := do
  let edge ← m.edge e
  let length ← m.edgeLength e
  let there ← alter roads edge.ends.1 (· ++ [(edge.ends.2, length)])
  alter there edge.ends.2 (· ++ [(edge.ends.1, length)])

/-- the edges of the mesh as seen from their ends -/
def roads (m : Mesh α) : Except Fault (Roads α) :=
  (List.range m.edges.size).foldlM m.addRoad (List.replicate m.vertices.size []).toArray

end Mesh

/-! ## the search -/

/-- the labels found so far and the paths that wait to be extended -/
structure Search (α : Type) [Scalar α] [Extended α] where
  distances : Array α
  queue : Queue (Arrival α) Arrival.order

namespace Search

/-- label `0` at the sources, which all wait in the queue -/
def start (count : Nat) (sources : List VertexId) : Search α where
  distances := sources.foldl (·.setIfInBounds · 0.0)
    (List.replicate count Extended.infinity).toArray
  queue := ExtTreeSet.ofList (sources.map (⟨0.0, ·⟩)) Arrival.order

/-- a path of length `reach` is longer than allowed -/
def beyond (cap : Option α) (reach : α) : Bool :=
  match cap with
  | none => false
  | some limit => decide (limit < reach)

/-- a path of length `base` extended along a road; a shorter path than known becomes the label -/
def relax (cap : Option α) (base : α) (s : Search α) (road : VertexId × α) :
    Except Fault (Search α) := do
  let reach := base + road.2
  if beyond cap reach then return s
  let label ← fetch s.distances road.1
  if reach < label then
    return { distances := ← alter s.distances road.1 fun _ => reach
             queue := s.queue.insert ⟨reach, road.1⟩ }
  else return s

/-- the nearest arrival taken from the queue and, unless it is stale, extended along all roads -/
def step (roads : Roads α) (cap : Option α) (s : Search α) : Except Fault (Option (Search α)) :=
  match Queue.pop? s.queue with
  | none => .ok none
  | some (arrival, rest) => do
    let label ← fetch s.distances arrival.vertex
    let waiting : Search α := { s with queue := rest }
    if label < arrival.distance then return some waiting
    else do
      let ahead ← fetch roads arrival.vertex
      return some (← ahead.foldlM (relax cap arrival.distance) waiting)

end Search

/-! ## distances -/

namespace Mesh

/-- the different sources that are vertices, in increasing order -/
def sourcesIn (m : Mesh α) (sources : List VertexId) : List VertexId :=
  (ExtTreeSet.ofList (sources.filter (· < m.vertices.size)) compare).toList

/-- the distance of every vertex from the nearest source; beyond the cap it is infinite.  A vertex
is settled once, so the queue sees each source and each end of an edge once at most. -/
def distancesFrom (m : Mesh α) (sources : List VertexId) (cap : Option α) :
    Except Fault (DistanceField α) :=
  let starts := m.sourcesIn sources
  if starts.isEmpty then .ok (.unreachable m.vertices.size)
  else do
    let roads ← m.roads
    let found ← repeatWhile (Search.step roads cap) (starts.length + 2 * m.edges.size + 1)
      (Search.start m.vertices.size starts)
    return ⟨found.distances, starts.length⟩

/-- the vertices that constrain a cut: feature vertices and singularities -/
def constraints (m : Mesh α) : List VertexId := m.featureVertices ++ m.singularities.keys

/-- the distance of every vertex from the nearest feature vertex or singularity -/
def distanceToConstraints (m : Mesh α) (cap : Option α) : Except Fault (DistanceField α) :=
  m.distancesFrom m.constraints cap

end Mesh
end DiskCut
