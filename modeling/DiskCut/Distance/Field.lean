import DiskCut.Mesh.Basic

/-!
# Distance fields

* `DistanceField`   a distance for every vertex of a mesh; a vertex is reachable when its distance
                    is finite
* `triangleMean`    the mean over the corners of a triangle
* `farthest?`       the first vertex with the largest finite distance, none when no finite distance
                    is above zero

A field belongs to the mesh it was computed on: vertices are places in it.
-/

namespace DiskCut

/-- the distance of each vertex from the nearest of `numSources` different sources -/
structure DistanceField (α : Type) where
  distances : Array α
  numSources : Nat

namespace DistanceField
variable {α : Type}

def size (f : DistanceField α) : Nat := f.distances.size

def isEmpty (f : DistanceField α) : Bool := f.distances.isEmpty

def distance (f : DistanceField α) (v : VertexId) : Except Fault α := fetch f.distances v

/-- the vertices with their distances -/
def numbered (f : DistanceField α) : List (α × VertexId) := f.distances.toList.zipIdx

section
variable [Extended α]

/-- no vertex can be reached -/
def unreachable (count : Nat) : DistanceField α :=
  ⟨(List.replicate count Extended.infinity).toArray, 0⟩

def isReachable (f : DistanceField α) (v : VertexId) : Except Fault Bool :=
  Extended.isFinite <$> f.distance v

/-- the vertices at a finite distance, in increasing order -/
def reachable (f : DistanceField α) : List VertexId :=
  (f.numbered.filter fun (d, _) => Extended.isFinite d).map Prod.snd

end

section
variable [Scalar α]

/-- the mean distance of the corners of a triangle, summed from the first corner on -/
def triangleMean (f : DistanceField α) (m : Mesh α) (t : TriangleId) : Except Fault α := do
  let vs ← m.triangle t
  let d₀ ← f.distance vs.a
  let d₁ ← f.distance vs.b
  let d₂ ← f.distance vs.c
  return ((d₀ + d₁) + d₂) / 3.0

/-- the pair `(v, d)` when `d` is finite and larger than the best so far -/
def fartherOf [Extended α] (best : Option (VertexId × α)) (candidate : α × VertexId) :
    Option (VertexId × α) :=
  let (d, v) := candidate
  let bar := match best with
    | none => 0.0
    | some (_, b) => b
  if Extended.isFinite d && decide (bar < d) then some (v, d) else best

/-- the first vertex with the largest finite distance above zero -/
def farthest? [Extended α] (f : DistanceField α) : Option (VertexId × α) :=
  f.numbered.foldl fartherOf none

end
end DistanceField
end DiskCut
