import DiskCut.Journal
import DiskCut.Mesh.Geometry

/-!
# Darboux frames at feature vertices

On a mesh that is split along its features, a feature vertex lies on the boundary, between two
feature edges.  Its frame consists of the tangent, the inner normal and the surface normal: the
inner normal halves the angle between the two feature edges on the side of the surface.

* `Frame`          the three axes
* `Bundle`         the directions at a feature vertex from which the frame is computed
* `Bundle.frame`   the frame of such directions
* `frameAt`        the frame of one feature vertex, or none when its geometry degenerates
* `darbouxFrames`  the frames of all feature vertices; a degenerate vertex gets the world frame,
                   with a warning
-/

namespace DiskCut

/-- the axes at a feature vertex -/
@[ext] structure Frame (α : Type) where
  tangent : Vec3 α
  /-- the direction in the surface, away from the feature -/
  inner : Vec3 α
  normal : Vec3 α

/-- the directions at a feature vertex: its normal, the unit directions `first` and `second` of
its feature edges, the unit direction `reference` of an edge of the surface between them, and the
unit vector `side` perpendicular to the normal and `first` -/
structure Bundle (α : Type) where
  normal : Vec3 α
  first : Vec3 α
  second : Vec3 α
  reference : Vec3 α
  side : Vec3 α

variable {α : Type} [Scalar α]

/-- the frame along the axes of space -/
def Frame.world : Frame α := ⟨⟨1.0, 0.0, 0.0⟩, ⟨0.0, 1.0, 0.0⟩, ⟨0.0, 0.0, 1.0⟩⟩

def Frame.axes (f : Frame α) : List (Vec3 α) := [f.tangent, f.inner, f.normal]

namespace Bundle
variable [Trig α]

/-- angles closer to zero than this count as zero when the side of the surface is chosen -/
def angleTolerance : α := 1e-10

/-- the angle of a direction, turning from `first` towards `side` -/
def angleOf (b : Bundle α) (d : Vec3 α) : α := Trig.atan2 (d.dot b.side) (d.dot b.first)

/-- the angle from `first` to `second` through the side on which the reference edge lies -/
def sweep (b : Bundle α) : α :=
  let angle := b.angleOf b.second
  if b.angleOf b.reference > 0.0 then
    if angle ≤ angleTolerance then angle + 2.0 * Trig.pi else angle
  else if angle ≥ -angleTolerance then angle - 2.0 * Trig.pi else angle

/-- the direction half way through the sweep -/
def inner (b : Bundle α) : Vec3 α :=
  let half := b.sweep / 2.0
  (b.first.scale (Trig.cos half) + b.side.scale (Trig.sin half)).unit

/-- the frame whose inner normal halves the sweep -/
def frame (b : Bundle α) : Frame α := ⟨(b.inner.cross b.normal).unit, b.inner, b.normal⟩

end Bundle

namespace Mesh

/-- the unit direction from `p` to vertex `v`, none when the two are too close -/
def directionTo? (m : Mesh α) (p : Vec3 α) (v : VertexId) : Except Fault (Option (Vec3 α)) := do
  return ((← m.position v) - p).unit?

/-- the directions at `v` towards the other ends of its two feature edges and of the reference
edge; none as soon as one of them has no length -/
def bundle? (m : Mesh α) (v first second reference : VertexId) :
    Except Fault (Option (Bundle α)) := do
  let p ← m.position v
  let normal := (← fetch m.vertices v).normal
  let some d₁ ← m.directionTo? p first | return none
  let some d₂ ← m.directionTo? p second | return none
  let some d ← m.directionTo? p reference | return none
  let some side := (normal.cross d₁).unit? | return none
  return some ⟨normal, d₁, d₂, d, side⟩

/-- the first edge of a triangle other than `e` with an end at `v` -/
def referenceEdge? (m : Mesh α) (v : VertexId) (e : EdgeId) :
    List EdgeId → Except Fault (Option (Edge α))
  | [] => .ok none
  | e' :: rest =>
    if e' = e then m.referenceEdge? v e rest
    else do
      let edge ← m.edge e'
      if edge.contains v then return some edge else m.referenceEdge? v e rest

/-- the directions at feature vertex `v`.  It must have two feature edges, the first of them must
be bounded by one triangle, and that triangle must have another edge at `v`. -/
def bundleAt? (m : Mesh α) (v : VertexId) : Except Fault (Option (Bundle α)) :=
  match m.featureEdgesAt v with
  | [e₁, e₂] => do
    match ← m.trianglesAt e₁ with
    | [t] =>
      match ← m.referenceEdge? v e₁ (← m.sidesOf t).toList with
      | some reference =>
        m.bundle? v ((← m.edge e₁).opposite v) ((← m.edge e₂).opposite v) (reference.opposite v)
      | none => .error (.mesh (.missingReferenceEdge v))
    | _ => .error (.mesh (.notSplitAlongFeatures v))
  | es => .error (.mesh (.featureValence v es.length))

variable [Trig α]

/-- the frame of feature vertex `v`, the world frame when its directions degenerate -/
def frameAt (m : Mesh α) (v : VertexId) : Logged α (VertexId × Frame α) := do
  match ← Logged.lift (m.bundleAt? v) with
  | some b => return (v, b.frame)
  | none =>
    Logged.warn (.degenerateAt v)
    return (v, .world)

/-- the frames of all feature vertices, in increasing order -/
def darbouxFrames (m : Mesh α) : Logged α (List (VertexId × Frame α)) :=
  m.featureVertices.mapM m.frameAt

end Mesh
end DiskCut
