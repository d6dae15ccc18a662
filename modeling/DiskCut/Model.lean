import DiskCut.Ident
import DiskCut.Triple
import DiskCut.Vec3

/-!
# Models

The flat description of a meshed surface model: points, triangles grouped by surface, segments
grouped by curve, and named groups of point entities.  Nothing here is derived; the builders turn
a model into a mesh.

* `Entity`           what a mesh point lies on: a model point, curve or surface
* `Model`            points, surfaces, curves and groups, all naming points by their index
* `SingularityKind`  the five prescribed singularities and the names of their groups
-/

namespace DiskCut

/-- the part of the model that a mesh point is classified on -/
inductive Entity where
  | point (tag : Int)
  | curve (tag : Int)
  | surface (tag : Int)
deriving DecidableEq, Repr

structure ModelPoint (α : Type) where
  position : Vec3 α
  entity : Option Entity
deriving DecidableEq, Repr

/-- the triangles of one surface and the tags of the curves on it -/
structure Surface where
  tag : Int
  triangles : List (Triple Nat)
  curves : List Int
deriving DecidableEq, Repr

/-- the segments of one curve -/
structure Curve where
  tag : Int
  segments : List (Nat × Nat)
deriving DecidableEq, Repr

/-- a model point with the mesh points on it, of which only the first can be singular -/
structure PointEntity where
  tag : Int
  vertices : List Nat
deriving DecidableEq, Repr

/-- a named group of point entities -/
structure Group where
  name : String
  points : List PointEntity
deriving DecidableEq, Repr

structure Model (α : Type) where
  points : Array (ModelPoint α)
  surfaces : List Surface
  curves : List Curve
  groups : List Group

namespace Model
variable {α : Type}

/-- the first surface with the tag -/
def surface? (model : Model α) (tag : Int) : Option Surface :=
  model.surfaces.find? (·.tag = tag)

/-- the first curve with the tag -/
def curve? (model : Model α) (tag : Int) : Option Curve :=
  model.curves.find? (·.tag = tag)

end Model

/-! ## singularities -/

/-- the prescribed singularity at a vertex, named by the number of quadrilaterals that are to
meet there -/
inductive SingularityKind where
  | two
  | three
  | five
  | six
  | eight
deriving DecidableEq, Repr

namespace SingularityKind

/-- the angular defect in quarter turns -/
def value : SingularityKind → Int
  | two => -2
  | three => -1
  | five => 1
  | six => 2
  | eight => 4

/-- the name of the group that designates such vertices -/
def groupName : SingularityKind → String
  | two => "SINGULARITY_OF_INDEX_TWO"
  | three => "SINGULARITY_OF_INDEX_THREE"
  | five => "SINGULARITY_OF_INDEX_FIVE"
  | six => "SINGULARITY_OF_INDEX_SIX"
  | eight => "SINGULARITY_OF_INDEX_EIGHT"

def all : List SingularityKind := [two, three, five, six, eight]

/-- the singularity that a group designates, if its name is one of the five -/
def ofGroupName? (name : String) : Option SingularityKind :=
  all.find? (·.groupName = name)

theorem ofGroupName?_groupName (kind : SingularityKind) :
    ofGroupName? kind.groupName = some kind := by
  cases kind <;> decide

theorem groupName_of_ofGroupName? {name : String} {kind : SingularityKind}
    (h : ofGroupName? name = some kind) : kind.groupName = name := by
  simpa using List.find?_some h

theorem value_injective {a b : SingularityKind} (h : a.value = b.value) : a = b := by
  revert h
  cases a <;> cases b <;> decide

end SingularityKind
end DiskCut
