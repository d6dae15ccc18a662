/-!
# Sized identifiers

Vertices, edges and triangles are named by an index that is stored in 16, 32 or 64 bits.  The
largest value of the width is no index: it is the null identifier.

* `Width`   the storage width, its null value `sentinel` and its largest index `maxIndex`
* `Ident`   an identifier of a kind of element, shown as `V(42)`, `E(7)`, `T(INVALID)`

A mesh itself counts with natural numbers, under the precondition that its sizes fit the width: it has
at most `maxIndex + 1` vertices, edges and triangles.  Every number that names an element is then an
index of the width, no two of them are stored alike, and none is the null identifier.
-/

namespace DiskCut

inductive Width where
  | bits16
  | bits32
  | bits64
deriving DecidableEq, Repr

namespace Width

/-- the value kept for the null identifier: all bits set, the largest of the width -/
def sentinel : Width → Nat
  | bits16 => 0xFFFF
  | bits32 => 0xFFFFFFFF
  | bits64 => 0xFFFFFFFFFFFFFFFF

/-- the largest index -/
def maxIndex (w : Width) : Nat := w.sentinel - 1

end Width

/-- what an identifier names -/
inductive ElementKind where
  | vertex
  | edge
  | triangle
deriving DecidableEq, Repr

def ElementKind.letter : ElementKind → String
  | .vertex => "V"
  | .edge => "E"
  | .triangle => "T"

/-- an identifier of an element of the kind `kind`, stored in width `w` -/
structure Ident (w : Width) (kind : ElementKind) where
  index : Nat
deriving DecidableEq, Repr

namespace Ident
variable {w : Width} {kind : ElementKind}

/-- the null identifier, also the default one -/
def null : Ident w kind := ⟨w.sentinel⟩

instance : Inhabited (Ident w kind) := ⟨null⟩

def isValid (i : Ident w kind) : Bool := i.index != w.sentinel

/-- the letter of the kind with the index, or with `INVALID` -/
def text (i : Ident w kind) : String :=
  if i.isValid then s!"{kind.letter}({i.index})" else s!"{kind.letter}(INVALID)"

/-- identifiers are ordered by index, so the null identifier comes last -/
def sort (ids : List (Ident w kind)) : List (Ident w kind) :=
  ids.mergeSort fun i j => i.index ≤ j.index

end Ident

/-! ## the identifiers of a mesh -/

/-- a vertex by its number; it stands for an identifier of a width `w` as long as the mesh has at most
`w.maxIndex + 1` vertices -/
abbrev VertexId := Nat

/-- an edge by its number, with the same precondition on the number of edges -/
abbrev EdgeId := Nat

/-- a triangle by its number, with the same precondition on the number of triangles -/
abbrev TriangleId := Nat

end DiskCut
