import DiskCut.Scalar

/-!
# Points and vectors of space

One type serves for both.  The order of the operations in `dot` and `norm` is part of the
definition: left to right, `x` before `y` before `z`.

* `dot`, `cross`, `norm`   the usual products, `norm v = sqrt (x² + y² + z²)`
* `unit?`                  the direction of a vector, none when it is no longer than `epsilon`
* `unit`                   the direction without that test
-/

namespace DiskCut

/-- a point or vector of space -/
@[ext] structure Vec3 (α : Type) where
  x : α
  y : α
  z : α
deriving DecidableEq, Repr

namespace Vec3
variable {α : Type} [Scalar α]

instance : Add (Vec3 α) := ⟨fun u v => ⟨u.x + v.x, u.y + v.y, u.z + v.z⟩⟩
instance : Sub (Vec3 α) := ⟨fun u v => ⟨u.x - v.x, u.y - v.y, u.z - v.z⟩⟩

theorem add_def (u v : Vec3 α) : u + v = ⟨u.x + v.x, u.y + v.y, u.z + v.z⟩ := rfl
theorem sub_def (u v : Vec3 α) : u - v = ⟨u.x - v.x, u.y - v.y, u.z - v.z⟩ := rfl

def zero : Vec3 α := ⟨0.0, 0.0, 0.0⟩

/-- every coordinate times `c` -/
def scale (v : Vec3 α) (c : α) : Vec3 α := ⟨v.x * c, v.y * c, v.z * c⟩

/-- every coordinate over `c` -/
def divide (v : Vec3 α) (c : α) : Vec3 α := ⟨v.x / c, v.y / c, v.z / c⟩

def dot (u v : Vec3 α) : α := (u.x * v.x + u.y * v.y) + u.z * v.z

def cross (u v : Vec3 α) : Vec3 α :=
  ⟨u.y * v.z - u.z * v.y, u.z * v.x - u.x * v.z, u.x * v.y - u.y * v.x⟩

def norm (v : Vec3 α) : α := Scalar.sqrt ((v.x * v.x + v.y * v.y) + v.z * v.z)

/-- the direction of `v`, for a `v` whose length is known not to vanish -/
def unit (v : Vec3 α) : Vec3 α := v.divide v.norm

/-- the direction of `v`; a vector no longer than `epsilon` has none.  A length that is not a
number is not `≤ epsilon` and passes the test. -/
def unit? (v : Vec3 α) : Option (Vec3 α) :=
  if v.norm ≤ epsilon then none else some v.unit

end Vec3
end DiskCut
