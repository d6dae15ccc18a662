import Std.Data.ExtTreeSet

/-!
# Scalars

Coordinates, lengths and distances live in a type `α` with the arithmetic that the surface code
uses.  The same definitions run on binary64 numbers (the instances below) and can be read over
an exact field.

* `Scalar`     `+ - * /`, decimal constants, square root, `<` and `≤`
* `Extended`   infinity, finiteness, and a total order of ALL values, "not a number" included
* `Trig`       the circular functions

Sums and products are never reassociated: on binary64 numbers the order of the operations shows
in the last bits, so each formula of the library fixes it.
-/

namespace DiskCut
open Std

/-- the arithmetic of coordinates and lengths -/
class Scalar (α : Type) extends Add α, Sub α, Mul α, Div α, Neg α, OfScientific α, LT α, LE α where
  sqrt : α → α
  ltDecidable : DecidableLT α
  leDecidable : DecidableLE α

attribute [reducible, instance] Scalar.ltDecidable Scalar.leDecidable

/-- scalars with infinities; a value that is neither finite nor infinite is "not a number" -/
class Extended (α : Type) where
  infinity : α
  isFinite : α → Bool
  isInfinite : α → Bool
  /-- an order of all values in which different values never tie -/
  totalOrder : α → α → Ordering
  totalOrder_trans : TransCmp totalOrder
  totalOrder_eq : LawfulEqCmp totalOrder

attribute [instance] Extended.totalOrder_trans Extended.totalOrder_eq

/-- the circular functions, angles in radians -/
class Trig (α : Type) where
  sin : α → α
  cos : α → α
  /-- the value `atan2 y x` is the angle of the direction `(x, y)`, between `-π` and `π` -/
  atan2 : α → α → α
  pi : α

/-- the gap between `1` and the next binary64 number; lengths up to it count as zero -/
def epsilon {α : Type} [Scalar α] : α := 1.0 / 4503599627370496.0

/-! ## orders pulled back along a key -/

/-- the order `cmp` on the keys `f a`, `f b` -/
def orderBy {β γ : Type} (cmp : γ → γ → Ordering) (f : β → γ) (a b : β) : Ordering :=
  cmp (f a) (f b)

instance orderBy_trans {β γ : Type} (cmp : γ → γ → Ordering) [TransCmp cmp] (f : β → γ) :
    TransCmp (orderBy cmp f) where
  eq_swap {a b} := show cmp (f a) (f b) = (cmp (f b) (f a)).swap from OrientedCmp.eq_swap
  isLE_trans {a _ c} := fun h k => show (cmp (f a) (f c)).isLE from TransCmp.isLE_trans h k

theorem eq_of_orderBy_eq {β γ : Type} {cmp : γ → γ → Ordering} [LawfulEqCmp cmp] {f : β → γ}
    {a b : β} (h : orderBy cmp f a b = .eq) : f a = f b :=
  LawfulEqCmp.eq_of_compare h

/-! ## binary64 -/

/-- the place of a number among all numbers: the bits read as sign and magnitude, so that `-0.0`
comes just before `0.0` and "not a number" after `∞` -/
def floatPlace (x : Float) : Int :=
  if x.toBits.toNat < 0x8000000000000000 then x.toBits.toNat
  else 0x7FFFFFFFFFFFFFFF - (x.toBits.toNat : Int)

theorem toBits_injective {x y : Float} (h : x.toBits = y.toBits) : x = y := by
  obtain ⟨⟨a, ha⟩⟩ := x
  obtain ⟨⟨b, hb⟩⟩ := y
  change a = b at h
  subst h
  rfl

theorem floatPlace_injective {x y : Float} (h : floatPlace x = floatPlace y) : x = y := by
  apply toBits_injective
  apply UInt64.toNat_inj.mp
  unfold floatPlace at h
  split at h <;> split at h <;> omega

instance : Scalar Float where
  sqrt := Float.sqrt
  ltDecidable := inferInstance
  leDecidable := inferInstance

instance : Extended Float where
  infinity := Float.ofBits 0x7ff0000000000000
  isFinite := Float.isFinite
  isInfinite := Float.isInf
  totalOrder := orderBy compare floatPlace
  totalOrder_trans := inferInstance
  totalOrder_eq :=
    { compare_self := by simp [orderBy]
      eq_of_compare := fun h => floatPlace_injective (eq_of_orderBy_eq h) }

instance : Trig Float where
  sin := Float.sin
  cos := Float.cos
  atan2 := Float.atan2
  pi := 3.141592653589793

end DiskCut
