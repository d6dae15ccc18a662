import DiskCut.Distance.Dijkstra

/-!
# How lengths add up

Addition of lengths rounds, so it is neither associative nor strictly monotone; what a search for
shortest paths needs of it is less.

* `NoMore x y`        `x` does not come after `y` in the order of all values
* `IsLength x`        `x` is a value between zero and infinity
* `LawfulLengths α`   norms are lengths unless they are not a number, and lengths add up monotonically
* `FiniteLengths α`   finite lengths are those less than infinity
* `beyond_mono`       a longer path than allowed stays one
-/

namespace DiskCut
open Std
variable {α : Type}

section
variable [Extended α] {x y z : α}

/-- `x` does not come after `y` in the order of all values -/
def NoMore (x y : α) : Prop := (Extended.totalOrder x y).isLE = true

theorem NoMore.refl (x : α) : NoMore x x := ReflCmp.isLE_rfl

theorem NoMore.trans (h : NoMore x y) (h' : NoMore y z) : NoMore x z := TransCmp.isLE_trans h h'

theorem NoMore.antisymm (h : NoMore x y) (h' : NoMore y x) : x = y := by
  have heq : Extended.totalOrder x y = .eq :=
    Ordering.eq_eq_of_isLE_of_isGE h (OrientedCmp.isGE_iff_isLE.mpr h')
  exact LawfulEqCmp.eq_of_compare heq

theorem NoMore.total (x y : α) : NoMore x y ∨ NoMore y x := by
  unfold NoMore
  rw [← OrientedCmp.isGE_eq_isLE (a := x)]
  cases Extended.totalOrder x y <;> simp

variable [Scalar α]

/-- `x` is a value between zero and infinity -/
structure IsLength (x : α) : Prop where
  zero_noMore : NoMore 0.0 x
  noMore_infinity : NoMore x Extended.infinity

end

/-- what the arithmetic of lengths has to satisfy.  A norm is a length or not a number, and then no
sum with it is less than anything. -/
class LawfulLengths (α : Type) [Scalar α] [Extended α] : Prop where
  zero_noMore_infinity : NoMore (0.0 : α) Extended.infinity
  norm_cases (v : Vec3 α) : IsLength v.norm ∨ ∀ x y : α, ¬ x + v.norm < y
  norm_sub_comm (p q : Vec3 α) : (p - q).norm = (q - p).norm
  lt_iff {x y : α} : IsLength x → IsLength y → (x < y ↔ ¬ NoMore y x)
  lt_of_lt_of_noMore {c x y : α} : IsLength x → IsLength y → c < x → NoMore x y → c < y
  noMore_add {x y : α} : IsLength x → IsLength y → NoMore x (x + y)
  add_noMore_infinity {x y : α} : IsLength x → IsLength y → NoMore (x + y) Extended.infinity
  add_noMore_add {x x' y : α} : IsLength x → IsLength x' → IsLength y → NoMore x x' →
    NoMore (x + y) (x' + y)

/-- what tells finite lengths from others -/
class FiniteLengths (α : Type) [Scalar α] [Extended α] : Prop extends LawfulLengths α where
  isFinite_iff {x : α} : IsLength x → (Extended.isFinite x = true ↔ x < Extended.infinity)
  isLength_norm {v : Vec3 α} : Extended.isFinite v.norm = true → IsLength v.norm
  noMore_add_left {x y : α} : IsLength x → IsLength y → NoMore y (x + y)

section
variable [Scalar α] [Extended α] [LawfulLengths α] {x y z : α}

theorem isLength_zero : IsLength (0.0 : α) := ⟨.refl _, LawfulLengths.zero_noMore_infinity⟩

theorem isLength_infinity : IsLength (Extended.infinity : α) :=
  ⟨LawfulLengths.zero_noMore_infinity, .refl _⟩

theorem IsLength.add (hx : IsLength x) (hy : IsLength y) : IsLength (x + y) where
  zero_noMore := hx.zero_noMore.trans (LawfulLengths.noMore_add hx hy)
  noMore_infinity := LawfulLengths.add_noMore_infinity hx hy

theorem IsLength.noMore_of_not_lt (hx : IsLength x) (hy : IsLength y) (h : ¬ x < y) :
    NoMore y x := by
  rw [LawfulLengths.lt_iff hx hy] at h
  exact Classical.not_not.mp h

theorem IsLength.not_noMore_of_lt (hx : IsLength x) (hy : IsLength y) (h : x < y) :
    ¬ NoMore y x :=
  (LawfulLengths.lt_iff hx hy).mp h

theorem IsLength.noMore_of_lt (hx : IsLength x) (hy : IsLength y) (h : x < y) : NoMore x y :=
  (NoMore.total x y).resolve_right (hx.not_noMore_of_lt hy h)

theorem IsLength.lt_of_noMore_of_lt (hx : IsLength x) (hy : IsLength y) (hz : IsLength z)
    (h : NoMore x y) (h' : y < z) : x < z :=
  (LawfulLengths.lt_iff hx hz).mpr fun hzx => hy.not_noMore_of_lt hz h' (hzx.trans h)

/-- a path no longer than an allowed one is allowed -/
theorem beyond_mono {cap : Option α} (hx : IsLength x) (hy : IsLength y) (h : NoMore x y)
    (within : Search.beyond cap y = false) : Search.beyond cap x = false := by
  unfold Search.beyond at within ⊢
  cases cap with
  | none => rfl
  | some limit =>
    simp only [decide_eq_false_iff_not] at within ⊢
    exact fun hlt => within (LawfulLengths.lt_of_lt_of_noMore hx hy hlt h)

end
end DiskCut
