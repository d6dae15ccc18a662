import Mathlib.Analysis.SpecialFunctions.Complex.Arg
import DiskCut.Frame

/-!
# Vectors over the real numbers

The formulas of the library read over the real numbers, with the real square root and the real
circular functions.  Nothing is rounded, so a law that fails here fails for the formulas and not for
their rounding.

* `exactScalar`, `exactTrig`   the real numbers as scalars
* `dot_scale`, `cross_dot_left`, `cross_dot_right`, `cross_dot_cross`   the algebra of both products
* `norm_eq_one_iff`, `norm_unit`, `dot_sq_lt`   lengths
* `unit_of_dot_self`, `unit?_eq_some`, `unit?_scale`   what the direction of a vector is
* `triple_eq_zero`   three vectors perpendicular to a fourth lie in a plane
-/

namespace DiskCut

/-- the real numbers with their own arithmetic -/
noncomputable instance exactScalar : Scalar ℝ where
  sqrt := Real.sqrt
  ltDecidable := Classical.decRel _
  leDecidable := Classical.decRel _

/-- the real circular functions; the angle of a direction is in `(-π, π]` -/
noncomputable instance exactTrig : Trig ℝ where
  sin := Real.sin
  cos := Real.cos
  atan2 y x := Complex.arg ⟨x, y⟩
  pi := Real.pi

theorem epsilon_pos : (0 : ℝ) < epsilon := by
  unfold epsilon
  norm_num

theorem epsilon_lt_half : (epsilon : ℝ) < 1 / 2 := by
  unfold epsilon
  norm_num

namespace Vec3
variable {u v w d : Vec3 ℝ} {c : ℝ}

/-! ## products -/

theorem zero_eq : (zero : Vec3 ℝ) = ⟨0, 0, 0⟩ := by
  unfold zero
  norm_num

theorem dot_comm (u v : Vec3 ℝ) : u.dot v = v.dot u := by
  unfold dot
  ring

theorem dot_zero (u : Vec3 ℝ) : u.dot zero = 0 := by
  simp [dot, zero_eq]

theorem dot_add (u v w : Vec3 ℝ) : u.dot (v + w) = u.dot v + u.dot w := by
  simp only [dot, add_def]
  ring

theorem dot_sub (u v w : Vec3 ℝ) : u.dot (v - w) = u.dot v - u.dot w := by
  simp only [dot, sub_def]
  ring

theorem dot_scale (u v : Vec3 ℝ) (c : ℝ) : u.dot (v.scale c) = u.dot v * c := by
  unfold dot scale
  ring

theorem cross_dot_left (u v : Vec3 ℝ) : (u.cross v).dot u = 0 := by
  unfold dot cross
  ring

theorem cross_dot_right (u v : Vec3 ℝ) : (u.cross v).dot v = 0 := by
  unfold dot cross
  ring

/-- the length of a cross product, squared -/
theorem cross_dot_cross (u v : Vec3 ℝ) :
    (u.cross v).dot (u.cross v) = u.dot u * v.dot v - u.dot v ^ 2 := by
  unfold dot cross
  ring

theorem dot_self_nonneg (v : Vec3 ℝ) : 0 ≤ v.dot v := by
  unfold dot
  linarith [mul_self_nonneg v.x, mul_self_nonneg v.y, mul_self_nonneg v.z]

theorem dot_self_ne_zero (h : v ≠ zero) : v.dot v ≠ 0 := by
  intro hv
  unfold dot at hv
  have hx : v.x = 0 := by nlinarith [mul_self_nonneg v.y, mul_self_nonneg v.z]
  have hy : v.y = 0 := by nlinarith [mul_self_nonneg v.x, mul_self_nonneg v.z]
  have hz : v.z = 0 := by nlinarith [mul_self_nonneg v.x, mul_self_nonneg v.y]
  exact h (zero_eq ▸ Vec3.ext hx hy hz)

/-- the volume that three vectors in one plane span is zero -/
theorem triple_eq_zero (hw : w ≠ zero) (hu : w.dot u = 0) (hv : w.dot v = 0) (hd : w.dot d = 0) :
    d.dot (u.cross v) = 0 := by
  have e : d.dot (u.cross v) * w.dot w = w.dot u * w.dot (v.cross d) +
      w.dot v * w.dot (d.cross u) + w.dot d * w.dot (u.cross v) := by
    unfold dot cross
    ring
  rw [hu, hv, hd, zero_mul, zero_mul, zero_mul, add_zero, add_zero] at e
  exact (mul_eq_zero.mp e).resolve_right (dot_self_ne_zero hw)

/-! ## lengths and directions -/

theorem norm_mul_norm (v : Vec3 ℝ) : v.norm * v.norm = v.dot v :=
  Real.mul_self_sqrt (dot_self_nonneg v)

/-- factors with a cross product that has a length do not lie on one line -/
theorem dot_sq_lt (h : (u.cross v).norm ≠ 0) : u.dot v ^ 2 < u.dot u * v.dot v := by
  have hpos : 0 < (u.cross v).norm * (u.cross v).norm := mul_self_pos.mpr h
  rw [norm_mul_norm, cross_dot_cross] at hpos
  linarith

theorem norm_eq_one_iff : v.norm = 1 ↔ v.dot v = 1 := Real.sqrt_eq_one

theorem unit_eq_scale (v : Vec3 ℝ) : v.unit = v.scale v.norm⁻¹ :=
  Vec3.ext (div_eq_mul_inv _ _) (div_eq_mul_inv _ _) (div_eq_mul_inv _ _)

theorem dot_unit (u v : Vec3 ℝ) : u.dot v.unit = u.dot v * v.norm⁻¹ := by
  rw [unit_eq_scale, dot_scale]

/-- the direction of a vector that has one -/
theorem unit_dot_unit (h : v.norm ≠ 0) : v.unit.dot v.unit = 1 := by
  rw [dot_unit, dot_comm, dot_unit, ← norm_mul_norm]
  field_simp

theorem norm_unit (h : v.norm ≠ 0) : v.unit.norm = 1 := norm_eq_one_iff.mpr (unit_dot_unit h)

theorem unit_of_dot_self (h : v.dot v = 1) : v.unit = v := by
  rw [unit_eq_scale, norm_eq_one_iff.mpr h]
  simp [scale]

theorem unit?_eq_some (h : v.unit? = some d) : d = v.unit ∧ v.norm ≠ 0 := by
  unfold unit? at h
  split at h
  · cases h
  · rename_i hlong
    exact ⟨(Option.some.inj h).symm, fun hzero => hlong (hzero ▸ epsilon_pos.le)⟩

/-- a multiple of a vector of length one that the test of lengths lets pass -/
theorem unit?_scale (hd : d.dot d = 1) (hc : epsilon < c) : (d.scale c).unit? = some d := by
  have hpos : 0 < c := epsilon_pos.trans hc
  have hnorm : (d.scale c).norm = c := by
    show Real.sqrt ((d.scale c).dot (d.scale c)) = c
    rw [dot_scale, dot_comm, dot_scale, hd, one_mul, Real.sqrt_mul_self hpos.le]
  unfold unit?
  rw [hnorm, if_neg (not_le.mpr hc), unit_eq_scale, hnorm]
  congr 1
  apply Vec3.ext
  all_goals exact mul_inv_cancel_right₀ hpos.ne' _

end Vec3
end DiskCut
