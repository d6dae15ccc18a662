import Mathlib.Analysis.SpecialFunctions.Trigonometric.Complex
import DiskCut.Proofs.Frame.Euclidean

/-!
# The axes of a frame

The inner normal comes of turning the first edge about the vertex normal, as if the two were
perpendicular.  On a curved mesh they need not be, and then the inner normal keeps a part of the
tilt of the first edge; the tangent is perpendicular to both others anyway.

* `Frame.Orthonormal`    three axes of length one, perpendicular to each other
* `Frame.Tilted f a`     the same, but for inner normal and normal with product `a`
* `Bundle.Proper`        directions such as a mesh gives
* `Bundle.Proper.frame`  the frame of such directions is tilted by `Bundle.tilt`
* `Bundle.cos_halfSweep_eq_zero_iff`   the turn leaves no tilt when the second edge goes straight
                         back
* `Bundle.Proper.orthonormal_iff`   so that or a first edge perpendicular to the normal makes it orthonormal
-/

namespace DiskCut

/-! ## frames -/

namespace Frame
variable {f : Frame ℝ} {a : ℝ}

/-- the axes have length one and are perpendicular to each other -/
def Orthonormal (f : Frame ℝ) : Prop :=
  (∀ u ∈ f.axes, u.norm = 1) ∧ f.axes.Pairwise fun u v => u.dot v = 0

/-- the axes have length one and the tangent is perpendicular to the two others, whose product
is `a` -/
structure Tilted (f : Frame ℝ) (a : ℝ) : Prop where
  norm : ∀ u ∈ f.axes, u.norm = 1
  tangent_inner : f.tangent.dot f.inner = 0
  tangent_normal : f.tangent.dot f.normal = 0
  inner_normal : f.inner.dot f.normal = a

theorem Tilted.orthonormal_iff (h : f.Tilted a) : f.Orthonormal ↔ a = 0 := by
  unfold Orthonormal
  rw [and_iff_right h.norm]
  simp [axes, h.tangent_inner, h.tangent_normal, h.inner_normal]

theorem tilted_world : (world : Frame ℝ).Tilted 0 where
  norm := by
    simp only [axes, world, List.forall_mem_cons, Vec3.norm_eq_one_iff, Vec3.dot]
    norm_num
  tangent_inner := by
    simp only [world, Vec3.dot]
    norm_num
  tangent_normal := by
    simp only [world, Vec3.dot]
    norm_num
  inner_normal := by
    simp only [world, Vec3.dot]
    norm_num

end Frame

/-! ## directions at a vertex -/

namespace Bundle

/-- half the angle from the first to the second edge -/
noncomputable def halfSweep (b : Bundle ℝ) : ℝ := b.sweep / 2

/-- the part of the tilt of the first edge that its turn towards the side keeps -/
noncomputable def tilt (b : Bundle ℝ) : ℝ := b.first.dot b.normal * Real.cos b.halfSweep

/-- normal, first edge and side have length one, the side is perpendicular to the two others, and
these do not lie on one line -/
structure Proper (b : Bundle ℝ) : Prop where
  normal : b.normal.dot b.normal = 1
  first : b.first.dot b.first = 1
  side : b.side.dot b.side = 1
  side_normal : b.side.dot b.normal = 0
  side_first : b.side.dot b.first = 0
  apart : b.first.dot b.normal ^ 2 < 1

variable {b : Bundle ℝ}

/-! ## the inner normal -/

theorem inner_eq (b : Bundle ℝ) : b.inner =
    (b.first.scale (Real.cos b.halfSweep) + b.side.scale (Real.sin b.halfSweep)).unit := by
  have e : b.halfSweep = b.sweep / 2.0 := by
    unfold halfSweep
    norm_num
  rw [e]
  rfl

section
variable (h : b.Proper)
include h

/-- first edge and side are perpendicular, so the turned direction has length one as it is -/
theorem Proper.turned_dot_self :
    (b.first.scale (Real.cos b.halfSweep) + b.side.scale (Real.sin b.halfSweep)).dot
      (b.first.scale (Real.cos b.halfSweep) + b.side.scale (Real.sin b.halfSweep)) = 1 := by
  have hside := (Vec3.dot_comm b.first b.side).trans h.side_first
  rw [Vec3.dot_add, Vec3.dot_scale, Vec3.dot_scale, Vec3.dot_comm _ b.first,
    Vec3.dot_comm _ b.side, Vec3.dot_add, Vec3.dot_add]
  simp only [Vec3.dot_scale, h.first, h.side, h.side_first, hside]
  linarith [Real.cos_sq_add_sin_sq b.halfSweep]

theorem Proper.inner_dot_self : b.inner.dot b.inner = 1 := by
  rw [inner_eq, Vec3.unit_of_dot_self h.turned_dot_self, h.turned_dot_self]

theorem Proper.inner_dot_normal : b.inner.dot b.normal = b.tilt := by
  rw [inner_eq, Vec3.unit_of_dot_self h.turned_dot_self, Vec3.dot_comm, Vec3.dot_add,
    Vec3.dot_scale, Vec3.dot_scale, Vec3.dot_comm _ b.first, Vec3.dot_comm _ b.side,
    h.side_normal, zero_mul, add_zero]
  rfl

/-- the inner normal is no closer to the normal than the first edge -/
theorem Proper.tilt_sq_lt : b.tilt ^ 2 < 1 := by
  unfold tilt
  calc (b.first.dot b.normal * Real.cos b.halfSweep) ^ 2
      = b.first.dot b.normal ^ 2 * Real.cos b.halfSweep ^ 2 := mul_pow _ _ 2
    _ ≤ b.first.dot b.normal ^ 2 * 1 :=
        mul_le_mul_of_nonneg_left (Real.cos_sq_le_one _) (sq_nonneg _)
    _ < 1 := by rw [mul_one]; exact h.apart

theorem Proper.norm_cross_ne_zero : (b.inner.cross b.normal).norm ≠ 0 := by
  intro hzero
  have e := Vec3.cross_dot_cross b.inner b.normal
  rw [← Vec3.norm_mul_norm, hzero, h.inner_dot_self, h.normal, h.inner_dot_normal] at e
  linarith [h.tilt_sq_lt]

/-- the frame of proper directions has unit axes and a tangent perpendicular to both others; its
inner normal is tilted as the turn has left it -/
theorem Proper.frame : b.frame.Tilted b.tilt where
  norm := by
    simp only [Frame.axes, Bundle.frame, List.forall_mem_cons]
    exact ⟨Vec3.norm_unit h.norm_cross_ne_zero, Vec3.norm_eq_one_iff.mpr h.inner_dot_self,
      Vec3.norm_eq_one_iff.mpr h.normal, fun _ hu => absurd hu List.not_mem_nil⟩
  tangent_inner := by
    show (b.inner.cross b.normal).unit.dot b.inner = 0
    rw [Vec3.dot_comm, Vec3.dot_unit, Vec3.dot_comm, Vec3.cross_dot_left, zero_mul]
  tangent_normal := by
    show (b.inner.cross b.normal).unit.dot b.normal = 0
    rw [Vec3.dot_comm, Vec3.dot_unit, Vec3.dot_comm, Vec3.cross_dot_right, zero_mul]
  inner_normal := h.inner_dot_normal

end

/-! ## the sweep -/

theorem angleTolerance_eq : (angleTolerance : ℝ) = 1e-10 := rfl

theorem neg_pi_lt_angleOf (b : Bundle ℝ) (d : Vec3 ℝ) : -Real.pi < b.angleOf d :=
  Complex.neg_pi_lt_arg _

theorem angleOf_le_pi (b : Bundle ℝ) (d : Vec3 ℝ) : b.angleOf d ≤ Real.pi := Complex.arg_le_pi _

/-- the second edge is at the angle `π` when it goes straight back -/
theorem angleOf_eq_pi_iff {d : Vec3 ℝ} :
    b.angleOf d = Real.pi ↔ d.dot b.first < 0 ∧ d.dot b.side = 0 :=
  Complex.arg_eq_pi_iff

/-- the sweep, on either side -/
theorem sweep_cases (b : Bundle ℝ) :
    (b.sweep = b.angleOf b.second + 2 * Real.pi ∧ b.angleOf b.second ≤ 1e-10) ∨
      (b.sweep = b.angleOf b.second ∧ 1e-10 < b.angleOf b.second) ∨
      (b.sweep = b.angleOf b.second - 2 * Real.pi ∧ -1e-10 ≤ b.angleOf b.second) ∨
      (b.sweep = b.angleOf b.second ∧ b.angleOf b.second < -1e-10) := by
  have e : (2.0 : ℝ) * Trig.pi = 2 * Real.pi := by
    show (2.0 : ℝ) * Real.pi = 2 * Real.pi
    norm_num
  unfold sweep
  rw [angleTolerance_eq, e]
  simp only
  split
  · split
    · exact .inl ⟨rfl, ‹_›⟩
    · exact .inr (.inl ⟨rfl, not_le.mp ‹_›⟩)
  · split
    · exact .inr (.inr (.inl ⟨rfl, ‹_›⟩))
    · exact .inr (.inr (.inr ⟨rfl, not_le.mp ‹_›⟩))

/-- the sweep is a half turn exactly when the second edge goes straight back -/
theorem sweep_eq_pi_iff (b : Bundle ℝ) :
    b.sweep = Real.pi ∨ b.sweep = -Real.pi ↔ b.angleOf b.second = Real.pi := by
  have hlow := b.neg_pi_lt_angleOf b.second
  have hhigh := b.angleOf_le_pi b.second
  have hpi := Real.two_le_pi
  have htol : (1e-10 : ℝ) < 2 := by norm_num
  have htol' : (0 : ℝ) < 1e-10 := by norm_num
  constructor
  · intro h
    rcases b.sweep_cases with ⟨e, _⟩ | ⟨e, _⟩ | ⟨e, _⟩ | ⟨e, _⟩ <;> rw [e] at h <;>
      rcases h with h | h <;> linarith
  · intro h
    rcases b.sweep_cases with ⟨e, hle⟩ | ⟨e, _⟩ | ⟨e, _⟩ | ⟨e, hlt⟩
    · linarith
    · exact .inl (e.trans h)
    · exact .inr (by linarith)
    · linarith

theorem abs_sweep_lt (b : Bundle ℝ) : |b.sweep| < 3 * Real.pi := by
  have hlow := b.neg_pi_lt_angleOf b.second
  have hhigh := b.angleOf_le_pi b.second
  have hpi := Real.two_le_pi
  have htol : (1e-10 : ℝ) < 2 := by norm_num
  rw [abs_lt]
  rcases b.sweep_cases with ⟨e, _⟩ | ⟨e, _⟩ | ⟨e, _⟩ | ⟨e, _⟩ <;> rw [e]
  all_goals constructor <;> linarith

theorem cos_halfSweep_eq_zero_iff (b : Bundle ℝ) :
    Real.cos b.halfSweep = 0 ↔ b.angleOf b.second = Real.pi := by
  rw [← b.sweep_eq_pi_iff, Real.cos_eq_zero_iff]
  unfold halfSweep
  constructor
  · rintro ⟨k, hk⟩
    -- an odd multiple of `π` between `-3π` and `3π` is `π` or `-π`
    have hsweep : b.sweep = (2 * k + 1 : ℤ) * Real.pi := by
      push_cast
      linarith
    have hlt := b.abs_sweep_lt
    rw [hsweep, abs_mul, abs_of_pos Real.pi_pos] at hlt
    have hsmall : |2 * k + 1| < 3 := by
      exact_mod_cast lt_of_mul_lt_mul_right hlt Real.pi_pos.le
    rw [abs_lt] at hsmall
    obtain rfl | rfl : k = 0 ∨ k = -1 := by omega
    · exact .inl (by rw [hsweep]; norm_num)
    · exact .inr (by rw [hsweep]; norm_num)
  · rintro (h | h)
    · exact ⟨0, by rw [h]; norm_num⟩
    · exact ⟨-1, by rw [h]; norm_num⟩

/-- proper directions give an orthonormal frame when the first edge is perpendicular to the normal,
or the second goes straight back; in no other case -/
theorem Proper.orthonormal_iff (h : b.Proper) :
    b.frame.Orthonormal ↔ b.first.dot b.normal = 0 ∨ b.angleOf b.second = Real.pi := by
  rw [h.frame.orthonormal_iff, tilt, mul_eq_zero, cos_halfSweep_eq_zero_iff]

end Bundle
end DiskCut
