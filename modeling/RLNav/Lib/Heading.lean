import Mathlib.Algebra.Quaternion
import Mathlib.Analysis.SpecialFunctions.Complex.Arg

/-!
# Headings of orientations

A unit quaternion `q` turns a vector `v` to `q * v * star q`.  `forward q` is the
horizontal part of the turned `x` axis, as a point of `ℂ`, and its argument is the
heading.  A turn about the vertical axis from the left, that is in the world,
turns `forward` by its angle (`forward_turn`).
-/

namespace Heading

open scoped Quaternion
open Complex (I exp arg)

noncomputable section

/-- Quaternions over the real numbers. -/
abbrev Orientation := ℍ[ℝ]

/-- The vector `v` in the orientation `q`. -/
def rotate (q v : Orientation) : Orientation := q * v * star q

/-- The `x` axis. -/
def xAxis : Orientation := ⟨0, 1, 0, 0⟩

/-- The horizontal part of the turned `x` axis. -/
def forward (q : Orientation) : ℂ := ⟨(rotate q xAxis).imI, (rotate q xAxis).imJ⟩

/-- The turn by `θ` about the vertical axis. -/
def turn (θ : ℝ) : Orientation := ⟨Real.cos (0.5 * θ), 0, 0, Real.sin (0.5 * θ)⟩

/-- The turn about the vertical axis by twice the argument of `h`. -/
def level (h : ℂ) : Orientation := ⟨h.re, 0, 0, h.im⟩

@[simp] theorem xAxis_re : xAxis.re = 0 := rfl
@[simp] theorem xAxis_imI : xAxis.imI = 1 := rfl
@[simp] theorem xAxis_imJ : xAxis.imJ = 0 := rfl
@[simp] theorem xAxis_imK : xAxis.imK = 0 := rfl

@[simp] theorem turn_re (θ : ℝ) : (turn θ).re = Real.cos (0.5 * θ) := rfl
@[simp] theorem turn_imI (θ : ℝ) : (turn θ).imI = 0 := rfl
@[simp] theorem turn_imJ (θ : ℝ) : (turn θ).imJ = 0 := rfl
@[simp] theorem turn_imK (θ : ℝ) : (turn θ).imK = Real.sin (0.5 * θ) := rfl

@[simp] theorem level_re (h : ℂ) : (level h).re = h.re := rfl
@[simp] theorem level_imI (h : ℂ) : (level h).imI = 0 := rfl
@[simp] theorem level_imJ (h : ℂ) : (level h).imJ = 0 := rfl
@[simp] theorem level_imK (h : ℂ) : (level h).imK = h.im := rfl

/-- `q` and `-q` are one orientation. -/
theorem rotate_neg (q v : Orientation) : rotate (-q) v = rotate q v := by
  rw [rotate, rotate]
  ext <;>
    simp only [Quaternion.re_mul, Quaternion.imI_mul, Quaternion.imJ_mul, Quaternion.imK_mul,
      Quaternion.re_star, Quaternion.imI_star, Quaternion.imJ_star, Quaternion.imK_star,
      Quaternion.re_neg, Quaternion.imI_neg, Quaternion.imJ_neg, Quaternion.imK_neg] <;>
    ring

theorem forward_neg (q : Orientation) : forward (-q) = forward q := by
  rw [forward, forward, rotate_neg]

theorem rotate_mul (p q v : Orientation) : rotate (p * q) v = rotate p (rotate q v) := by
  simp [rotate, mul_assoc]

/-- A turn about the vertical axis on the horizontal part of a vector. -/
theorem rotate_turn (θ : ℝ) (v : Orientation) :
    (⟨(rotate (turn θ) v).imI, (rotate (turn θ) v).imJ⟩ : ℂ) = exp (θ * I) * ⟨v.imI, v.imJ⟩ := by
  have hdouble : 2 * (0.5 * θ) = θ := by
    rw [← mul_assoc]
    norm_num
  have hcos : Real.cos θ = Real.cos (0.5 * θ) ^ 2 - Real.sin (0.5 * θ) ^ 2 := by
    rw [← Real.cos_two_mul', hdouble]
  have hsin : Real.sin θ = 2 * Real.sin (0.5 * θ) * Real.cos (0.5 * θ) := by
    rw [← Real.sin_two_mul, hdouble]
  apply Complex.ext
  · rw [Complex.mul_re, Complex.exp_ofReal_mul_I_re, Complex.exp_ofReal_mul_I_im, hcos, hsin]
    simp [rotate]
    ring
  · rw [Complex.mul_im, Complex.exp_ofReal_mul_I_re, Complex.exp_ofReal_mul_I_im, hcos, hsin]
    simp [rotate]
    ring

/-- A turn in the world turns the `x` axis by its angle. -/
theorem forward_turn (θ : ℝ) (q : Orientation) :
    forward (turn θ * q) = exp (θ * I) * forward q := by
  rw [forward, rotate_mul, rotate_turn, forward]

/-- The turned axis of a unit quaternion in terms of the products that decoders
compute. -/
theorem forward_eq {q : Orientation} (hq : Quaternion.normSq q = 1) :
    forward q = ⟨1 - 2 * (q.imJ * q.imJ + q.imK * q.imK),
      2 * (q.re * q.imK + q.imI * q.imJ)⟩ := by
  rw [Quaternion.normSq_def'] at hq
  apply Complex.ext
  · simp [forward, rotate]
    linarith
  · simp [forward, rotate]
    ring

theorem normSq_turn (θ : ℝ) : Quaternion.normSq (turn θ) = 1 := by
  simp [Quaternion.normSq_def']

/-- A turn from the level faces along its angle. -/
theorem forward_of_turn (θ : ℝ) : forward (turn θ) = exp (θ * I) := by
  have hlevel : forward 1 = 1 := by
    apply Complex.ext
    · simp [forward, rotate]
    · simp [forward, rotate]
  rw [← mul_one (turn θ), forward_turn, hlevel, mul_one]

theorem normSq_level (h : ℂ) : Quaternion.normSq (level h) = ‖h‖ ^ 2 := by
  rw [Quaternion.normSq_def', Complex.sq_norm, Complex.normSq_apply]
  simp
  ring

theorem forward_level (h : ℂ) : forward (level h) = h ^ 2 := by
  rw [sq]
  apply Complex.ext
  · simp [forward, rotate]
    ring
  · simp [forward, rotate]

/-- Unless the axis is vertical, the heading of a turned orientation is the heading
plus the angle, up to full turns. -/
theorem arg_forward_turn {q : Orientation} (hq : forward q ≠ 0) (θ : ℝ) :
    ∃ k : ℤ, arg (forward (turn θ * q)) = arg (forward q) + θ + k * (2 * Real.pi) := by
  have hangle : (arg (forward (turn θ * q)) : Real.Angle) = (arg (forward q) + θ : ℝ) := by
    rw [forward_turn, Complex.arg_mul_coe_angle (Complex.exp_ne_zero _) hq, Real.Angle.coe_add,
      add_comm, Complex.arg_exp_mul_I, Real.Angle.coe_toIocMod]
  obtain ⟨k, hk⟩ := Real.Angle.angle_eq_iff_two_pi_dvd_sub.mp hangle
  refine ⟨k, ?_⟩
  rw [← sub_eq_iff_eq_add', hk]
  ring

end

end Heading
