import Mathlib.Analysis.SpecialFunctions.Complex.Arg

/-!
# Rigid motions of the plane

The plane is `ℂ`.  A rigid motion is a rotation followed by a translation.  It
keeps distances, and it keeps the bearing of one direction relative to another,
across the cut of the argument as well (`bearing_mul`).
-/

namespace Planar

noncomputable section

open Complex (I exp arg)

/-- A rotation by `angle` followed by a translation by `shift`. -/
structure Rigid where
  angle : ℝ
  shift : ℂ

namespace Rigid

/-- The rotation, as a factor. -/
def rot (g : Rigid) : ℂ := exp (g.angle * I)

def act (g : Rigid) (z : ℂ) : ℂ := g.rot * z + g.shift

theorem norm_rot (g : Rigid) : ‖g.rot‖ = 1 := Complex.norm_exp_ofReal_mul_I g.angle

theorem rot_ne_zero (g : Rigid) : g.rot ≠ 0 := Complex.exp_ne_zero _

theorem act_sub (g : Rigid) (z w : ℂ) : g.act z - g.act w = g.rot * (z - w) := by
  rw [act, act]
  ring

/-- A rigid motion keeps distances. -/
theorem norm_act_sub (g : Rigid) (z w : ℂ) : ‖g.act z - g.act w‖ = ‖z - w‖ := by
  rw [act_sub, norm_mul, norm_rot, one_mul]

/-- Half of the rotation, as a factor. -/
def half (g : Rigid) : ℂ := exp ((0.5 * g.angle : ℝ) * I)

theorem half_sq (g : Rigid) : g.half ^ 2 = g.rot := by
  rw [half, rot, ← Complex.exp_nat_mul]
  congr 1
  push_cast
  ring

theorem norm_half (g : Rigid) : ‖g.half‖ = 1 := Complex.norm_exp_ofReal_mul_I _

end Rigid

/-! ## Directions -/

/-- The directions `x` and `y` are at most `tol` apart, up to full turns. -/
def Within (tol x y : ℝ) : Prop := ∃ k : ℤ, |x - y - (2 * k : ℤ) * Real.pi| ≤ tol

theorem Within.of_le {tol x y : ℝ} (h : |x - y| ≤ tol) : Within tol x y :=
  ⟨0, by rwa [mul_zero, Int.cast_zero, zero_mul, sub_zero]⟩

/-- Only the difference of the directions matters. -/
theorem within_congr {tol x y x' y' : ℝ} (h : x - y = x' - y') :
    Within tol x y ↔ Within tol x' y' := by
  rw [Within, Within, h]

theorem Within.trans {tol tol' x y z : ℝ} (h : Within tol x y) (h' : Within tol' y z) :
    Within (tol + tol') x z := by
  obtain ⟨k, hk⟩ := h
  obtain ⟨k', hk'⟩ := h'
  refine ⟨k + k', ?_⟩
  have hsplit : x - z - (2 * (k + k') : ℤ) * Real.pi =
      (x - y - (2 * k : ℤ) * Real.pi) + (y - z - (2 * k' : ℤ) * Real.pi) := by
    push_cast
    ring
  rw [hsplit]
  exact (abs_add_le _ _).trans (add_le_add hk hk')

theorem within_comm {tol x y : ℝ} : Within tol x y ↔ Within tol y x := by
  have hswap : ∀ {x y : ℝ}, Within tol x y → Within tol y x := by
    rintro x y ⟨k, hk⟩
    refine ⟨-k, ?_⟩
    have heq : y - x - (2 * -k : ℤ) * Real.pi = -(x - y - (2 * k : ℤ) * Real.pi) := by
      push_cast
      ring
    rwa [heq, abs_neg]
  exact ⟨hswap, hswap⟩

/-- Full turns do not matter. -/
theorem Within.of_turns {tol x y x' y' : ℝ} (k : ℤ) (h : Within tol x y)
    (heq : x' - y' = x - y + k * (2 * Real.pi)) : Within tol x' y' := by
  obtain ⟨j, hj⟩ := h
  refine ⟨j + k, ?_⟩
  have hcancel : x' - y' - (2 * (j + k) : ℤ) * Real.pi = x - y - (2 * j : ℤ) * Real.pi := by
    rw [heq]
    push_cast
    ring
  rwa [hcancel]

/-- Wrapping a direction to `(-π, π]` takes off full turns. -/
theorem arg_exp_turns (x : ℝ) : ∃ k : ℤ, x = arg (exp (x * I)) + k * (2 * Real.pi) := by
  refine ⟨toIocDiv Real.two_pi_pos (-Real.pi) x, ?_⟩
  rw [Complex.arg_exp_mul_I, ← zsmul_eq_mul, toIocMod_add_toIocDiv_zsmul]

/-! ## Bearings -/

/-- The bearing of `d` relative to `u`, wrapped to `(-π, π]`. -/
def bearing (d u : ℂ) : ℝ := arg (exp ((arg d - arg u : ℝ) * I))

/-- The bearing is the argument of the quotient. -/
theorem bearing_eq {d u : ℂ} (hd : d ≠ 0) (hu : u ≠ 0) : bearing d u = arg (d / u) := by
  have hd' : 0 < ‖d‖ := norm_pos_iff.mpr hd
  have hu' : 0 < ‖u‖ := norm_pos_iff.mpr hu
  have hquot : d / u = ((‖d‖ / ‖u‖ : ℝ) : ℂ) * exp ((arg d - arg u : ℝ) * I) := by
    rw [Complex.ofReal_sub, sub_mul, Complex.exp_sub, Complex.ofReal_div, div_mul_div_comm,
      Complex.norm_mul_exp_arg_mul_I, Complex.norm_mul_exp_arg_mul_I]
  rw [bearing, hquot, Complex.arg_real_mul _ (div_pos hd' hu')]

/-- Turning both directions alike keeps the bearing. -/
theorem bearing_mul {r d u : ℂ} (hr : r ≠ 0) (hd : d ≠ 0) (hu : u ≠ 0) :
    bearing (r * d) (r * u) = bearing d u := by
  rw [bearing_eq (mul_ne_zero hr hd) (mul_ne_zero hr hu), bearing_eq hd hu,
    mul_div_mul_left d u hr]

end

end Planar
