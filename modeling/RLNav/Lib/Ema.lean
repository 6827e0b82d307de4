import Mathlib.Algebra.BigOperators.Intervals
import Mathlib.Algebra.BigOperators.Ring.Finset
import Mathlib.Algebra.Order.Field.Basic
import Mathlib.Tactic.Ring
import Mathlib.Tactic.Linarith

/-!
# Exponential smoothing

`smooth a t u` moves an average `t` towards a sample `u`, keeping the share `a`
of the past.  `average a u n` is the average of the samples `u 0, …, u (n-1)`
from zero, and `average_eq_sum` is its closed form with geometric weights.
-/

namespace Ema

section
variable {R : Type} [Field R]

/-- One smoothing step. -/
def smooth (a t u : R) : R := a * t + (1 - a) * u

/-- The average of the first `n` samples, from zero. -/
def average (a : R) (u : Nat → R) : Nat → R
  | 0 => 0
  | n + 1 => smooth a (average a u n) (u n)

theorem average_const (a b : R) (n : Nat) : average a (fun _ => b) n = (1 - a ^ n) * b := by
  induction n with
  | zero => simp [average]
  | succ n ih =>
      rw [average, smooth, ih, pow_succ]
      ring

/-- The weight of a sample decays with its age. -/
theorem average_eq_sum (a : R) (u : Nat → R) (n : Nat) :
    average a u n = (1 - a) * ∑ i ∈ Finset.range n, a ^ (n - 1 - i) * u i := by
  induction n with
  | zero => simp [average]
  | succ n ih =>
      have hshift : ∑ i ∈ Finset.range n, a ^ (n + 1 - 1 - i) * u i
          = a * ∑ i ∈ Finset.range n, a ^ (n - 1 - i) * u i := by
        rw [Finset.mul_sum]
        refine Finset.sum_congr rfl fun i hi => ?_
        have hi : i < n := Finset.mem_range.mp hi
        rw [show n + 1 - 1 - i = n - 1 - i + 1 by omega, pow_succ]
        ring
      rw [average, smooth, ih, Finset.sum_range_succ, hshift]
      rw [show n + 1 - 1 - n = 0 by omega, pow_zero]
      ring

end

section
variable {R : Type} [Field R] [LinearOrder R] [IsStrictOrderedRing R]

/-- Smoothing two averages with one sample contracts their distance. -/
theorem abs_smooth_sub {a : R} (h₀ : 0 ≤ a) (t t' u : R) :
    |smooth a t u - smooth a t' u| = a * |t - t'| := by
  have hdiff : smooth a t u - smooth a t' u = a * (t - t') := by
    rw [smooth, smooth]
    ring
  rw [hdiff, abs_mul, abs_of_nonneg h₀]

/-- Smoothing keeps two averages as close as they were, if the samples are. -/
theorem abs_smooth_sub_le {a d t t' u u' : R} (h₀ : 0 ≤ a) (h₁ : a ≤ 1) (ht : |t - t'| ≤ d)
    (hu : |u - u'| ≤ d) : |smooth a t u - smooth a t' u'| ≤ d := by
  have hsplit : smooth a t u - smooth a t' u' = a * (t - t') + (1 - a) * (u - u') := by
    rw [smooth, smooth]
    ring
  calc |smooth a t u - smooth a t' u'|
      ≤ |a * (t - t')| + |(1 - a) * (u - u')| := by
        rw [hsplit]
        exact abs_add_le _ _
    _ = a * |t - t'| + (1 - a) * |u - u'| := by
        rw [abs_mul, abs_mul, abs_of_nonneg h₀, abs_of_nonneg (sub_nonneg.mpr h₁)]
    _ ≤ a * d + (1 - a) * d :=
        add_le_add (mul_le_mul_of_nonneg_left ht h₀)
          (mul_le_mul_of_nonneg_left hu (sub_nonneg.mpr h₁))
    _ = d := by ring

/-- Smoothing is monotone in the average and in the sample. -/
theorem smooth_mono {a t t' u u' : R} (h₀ : 0 ≤ a) (h₁ : a ≤ 1) (ht : t ≤ t') (hu : u ≤ u') :
    smooth a t u ≤ smooth a t' u' :=
  add_le_add (mul_le_mul_of_nonneg_left ht h₀) (mul_le_mul_of_nonneg_left hu (sub_nonneg.mpr h₁))

/-- One more sample below `b` brings the average closer to `b` from above. -/
theorem smooth_le_geometric {a b c t u : R} {n : Nat} (h₀ : 0 ≤ a) (h₁ : a ≤ 1)
    (ht : t ≤ a ^ n * c + (1 - a ^ n) * b) (hu : u ≤ b) :
    smooth a t u ≤ a ^ (n + 1) * c + (1 - a ^ (n + 1)) * b := by
  calc smooth a t u ≤ smooth a (a ^ n * c + (1 - a ^ n) * b) b := smooth_mono h₀ h₁ ht hu
    _ = a ^ (n + 1) * c + (1 - a ^ (n + 1)) * b := by
        rw [smooth, pow_succ]
        ring

/-- Smoothing stays strictly above a bound of the samples. -/
theorem lt_smooth {a b t u : R} (h₀ : 0 < a) (h₁ : a ≤ 1) (ht : b < t) (hu : b ≤ u) :
    b < smooth a t u := by
  calc b = smooth a b b := by rw [smooth]; ring
    _ < smooth a t u :=
        add_lt_add_of_lt_of_le (mul_lt_mul_of_pos_left ht h₀)
          (mul_le_mul_of_nonneg_left hu (sub_nonneg.mpr h₁))

end

end Ema
