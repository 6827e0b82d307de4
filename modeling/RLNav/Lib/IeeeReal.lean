import RLNav.Lib.Ieee
import Mathlib.Analysis.SpecialFunctions.Complex.Arg
import Mathlib.Data.Finset.Lattice.Fold

/-!
# The format of exact real arithmetic

`Ieee ℝ` with the math library of the real numbers: `hypot` is the Euclidean
norm, `atan2` the argument of a complex number, `M_PI` is `π` and both
precisions are the same format.  A law that a program has in exact arithmetic is
a law at this format, special values included.

At finite arguments every operation is the operation on the reals, and the simp
set of this file says so.
-/

namespace Ieee

noncomputable section

open Complex (arg)

/-- The Euclidean norm.  An infinite argument wins over a NaN. -/
def hypot : Ieee ℝ → Ieee ℝ → Ieee ℝ
  | fin x, fin y => fin (√(x ^ 2 + y ^ 2))
  | posInf, _ | _, posInf | negInf, _ | _, negInf => posInf
  | nan, _ | _, nan => nan

/-- The bearing of `(x, y)`, in `(-π, π]`. -/
def atan2 : Ieee ℝ → Ieee ℝ → Ieee ℝ
  | nan, _ | _, nan => nan
  | fin y, fin x => fin (arg ⟨x, y⟩)
  | fin _, posInf => fin 0
  | fin y, negInf => fin (if 0 ≤ y then Real.pi else -Real.pi)
  | posInf, fin _ => fin (Real.pi / 2)
  | negInf, fin _ => fin (-(Real.pi / 2))
  | posInf, posInf => fin (Real.pi / 4)
  | posInf, negInf => fin (3 * Real.pi / 4)
  | negInf, posInf => fin (-(Real.pi / 4))
  | negInf, negInf => fin (-(3 * Real.pi / 4))

def sin : Ieee ℝ → Ieee ℝ
  | fin x => fin (Real.sin x)
  | _ => nan

def cos : Ieee ℝ → Ieee ℝ
  | fin x => fin (Real.cos x)
  | _ => nan

/-- The nearest integer, a tie away from zero. -/
def roundHalfAway (x : ℝ) : Int :=
  if 0 ≤ x then ⌊x + 1 / 2⌋ else -⌊-x + 1 / 2⌋

/-- Rounding moves a number by at most a half. -/
theorem abs_sub_roundHalfAway (x : ℝ) : |x - roundHalfAway x| ≤ 1 / 2 := by
  rw [roundHalfAway, abs_le]
  split
  next hpos =>
    have hle := Int.floor_le (x + 1 / 2)
    have hlt := Int.lt_floor_add_one (x + 1 / 2)
    constructor <;> linarith
  next hneg =>
    have hle := Int.floor_le (-x + 1 / 2)
    have hlt := Int.lt_floor_add_one (-x + 1 / 2)
    push_cast
    constructor <;> linarith

def lround : Ieee ℝ → Option Int
  | fin x => some (roundHalfAway x)
  | _ => none

/-- The largest finite double. -/
def dblMax : ℚ := (2 - 1 / 2 ^ 52) * 2 ^ 1023

instance : CFloat (Ieee ℝ) where
  add := Ieee.add
  sub a b := Ieee.add a (Ieee.neg b)
  mul := Ieee.mul
  div := Ieee.div
  lit q := fin q
  infinity := posInf
  maxValue := fin dblMax
  pi := fin Real.pi
  lt := Ieee.lt
  le := Ieee.le
  eq := Ieee.eq
  isfinite := Ieee.isFinite
  abs := Ieee.abs
  sin := Ieee.sin
  cos := Ieee.cos
  atan2 := Ieee.atan2
  hypot := Ieee.hypot
  lround := Ieee.lround

instance : FloatCast (Ieee ℝ) (Ieee ℝ) where
  toFloat := id
  toDouble := id

end

/-! ## Finite arguments -/

section
variable (x y : ℝ)

@[simp] theorem add_fin : (fin x + fin y : Ieee ℝ) = fin (x + y) := rfl
@[simp] theorem sub_fin : (fin x - fin y : Ieee ℝ) = fin (x - y) := by
  rw [sub_eq_add_neg]; rfl
@[simp] theorem mul_fin : (fin x * fin y : Ieee ℝ) = fin (x * y) := rfl

theorem div_fin {y : ℝ} (hy : y ≠ 0) : (fin x / fin y : Ieee ℝ) = fin (x / y) :=
  if_neg hy

@[simp] theorem lit_eq (q : ℚ) : (CFloat.lit q : Ieee ℝ) = fin (q : ℝ) := rfl
@[simp] theorem pi_eq : (CFloat.pi : Ieee ℝ) = fin Real.pi := rfl
@[simp] theorem maxValue_eq : (CFloat.maxValue : Ieee ℝ) = fin (dblMax : ℝ) := rfl
@[simp] theorem cfloat_lt (a b : Ieee ℝ) : CFloat.lt a b = Ieee.lt a b := rfl
@[simp] theorem cfloat_le (a b : Ieee ℝ) : CFloat.le a b = Ieee.le a b := rfl
@[simp] theorem cfloat_eq (a b : Ieee ℝ) : CFloat.eq a b = Ieee.eq a b := rfl
@[simp] theorem cfloat_isfinite (a : Ieee ℝ) : CFloat.isfinite a = a.isFinite := rfl
@[simp] theorem abs_fin : (CFloat.abs (fin x) : Ieee ℝ) = fin |x| := rfl
@[simp] theorem sin_fin : (CFloat.sin (fin x) : Ieee ℝ) = fin (Real.sin x) := rfl
@[simp] theorem cos_fin : (CFloat.cos (fin x) : Ieee ℝ) = fin (Real.cos x) := rfl
@[simp] theorem hypot_fin : (CFloat.hypot (fin x) (fin y) : Ieee ℝ) = fin (√(x ^ 2 + y ^ 2)) :=
  rfl
@[simp] theorem atan2_fin :
    (CFloat.atan2 (fin y) (fin x) : Ieee ℝ) = fin (Complex.arg ⟨x, y⟩) := rfl
@[simp] theorem toFloat_eq (a : Ieee ℝ) : (FloatCast.toFloat a : Ieee ℝ) = a := rfl
@[simp] theorem toDouble_eq (a : Ieee ℝ) : (FloatCast.toDouble a : Ieee ℝ) = a := rfl

end

theorem isnan_eq (a : Ieee ℝ) : CFloat.isnan a = a.isNaN := by
  cases a <;> simp [CFloat.isnan, eq, isNaN]

theorem one_lt_dblMax : (1 : ℝ) < dblMax := by
  have hpow : (1 : ℝ) ≤ 2 ^ 1023 := one_le_pow₀ one_le_two
  have hfactor : (1 : ℝ) < 2 - 1 / 2 ^ 52 := by norm_num
  rw [dblMax]
  push_cast
  exact hfactor.trans_le (le_mul_of_one_le_right (zero_le_one.trans hfactor.le) hpow)

theorem two_lt_dblMax : (2 : ℝ) < dblMax := by
  have hpow : (2 : ℝ) ≤ 2 ^ 1023 := le_self_pow₀ one_le_two (by decide)
  have hfactor : (1 : ℝ) < 2 - 1 / 2 ^ 52 := by norm_num
  rw [dblMax]
  push_cast
  exact hpow.trans_lt (lt_mul_of_one_lt_left (by positivity) hfactor)

/-- `Ieee ℝ` compares as an IEEE format does. -/
instance : CFloat.IeeeLaws (Ieee ℝ) where
  lt_irrefl a := by cases a <;> simp [lt]
  lt_trans {a b c} hab hbc := by
    cases a <;> cases b <;> cases c <;> simp_all [lt]
    exact hab.trans hbc
  lt_cotrans {a c} b hac hb := by
    rw [isnan_eq] at hb
    cases a <;> cases b <;> cases c <;> simp_all [lt, isNaN]
    exact (lt_or_ge _ _).imp_right fun h => h.trans_lt hac
  not_nan_of_lt {a b} h := by
    rw [isnan_eq]
    cases a <;> simp_all [isNaN]
  sub_nan {a b} h := by
    rw [isnan_eq, isNaN_iff] at *
    subst h
    cases a <;> rfl
  hypot_nan_left {a b c} h := by
    rw [isnan_eq, isNaN_iff] at h
    subst h
    cases b <;> cases c <;> rfl
  hypot_nan_right {a b c} h := by
    rw [isnan_eq, isNaN_iff] at h
    subst h
    cases a <;> cases c <;> rfl

theorem eq_of_isFinite {a b : Ieee ℝ} (ha : a.isFinite = true) (h : Ieee.eq a b = true) :
    ∃ x, a = fin x ∧ b = fin x := by
  obtain ⟨x, rfl⟩ := isFinite_iff.mp ha
  cases b with
  | fin y => exact ⟨x, rfl, by rw [of_decide_eq_true h]⟩
  | posInf => cases h
  | negInf => cases h
  | nan => cases h

/-- Points of the plane are at distance zero exactly when they are equal. -/
instance : CFloat.DistanceLaws (Ieee ℝ) where
  eq_refl {a} ha := by
    obtain ⟨x, rfl⟩ := isFinite_iff.mp ha
    simp
  eq_symm {a b} h := by
    cases a <;> cases b <;> simp_all [eq]
  eq_trans {a b c} hab hbc := by
    cases a <;> cases b <;> cases c <;> simp_all [eq]
  hypot_least {a b a' b' x y} ha hb h h' := by
    obtain ⟨u, rfl, rfl⟩ := eq_of_isFinite ha h
    obtain ⟨v, rfl, rfl⟩ := eq_of_isFinite hb h'
    have hnonneg : ∀ r s : ℝ, ¬ √(r ^ 2 + s ^ 2) < 0 := fun r s => not_lt.mpr (Real.sqrt_nonneg _)
    cases x <;> cases y <;> simp_all [CFloat.hypot, hypot, lt]
  hypot_lt_max {a b a' b'} ha hb h h' := by
    obtain ⟨u, rfl, rfl⟩ := eq_of_isFinite ha h
    obtain ⟨v, rfl, rfl⟩ := eq_of_isFinite hb h'
    simpa using zero_lt_one.trans one_lt_dblMax
  hypot_apart {a b c d a' b'} ha hb hc hd h h' hapart := by
    obtain ⟨u, rfl, rfl⟩ := eq_of_isFinite ha h
    obtain ⟨v, rfl, rfl⟩ := eq_of_isFinite hb h'
    obtain ⟨p, rfl⟩ := isFinite_iff.mp hc
    obtain ⟨q, rfl⟩ := isFinite_iff.mp hd
    have hpos : 0 < (p - u) ^ 2 + (q - v) ^ 2 := by
      by_cases hpu : p = u
      · have hqv : q - v ≠ 0 := sub_ne_zero.mpr fun hqv => hapart (by simp [hpu, hqv])
        positivity
      · have hpu : p - u ≠ 0 := sub_ne_zero.mpr hpu
        positivity
    simpa using Real.sqrt_pos.mpr hpos

/-! ## Clamping -/

theorem lit_neg_one : (CFloat.lit (-1.0) : Ieee ℝ) = fin (-1) := by
  rw [lit_eq]
  norm_num

theorem lit_one : (CFloat.lit 1.0 : Ieee ℝ) = fin 1 := by
  rw [lit_eq]
  norm_num

/-- A finite value is clamped as a real number. -/
theorem clamp_fin (x lo hi : ℝ) (h : lo ≤ hi) :
    CFloat.clamp (fin x) (fin lo) (fin hi) = fin (max lo (min x hi)) := by
  simp only [CFloat.clamp, cfloat_lt, lt_fin, decide_eq_true_eq]
  split_ifs with h₁ h₂
  · rw [max_eq_left ((min_le_left ..).trans h₁.le)]
  · rw [min_eq_right h₂.le, max_eq_right h]
  · rw [min_eq_left (not_lt.mp h₂), max_eq_right (not_lt.mp h₁)]

/-- Clamping lets a NaN through, and nothing else leaves the interval. -/
theorem clamp_cases (a : Ieee ℝ) {lo hi : ℝ} (h : lo ≤ hi) :
    a = nan ∧ CFloat.clamp a (fin lo) (fin hi) = nan ∨
      a ≠ nan ∧ ∃ x, CFloat.clamp a (fin lo) (fin hi) = fin x ∧ lo ≤ x ∧ x ≤ hi := by
  cases a with
  | fin x =>
      refine Or.inr ⟨by simp, _, clamp_fin x lo hi h, le_max_left .., max_le h (min_le_right ..)⟩
  | posInf => exact Or.inr ⟨by simp, hi, by simp [CFloat.clamp, lt], h, le_rfl⟩
  | negInf => exact Or.inr ⟨by simp, lo, by simp [CFloat.clamp, lt], le_rfl, h⟩
  | nan => exact Or.inl ⟨rfl, by simp [CFloat.clamp]⟩

/-! ## Minima -/

theorem min_fin (x y : ℝ) : CFloat.min (fin x) (fin y) = fin (min x y) := by
  rw [CFloat.min, cfloat_lt, lt_fin]
  split_ifs with h
  · rw [min_eq_right (decide_eq_true_eq.mp h).le]
  · rw [min_eq_left (not_lt.mp fun hlt => h (decide_eq_true hlt))]

theorem max_fin (x y : ℝ) : CFloat.max (fin x) (fin y) = fin (max x y) := by
  rw [CFloat.max, cfloat_lt, lt_fin]
  split_ifs with h
  · rw [max_eq_right (decide_eq_true_eq.mp h).le]
  · rw [max_eq_left (not_lt.mp fun hlt => h (decide_eq_true hlt))]

/-- A running minimum of finite values from a finite value. -/
theorem foldl_min_fin {ι : Type} (g : ι → ℝ) :
    ∀ (l : List ι) (v : ℝ), ∃ w, l.foldl (fun mn k => CFloat.min mn (fin (g k))) (fin v) = fin w ∧
      w ≤ v ∧ (∀ k ∈ l, w ≤ g k) ∧ (w = v ∨ ∃ k ∈ l, w = g k)
  | [], v => ⟨v, rfl, le_rfl, by simp, Or.inl rfl⟩
  | k :: l, v => by
      rw [List.foldl_cons, min_fin]
      obtain ⟨w, hw, hle, hall, hex⟩ := foldl_min_fin g l (min v (g k))
      refine ⟨w, hw, hle.trans (min_le_left ..), ?_, ?_⟩
      · intro j hj
        cases List.mem_cons.mp hj with
        | inl he => exact he ▸ hle.trans (min_le_right ..)
        | inr hmem => exact hall j hmem
      · rcases hex with rfl | ⟨j, hj, rfl⟩
        · rcases min_choice v (g k) with h | h
          · exact Or.inl h
          · exact Or.inr ⟨k, List.mem_cons_self .., h⟩
        · exact Or.inr ⟨j, List.mem_cons_of_mem _ hj, rfl⟩

/-- A running minimum from `+∞` over at least one finite value is the least of
the values. -/
theorem foldl_min_eq {ι : Type} [DecidableEq ι] (g : ι → ℝ) {l : List ι}
    (hl : l.toFinset.Nonempty) :
    l.foldl (fun mn k => CFloat.min mn (fin (g k))) posInf = fin (l.toFinset.inf' hl g) := by
  cases l with
  | nil => simp at hl
  | cons k l =>
      have hfirst : CFloat.min (posInf : Ieee ℝ) (fin (g k)) = fin (g k) := by
        simp [CFloat.min, lt]
      rw [List.foldl_cons, hfirst]
      obtain ⟨w, hw, hle, hall, hex⟩ := foldl_min_fin g l (g k)
      rw [hw, fin_inj]
      apply le_antisymm
      · refine Finset.le_inf' hl g fun j hj => ?_
        cases List.mem_cons.mp (List.mem_toFinset.mp hj) with
        | inl he => exact he ▸ hle
        | inr hmem => exact hall j hmem
      · rcases hex with rfl | ⟨j, hj, rfl⟩
        · exact Finset.inf'_le g (by simp)
        · exact Finset.inf'_le g (by simp [hj])

end Ieee
