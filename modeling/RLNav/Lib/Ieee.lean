import RLNav.Lib.CFloat
import Mathlib.Algebra.Order.Field.Basic
import Mathlib.Tactic.Ring

/-!
# Numbers with infinities and NaN

`Ieee R` is a floating-point format whose finite values are the elements of an
ordered field `R`, with the two infinities and one NaN.  Arithmetic on finite
values is exact.  On the special values it follows the IEEE rules, and there is
one zero.

Besides the arithmetic the file has the IEEE comparison and the order `Ieee.Le`
of the values that are not NaN.
-/

inductive Ieee (R : Type) where
  | fin (x : R)
  | posInf
  | negInf
  | nan
deriving DecidableEq, Repr

namespace Ieee

variable {R : Type}

theorem fin_inj {x y : R} : fin x = fin y ↔ x = y :=
  ⟨fun h => by injection h, fun h => h ▸ rfl⟩

def isFinite : Ieee R → Bool
  | fin _ => true
  | _ => false

def isNaN : Ieee R → Bool
  | nan => true
  | _ => false

/-- The number of a finite value. -/
def toReal [Zero R] : Ieee R → R
  | fin x => x
  | _ => 0

@[simp] theorem isFinite_fin (x : R) : (fin x).isFinite = true := rfl

theorem isFinite_iff {a : Ieee R} : a.isFinite = true ↔ ∃ x, a = fin x := by
  cases a <;> simp [isFinite]

theorem isNaN_iff {a : Ieee R} : a.isNaN = true ↔ a = nan := by
  cases a <;> simp [isNaN]

section Order

variable [LinearOrder R]

/-! ## The comparison -/

/-- The IEEE `a < b`. -/
def lt : Ieee R → Ieee R → Bool
  | fin x, fin y => decide (x < y)
  | negInf, fin _ | negInf, posInf | fin _, posInf => true
  | _, _ => false

/-- The IEEE `a == b`. -/
def eq : Ieee R → Ieee R → Bool
  | fin x, fin y => decide (x = y)
  | posInf, posInf | negInf, negInf => true
  | _, _ => false

/-- The IEEE `a <= b`. -/
def le (a b : Ieee R) : Bool := lt a b || eq a b

@[simp] theorem lt_fin (x y : R) : lt (fin x) (fin y) = decide (x < y) := rfl
@[simp] theorem eq_fin (x y : R) : eq (fin x) (fin y) = decide (x = y) := rfl
@[simp] theorem le_fin (x y : R) : le (fin x) (fin y) = decide (x ≤ y) := by
  simp [le, le_iff_lt_or_eq]

@[simp] theorem lt_nan_left (a : Ieee R) : lt nan a = false := by cases a <;> rfl
@[simp] theorem lt_nan_right (a : Ieee R) : lt a nan = false := by cases a <;> rfl

/-- The order of the extended numbers.  NaN is related to nothing. -/
def Le (a b : Ieee R) : Prop := le a b = true

theorem Le_fin {x y : R} : Le (fin x) (fin y) ↔ x ≤ y := by simp [Le]

/-- What is below a bound stays below a larger bound. -/
theorem lt_of_fin_le {x y : R} {a b : Ieee R} (hxy : x ≤ y) (h : lt (fin y) a = true)
    (hab : Le a b) : lt (fin x) b = true := by
  cases a with
  | fin l =>
      cases b with
      | fin l' =>
          rw [lt_fin, decide_eq_true_eq] at h ⊢
          exact (hxy.trans_lt h).trans_le (Le_fin.mp hab)
      | posInf => rfl
      | negInf => simp [Le, le, lt, eq] at hab
      | nan => simp [Le, le, lt, eq] at hab
  | posInf =>
      cases b with
      | posInf => rfl
      | fin l' => simp [Le, le, lt, eq] at hab
      | negInf => simp [Le, le, lt, eq] at hab
      | nan => simp [Le, le, lt, eq] at hab
  | negInf => cases h
  | nan => cases h

/-- What lies below a finite value is `-∞` or finite. -/
theorem Le.fin_cases {a : Ieee R} {y : R} (h : Le a (fin y)) :
    a = negInf ∨ ∃ x, a = fin x ∧ x ≤ y := by
  cases a with
  | fin x => exact Or.inr ⟨x, rfl, Le_fin.mp h⟩
  | posInf => simp [Le, le, lt, eq] at h
  | negInf => exact Or.inl rfl
  | nan => simp [Le, le, lt, eq] at h

end Order

section Arithmetic

variable [Field R] [LinearOrder R]

/-! ## Arithmetic -/

/-- The infinity with the sign of `x`, and NaN for zero. -/
def infOfSign (x : R) : Ieee R :=
  if 0 < x then posInf else if x < 0 then negInf else nan

def neg : Ieee R → Ieee R
  | fin x => fin (-x)
  | posInf => negInf
  | negInf => posInf
  | nan => nan

def add : Ieee R → Ieee R → Ieee R
  | fin x, fin y => fin (x + y)
  | nan, _ | _, nan => nan
  | posInf, negInf | negInf, posInf => nan
  | posInf, _ | _, posInf => posInf
  | negInf, _ | _, negInf => negInf

def mul : Ieee R → Ieee R → Ieee R
  | fin x, fin y => fin (x * y)
  | nan, _ | _, nan => nan
  | fin x, posInf | posInf, fin x => infOfSign x
  | fin x, negInf | negInf, fin x => infOfSign (-x)
  | posInf, posInf | negInf, negInf => posInf
  | posInf, negInf | negInf, posInf => negInf

/-- A quotient of finite values by the (positive) zero is an infinity or NaN. -/
def div : Ieee R → Ieee R → Ieee R
  | fin x, fin y => if y = 0 then infOfSign x else fin (x / y)
  | nan, _ | _, nan => nan
  | fin _, posInf | fin _, negInf => fin 0
  | posInf, fin y => if y < 0 then negInf else posInf
  | negInf, fin y => if y < 0 then posInf else negInf
  | posInf, posInf | posInf, negInf | negInf, posInf | negInf, negInf => nan

def abs : Ieee R → Ieee R
  | fin x => fin |x|
  | posInf | negInf => posInf
  | nan => nan

end Arithmetic

end Ieee
