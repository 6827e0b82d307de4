import Mathlib.Data.Rat.Defs
import Mathlib.Algebra.Order.Ring.Unbundled.Rat

/-!
# Floating-point operations

`CFloat F` is a binary floating-point format together with the operations of
the C++ language and its math library on it.  A program is translated once,
over any format, and a law is then stated at the formats it holds for: at every
format, at every format with the IEEE comparison (`IeeeLaws`), or at the format
whose finite part is the real numbers.

A comparison is a `Bool`, and `lround` returns `none` where its result is
unspecified.  Literals are rational.
-/

/-- A floating-point format with the operations of the language and of its math
library.  `maxValue` is `numeric_limits::max()`, and `lround` is the nearest
integer with a tie away from zero. -/
class CFloat (F : Type) extends Add F, Sub F, Mul F, Div F where
  lit : ℚ → F
  infinity : F
  maxValue : F
  pi : F
  lt : F → F → Bool
  le : F → F → Bool
  eq : F → F → Bool
  isfinite : F → Bool
  abs : F → F
  sin : F → F
  cos : F → F
  atan2 : F → F → F
  hypot : F → F → F
  lround : F → Option Int

/-- Conversions between single precision `F` and double precision `D`. -/
class FloatCast (F D : Type) where
  toFloat : D → F
  toDouble : F → D

namespace CFloat

variable {F : Type} [CFloat F]

/-! `std::clamp`, `std::min` and `std::max`, as the standard defines them. -/

def clamp (v lo hi : F) : F :=
  if lt v lo then lo else if lt hi v then hi else v

def min (a b : F) : F := if lt b a then b else a

def max (a b : F) : F := if lt a b then b else a

/-- A value that is not equal to itself is a NaN. -/
def isnan (a : F) : Bool := !eq a a

def isinf (a : F) : Bool := !isfinite a && !isnan a

/-! ## The IEEE comparison -/

/-- What comparisons, subtraction and `hypot` guarantee in an IEEE format.  The
order of the numbers is a strict weak order, as the two zeros are equal, and
every comparison with a NaN is false.  `hypot` of a NaN is a NaN, or `+∞` if the
other argument is infinite, and neither is below anything. -/
class IeeeLaws (F : Type) [CFloat F] : Prop where
  lt_irrefl : ∀ a : F, lt a a = false
  lt_trans : ∀ {a b c : F}, lt a b = true → lt b c = true → lt a c = true
  lt_cotrans : ∀ {a c : F} (b : F), lt a c = true → isnan b = false →
    lt a b = true ∨ lt b c = true
  not_nan_of_lt : ∀ {a b : F}, lt a b = true → isnan a = false
  sub_nan : ∀ {a b : F}, isnan b = true → isnan (a - b) = true
  hypot_nan_left : ∀ {a b c : F}, isnan a = true → lt (hypot a b) c = false
  hypot_nan_right : ∀ {a b c : F}, isnan b = true → lt (hypot a b) c = false

/-- What `==` and `hypot` guarantee on the finite numbers of an IEEE format with
gradual underflow.  `a == b` is an equivalence, which identifies the two zeros.
A difference of finite numbers is zero exactly when they are equal, so `hypot` of
two differences is least, and below the largest number, exactly when both pairs
are equal. -/
class DistanceLaws (F : Type) [CFloat F] : Prop where
  eq_refl : ∀ {a : F}, isfinite a = true → eq a a = true
  eq_symm : ∀ {a b : F}, eq a b = true → eq b a = true
  eq_trans : ∀ {a b c : F}, eq a b = true → eq b c = true → eq a c = true
  hypot_least : ∀ {a b a' b' x y : F}, isfinite a = true → isfinite b = true →
    eq a a' = true → eq b b' = true → lt (hypot x y) (hypot (a - a') (b - b')) = false
  hypot_lt_max : ∀ {a b a' b' : F}, isfinite a = true → isfinite b = true →
    eq a a' = true → eq b b' = true → lt (hypot (a - a') (b - b')) maxValue = true
  hypot_apart : ∀ {a b c d a' b' : F}, isfinite a = true → isfinite b = true →
    isfinite c = true → isfinite d = true → eq a a' = true → eq b b' = true →
    ¬(eq c a' = true ∧ eq d b' = true) →
    lt (hypot (a - a') (b - b')) (hypot (c - a') (d - b')) = true

end CFloat
