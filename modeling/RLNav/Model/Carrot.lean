import RLNav.Lib.Checked
import RLNav.Model.Messages

/-!
# The carrot

`findCarrot` moves the remembered index to the nearest waypoint at or after it
and walks from there until the path length reaches the lookahead.
-/

namespace RLNav

open Checked (Fault read)
open CFloat (lit)

/-- What `findCarrot` leaves behind: the new `carrot_idx_`, the index `j` at
which the walk stopped, and the coordinates of that waypoint. -/
structure Carrot (D : Type) where
  carrotIdx : Nat
  j : Nat
  cx : D
  cy : D
deriving DecidableEq, Repr

section
variable {D : Type} [CFloat D]

/-- `std::hypot` of the difference of two positions. -/
def distance (p q : Point D) : D := CFloat.hypot (p.x - q.x) (p.y - q.y)

/-- One iteration of the nearest search, on the best distance and its index. -/
def nearestStep (poses : List (PoseStamped D)) (r : Point D) (acc : D × Nat) (i : Nat) :
    Except Fault (D × Nat) := do
  let p ← read poses i
  let d := distance p.pose.position r
  return if CFloat.lt d acc.1 then (d, i) else acc

/-- The nearest path index, never moving backward.  The loop starts at the
remembered index, which it overwrites. -/
def nearestIndex (poses : List (PoseStamped D)) (r : Point D) (carrotIdx : Nat) :
    Except Fault Nat := do
  let (_, idx) ← (List.range' carrotIdx (poses.length - carrotIdx)).foldlM
    (nearestStep poses r) (CFloat.maxValue, carrotIdx)
  return idx

/-- Walk forward until the lookahead distance is accumulated. -/
def walkForward (poses : List (PoseStamped D)) (lookahead : D) (j : Nat) (acc : D) :
    Except Fault Nat :=
  if _h : j + 1 < poses.length ∧ CFloat.lt acc lookahead = true then do
    let q ← read poses (j + 1)
    let p ← read poses j
    walkForward poses lookahead (j + 1) (acc + distance q.pose.position p.pose.position)
  else .ok j
termination_by poses.length - j

/-- A point about the lookahead distance ahead of the robot on the path. -/
def findCarrot (path : Path D) (carrotIdx : Nat) (lookahead : D) (pose : PoseStamped D) :
    Except Fault (Carrot D) :=
  if directGoalMode then do
    let p ← read path.poses (path.poses.length - 1)
    return { carrotIdx, j := path.poses.length - 1, cx := p.pose.position.x,
             cy := p.pose.position.y }
  else do
    let idx ← nearestIndex path.poses pose.pose.position carrotIdx
    let j ← walkForward path.poses lookahead idx (lit 0)
    let p ← read path.poses j
    return { carrotIdx := idx, j, cx := p.pose.position.x, cy := p.pose.position.y }

end

end RLNav
