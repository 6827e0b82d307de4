import RLNav.Model.Controller

/-!
# Calls that throw

Two things that `computeVelocityCommands` does can throw, and nothing in the class
catches it: `as_double` on a parameter that is no double, before any member is
assigned, and the network runtime, between the assignment of the lidar members, the
index and the lookahead and the assignment of `last_action_`.  A member that was
assigned keeps its value when the call is left.
-/

namespace RLNav

open Checked (Fault)
open CFloat (lit)

/-- Whether the parameter is a double during a call, and whether the network runtime
answers it. -/
structure Fate where
  isDouble : Bool
  answers : Bool
deriving DecidableEq, Repr

section
variable {F D : Type} [CFloat F] [CFloat D] [FloatCast F D]

/-- `computeVelocityCommands`, with no answer if it throws. -/
def attemptVelocityCommands (host : Host F) (fate : Fate) (st : RLController F D)
    (pose : PoseStamped D) (velocity : Twist D) :
    Except Fault (RLController F D × Option (Output F D)) :=
  if st.currentPath.poses.isEmpty then
    .ok (st, some (.stop { frameId := "base_footprint",
                           twist := { linearX := lit 0, angularZ := lit 0 } }))
  else if fate.isDouble = false then .ok (st, none)
  else do
    let carrotLookahead := st.lookaheadParam
    let scan ← sampleScan host st.lastScan
    let lidar ← updateLidarBuffers st.lidar scan
    let carrot ← findCarrot st.currentPath st.carrotIdx carrotLookahead pose
    let goal_dist : F := goalDist pose carrot.cx carrot.cy
    let goal_angle : F := goalAngle pose carrot.cx carrot.cy
    let lin_n : F := normVelocity velocity.linearX maxLin
    let ang_n : F := normVelocity velocity.angularZ maxAng
    let obs ← assembleObs lidar goal_dist goal_angle lin_n ang_n st.lastAction
    let st : RLController F D := { st with carrotIdx := carrot.carrotIdx, carrotLookahead, lidar }
    if fate.answers = false then return (st, none)
    let lastAction := clampAction (host.session obs.cells)
    let cmd : TwistStamped D := { frameId := "base_footprint", twist := actionToTwist lastAction }
    return ({ st with lastAction },
      some (.drive { lidar, carrot, goalDist := goal_dist, goalAngle := goal_angle, obs, cmd }))

/-- The answer to one event. -/
def attempt (host : Host F) (st : RLController F D) : Event F D × Fate →
    Except Fault (RLController F D × Option (Output F D))
  | (.compute pose velocity, fate) => attemptVelocityCommands host fate st pose velocity
  | (e, _) => do
      let (st, out) ← step host st e
      return (st, some out)

/-- A run of the controller in which calls may throw. -/
abbrev attempts (host : Host F) (st : RLController F D) (es : List (Event F D × Fate)) :
    Except Fault (RLController F D × List (Option (Output F D))) :=
  Machine.run (attempt host) st es

end

end RLNav
