import RLNav.Lib.Machine
import RLNav.Model.Lidar
import RLNav.Model.Carrot

/-!
# The controller

The state of `RLController`, its callbacks, and `computeVelocityCommands`.  The
callbacks of one node run one at a time, so a run of the controller is a list of
events, each answered in turn by `step`.

A call on a non-empty plan answers with a `Cycle`: the command, and the locals
of the call that the results of this development speak about.
-/

namespace RLNav

open Checked (Fault read Cursor)
open CFloat (lit)

/-- The members of the controller.  `lookaheadParam` is the node's current value
of the parameter `carrot_lookahead`, and `carrotLookahead` the member that was
last read from it. -/
structure RLController (F D : Type) where
  lookaheadParam : D
  lastScan : Option (LaserScan F)
  currentPath : Path D
  carrotIdx : Nat
  carrotLookahead : D
  lidar : LidarBuffers F
  lastAction : F × F
deriving DecidableEq, Repr

/-- The locals of a call of `computeVelocityCommands` that reached the network.
`lidar` holds the lidar members after their update in the call, and `obs` the
observation behind its write index. -/
structure Cycle (F D : Type) where
  lidar : LidarBuffers F
  carrot : Carrot D
  goalDist : F
  goalAngle : F
  obs : Cursor F
  cmd : TwistStamped D
deriving DecidableEq, Repr

/-- The answer to an event: nothing from a callback, the zero command from a
call on an empty plan, and a cycle from any other call. -/
inductive Output (F D : Type) where
  | silent
  | stop (cmd : TwistStamped D)
  | drive (c : Cycle F D)
deriving DecidableEq, Repr

/-- The calls of the controller that have an empty body. -/
inductive Lifecycle (D : Type) where
  | cleanup
  | activate
  | deactivate
  | setSpeedLimit (limit : D) (percentage : Bool)
deriving DecidableEq, Repr

/-- What can reach a configured controller. -/
inductive Event (F D : Type) where
  | scan (msg : LaserScan F)
  | setPlan (path : Path D)
  | setParam (value : D)
  | lifecycle (call : Lifecycle D)
  | compute (pose : PoseStamped D) (velocity : Twist D)
deriving DecidableEq, Repr

section
variable {F D : Type} [CFloat F] [CFloat D] [FloatCast F D]

/-! ## Callbacks -/

/-- The freshly configured controller.  The transform buffer is not kept.  The
parameter `carrot_lookahead` keeps an override from the parameter file, and is
declared with the member's default otherwise. -/
def configure {T : Type} (_tf : TfBuffer T) (override : Option D) : RLController F D :=
  { lookaheadParam := override.getD (lit 0.3)
    lastScan := none
    currentPath := { frameId := "", poses := [] }
    carrotIdx := 0
    carrotLookahead := lit 0.3
    lidar := LidarBuffers.init
    lastAction := (lit 0, lit 0) }

/-- The callback of `/scan`. -/
def scanCallback (st : RLController F D) (msg : LaserScan F) : RLController F D :=
  { st with lastScan := some msg }

def setPlan (st : RLController F D) (path : Path D) : RLController F D :=
  { st with currentPath := path, carrotIdx := 0 }

/-- `ros2 param set` of the lookahead. -/
def setParam (st : RLController F D) (value : D) : RLController F D :=
  { st with lookaheadParam := value }

/-- `cleanup`, `activate`, `deactivate` and `setSpeedLimit` do nothing. -/
def lifecycle (st : RLController F D) : Lifecycle D → RLController F D
  | .cleanup => st
  | .activate => st
  | .deactivate => st
  | .setSpeedLimit _ _ => st

/-! ## `computeVelocityCommands` -/

def yawFromQuat (q : Quaternion D) : D :=
  CFloat.atan2 (lit 2.0 * (q.w * q.z + q.x * q.y))
    (lit 1.0 - lit 2.0 * (q.y * q.y + q.z * q.z))

def wrapAngle (a : D) : D := CFloat.atan2 (CFloat.sin a) (CFloat.cos a)

/-- The distance of the carrot, saturated at `goalNorm`. -/
def goalDist (pose : PoseStamped D) (cx cy : D) : F :=
  let dx := cx - pose.pose.position.x
  let dy := cy - pose.pose.position.y
  FloatCast.toFloat (CFloat.clamp (CFloat.hypot dx dy / goalNorm) (lit 0.0) (lit 1.0))

/-- The bearing of the carrot from the robot's heading, in half turns. -/
def goalAngle (pose : PoseStamped D) (cx cy : D) : F :=
  let dx := cx - pose.pose.position.x
  let dy := cy - pose.pose.position.y
  let ryaw := yawFromQuat pose.pose.orientation
  FloatCast.toFloat (wrapAngle (CFloat.atan2 dy dx - ryaw) / CFloat.pi)

/-- A velocity as a fraction of its bound. -/
def normVelocity (v bound : D) : F :=
  FloatCast.toFloat (CFloat.clamp (v / bound) (lit (-1.0)) (lit 1.0))

/-- Assemble the observation through the running index `o`. -/
def assembleObs (b : LidarBuffers F) (goal_dist goal_angle lin_n ang_n : F)
    (lastAction : F × F) : Except Fault (Cursor F) := do
  let c : Cursor F := ⟨List.replicate obsDim (lit 0), 0⟩
  let c ← (List.range nFrames).foldlM
    (fun c f => (List.range nRays).foldlM
      (fun c k => (read b.frames f >>= fun frame => read frame k) >>= fun v => c.put v) c) c
  let c ← (List.range nSectors).foldlM
    (fun c s => (read b.temporal s >>= fun t =>
      .ok (CFloat.clamp (t / temporalOut) (lit (-1.0)) (lit 1.0))) >>= fun v => c.put v) c
  let c ← c.put goal_dist
  let c ← c.put goal_angle
  let c ← c.put lin_n
  let c ← c.put ang_n
  let c ← c.put lastAction.1
  c.put lastAction.2

/-- The network output, clamped to the action range. -/
def clampAction (action : F × F) : F × F :=
  (CFloat.clamp action.1 (lit (-1.0)) (lit 1.0), CFloat.clamp action.2 (lit (-1.0)) (lit 1.0))

/-- Map an action to a velocity command: forward-only, and slower in hard
turns. -/
def actionToTwist (a : F × F) : Twist D :=
  let linear : D := (FloatCast.toDouble a.1 + lit 1.0) * lit 0.5 * maxLin
  let angular : D := FloatCast.toDouble a.2 * maxAng
  let turnScale : D := lit 1.0 - turnSlowdown * FloatCast.toDouble (CFloat.abs a.2)
  { linearX := linear * CFloat.max turnScale minSpeedFrac, angularZ := angular }

def computeVelocityCommands (host : Host F) (st : RLController F D) (pose : PoseStamped D)
    (velocity : Twist D) : Except Fault (RLController F D × Output F D) :=
  if st.currentPath.poses.isEmpty then
    .ok (st, .stop { frameId := "base_footprint", twist := { linearX := lit 0, angularZ := lit 0 } })
  else do
    let carrotLookahead := st.lookaheadParam
    let scan ← sampleScan host st.lastScan
    let lidar ← updateLidarBuffers st.lidar scan
    let carrot ← findCarrot st.currentPath st.carrotIdx carrotLookahead pose
    let goal_dist : F := goalDist pose carrot.cx carrot.cy
    let goal_angle : F := goalAngle pose carrot.cx carrot.cy
    let lin_n : F := normVelocity velocity.linearX maxLin
    let ang_n : F := normVelocity velocity.angularZ maxAng
    let obs ← assembleObs lidar goal_dist goal_angle lin_n ang_n st.lastAction
    let lastAction := clampAction (host.session obs.cells)
    let cmd : TwistStamped D := { frameId := "base_footprint", twist := actionToTwist lastAction }
    return ({ st with carrotIdx := carrot.carrotIdx, carrotLookahead, lidar, lastAction },
      .drive { lidar, carrot, goalDist := goal_dist, goalAngle := goal_angle, obs, cmd })

/-! ## Runs -/

/-- The answer to one event. -/
def step (host : Host F) (st : RLController F D) : Event F D →
    Except Fault (RLController F D × Output F D)
  | .scan msg => .ok (scanCallback st msg, .silent)
  | .setPlan path => .ok (setPlan st path, .silent)
  | .setParam value => .ok (setParam st value, .silent)
  | .lifecycle call => .ok (lifecycle st call, .silent)
  | .compute pose velocity => computeVelocityCommands host st pose velocity

/-- A run of the controller. -/
abbrev run (host : Host F) (st : RLController F D) (evs : List (Event F D)) :
    Except Fault (RLController F D × List (Output F D)) :=
  Machine.run (step host) st evs

/-- The states that a configured controller can be in. -/
def Reachable (host : Host F) (st : RLController F D) : Prop :=
  ∃ (T : Type) (tf : TfBuffer T) (override : Option D) (evs : List (Event F D))
    (os : List (Output F D)), run host (configure tf override) evs = .ok (st, os)

end

/-- The cycle of an answer. -/
def Output.cycle? {F D : Type} : Output F D → Option (Cycle F D)
  | .drive c => some c
  | _ => none

/-- The cycles among the answers of a run, in order. -/
def cycles {F D : Type} (os : List (Output F D)) : List (Cycle F D) :=
  os.filterMap Output.cycle?

end RLNav
