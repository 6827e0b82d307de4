import RLNav.Lib.CFloat

/-!
# Messages and constants

The fields of the ROS messages that the controller reads or writes, over a
single precision format `F` and a double precision format `D`, and the constants
of `rl_controller.cpp`.  The frame ids are carried although the controller never
looks at one.
-/

namespace RLNav

/-! ## Messages -/

structure Point (D : Type) where
  x : D
  y : D
deriving DecidableEq, Repr

structure Quaternion (D : Type) where
  x : D
  y : D
  z : D
  w : D
deriving DecidableEq, Repr

structure Pose (D : Type) where
  position : Point D
  orientation : Quaternion D
deriving DecidableEq, Repr

structure PoseStamped (D : Type) where
  frameId : String
  pose : Pose D
deriving DecidableEq, Repr

structure Path (D : Type) where
  frameId : String
  poses : List (PoseStamped D)
deriving DecidableEq, Repr

structure Twist (D : Type) where
  linearX : D
  angularZ : D
deriving DecidableEq, Repr

structure TwistStamped (D : Type) where
  frameId : String
  twist : Twist D
deriving DecidableEq, Repr

structure LaserScan (F : Type) where
  angleMin : F
  angleIncrement : F
  ranges : List F
deriving DecidableEq, Repr

/-- The transform tree.  `T` is the type of a transform, and
`lookupTransform target source` takes coordinates in `source` to `target`. -/
structure TfBuffer (T : Type) where
  lookupTransform : String → String → T

/-! ## Sizes

The observation is laid out as
`[lidar 6x90][temporal 8][goal_dist 1][goal_angle 1][vel 2][prev_act 2]`. -/

def nRays : Nat := 90
def nFrames : Nat := 6
def nSectors : Nat := 8
def obsDim : Nat := 554

/-! ## Float constants -/

section
variable {F : Type} [CFloat F]

/-- The range that normalizes a reading, in metres. -/
def lidarCap : F := CFloat.lit 3.5
/-- Takes a sector difference to velocity units. -/
def temporalScale : F := CFloat.lit 77.8
/-- The smoothing of the sector difference. -/
def temporalEma : F := CFloat.lit 0.8
/-- The output normalization of the sector difference. -/
def temporalOut : F := CFloat.lit 0.05
/-- The angle of ray 0 in the scan. -/
def lidarOffset : F := CFloat.lit 0.0

def maxLin : F := CFloat.lit 0.22
def maxAng : F := CFloat.lit 2.0
/-- The goal distance that saturates. -/
def goalNorm : F := CFloat.lit 7.0710678
/-- The share of the forward speed that the hardest turn takes off. -/
def turnSlowdown : F := CFloat.lit 0.6
/-- The share of the forward speed that is always left. -/
def minSpeedFrac : F := CFloat.lit 0.3

end

/-- `true` would aim straight at the final goal. -/
def directGoalMode : Bool := false

end RLNav
