import RLNav.Lib.Console
import RLNav.Model.Goals

/-!
# The scripts

`main` of `send_goal.py` and of `send_multipoint.py`, as programs at a console.  The
service is the navigator: `isTaskComplete` is its answer, and a pause of the waiting
loop is what the loop does after an answer that is false.  The scripts catch no
exception, so an input that does not convert leaves them at once, and so does a yaw
that `math` rejects.
-/

namespace RLNav

open Console (Script act line convert collect whileIncomplete)

/-- The conversions of the interpreter.  `int` and `float` raise where they have no
result. -/
structure Python (D : Type) where
  int : String → Option Int
  float : String → Option D
  str : D → String

/-- What a script does. -/
inductive Act (D : Type) where
  | init
  | print (text : String)
  | input (prompt : String)
  | waitUntilNav2Active
  | goToPose (goal : PoseStamped D)
  | followWaypoints (waypoints : List (PoseStamped D))
  | getFeedback
  | sleep
  | getResult
  | shutdown
deriving DecidableEq, Repr

section
variable {D : Type}

/-- `input(prompt)`. -/
def input (prompt : String) : Script (Act D) String := do
  act (.input prompt)
  line

/-- `float(input(prompt))`. -/
def inputFloat (py : Python D) (prompt : String) : Script (Act D) D := do
  let l ← input prompt
  convert (py.float l)

/-- `int(input(prompt))`. -/
def inputInt (py : Python D) (prompt : String) : Script (Act D) Int := do
  let l ← input prompt
  convert (py.int l)

variable [CFloat D]

/-- One iteration of the loop of `send_multipoint.py`. -/
def inputWaypoint (py : Python D) (i : Nat) : Script (Act D) (PoseStamped D) := do
  act (.print s!"\nWaypoint {i + 1}")
  let x ← inputFloat py "Enter X: "
  let y ← inputFloat py "Enter Y: "
  let yaw ← inputFloat py "Enter Yaw (deg): "
  convert (createPose x y yaw)

/-- `main` of `send_multipoint.py`, up to the list of waypoints.  A negative number is
an empty range. -/
def inputWaypoints (py : Python D) : Script (Act D) (List (PoseStamped D)) := do
  act .init
  act (.print "Waiting for Nav2...")
  act .waitUntilNav2Active
  let num ← inputInt py "How many waypoints? "
  collect (inputWaypoint py) 0 num.toNat

/-- `main` of `send_multipoint.py`. -/
def sendMultipoint (py : Python D) : Script (Act D) Unit := do
  let waypoints ← inputWaypoints py
  act (.print "Sending waypoints...")
  act (.followWaypoints waypoints)
  whileIncomplete [.sleep]
  act (.print "All waypoints completed!")
  act .shutdown

/-- `main` of `send_goal.py`, up to the goal. -/
def inputGoal (py : Python D) : Script (Act D) (PoseStamped D) := do
  act .init
  act (.print "Waiting for Nav2 to become active...")
  act .waitUntilNav2Active
  act (.print "Nav2 is active!")
  let x ← inputFloat py "Enter X (meters): "
  let y ← inputFloat py "Enter Y (meters): "
  let yaw_deg ← inputFloat py "Enter Yaw (degrees): "
  let goal_pose ← convert (goalPose x y yaw_deg)
  act (.print s!"Sending goal: x={py.str x}, y={py.str y}, yaw={py.str (radians yaw_deg)}")
  return goal_pose

/-- `main` of `send_goal.py`. -/
def sendGoal (py : Python D) : Script (Act D) Unit := do
  let goal_pose ← inputGoal py
  act (.goToPose goal_pose)
  whileIncomplete [.getFeedback, .sleep]
  act .getResult
  act (.print "Navigation completed!")
  act .shutdown

end

end RLNav
