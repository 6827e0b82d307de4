import RLNav.Model.Messages

/-!
# The goals of the scripts

`send_goal.py` and `send_multipoint.py` read a position and a yaw in degrees and
send a pose on the map.  The functions of `math` raise on an infinite yaw, and the
scripts have no pose then.
-/

namespace RLNav

open CFloat (lit)

section
variable {D : Type} [CFloat D]

/-- `math.radians`. -/
def radians (deg : D) : D := deg * (CFloat.pi / lit 180.0)

/-- `math.sin`, which raises a `ValueError` on an infinity. -/
def mathSin (x : D) : Option D := if CFloat.isinf x then none else some (CFloat.sin x)

/-- `math.cos`, which raises a `ValueError` on an infinity. -/
def mathCos (x : D) : Option D := if CFloat.isinf x then none else some (CFloat.cos x)

/-- A pose on the map, with the yaw as a rotation about the vertical axis. -/
def mapPose (x y yaw_deg : D) : Option (PoseStamped D) := do
  let yaw := radians yaw_deg
  let z ← mathSin (yaw / lit 2.0)
  let w ← mathCos (yaw / lit 2.0)
  return { frameId := "map"
           pose := { position := { x, y }
                     orientation := { x := lit 0.0, y := lit 0.0, z, w } } }

/-- `create_pose` of `send_multipoint.py`. -/
def createPose (x y yaw_deg : D) : Option (PoseStamped D) := mapPose x y yaw_deg

/-- The `goal_pose` that `main` of `send_goal.py` sends. -/
def goalPose (x y yaw_deg : D) : Option (PoseStamped D) := mapPose x y yaw_deg

/-- The scripts have a pose exactly if the half of the yaw is not infinite. -/
theorem mapPose_eq_some {x y yaw_deg : D} {p : PoseStamped D} :
    mapPose x y yaw_deg = some p ↔
      CFloat.isinf (radians yaw_deg / lit 2.0) = false ∧
        p = { frameId := "map"
              pose := { position := { x, y }
                        orientation := { x := lit 0.0, y := lit 0.0
                                         z := CFloat.sin (radians yaw_deg / lit 2.0)
                                         w := CFloat.cos (radians yaw_deg / lit 2.0) } } } := by
  rw [mapPose, mathSin, mathCos]
  cases CFloat.isinf (radians yaw_deg / lit 2.0) with
  | true => exact iff_of_false (fun h => by cases h) fun h => by cases h.1
  | false =>
      constructor
      · intro h
        exact ⟨rfl, (Option.some.inj h).symm⟩
      · rintro ⟨-, rfl⟩
        rfl

end

end RLNav
