import RLNav.Exact.Motion

/-!
# The frame of the plan

A plan comes in the planner's frame and a pose in the frame of the local
costmap.  `configure` is handed the transform between the two and drops it, so
`computeVelocityCommands` subtracts coordinates of one frame from coordinates of
the other.  The goal features are those of the plan in the frame of the pose
exactly when the transform leaves every waypoint where it is
(`frameConsistent_iff`).
-/

namespace RLNav

open Ieee (fin)
open CFloat (lit)
open Planar (Rigid)

noncomputable section

/-- The plan in the frame `frame`, to which `T` takes its coordinates. -/
def Path.reexpress (T : Rigid) (frame : String) (path : Path (Ieee ℝ)) : Path (Ieee ℝ) :=
  { path.move T with frameId := frame }

/-- In every reachable state that follows `path` and for every pose in `frame`,
the nearest index, the carrot and the goal entries of the observation are those
of the plan in `frame`. -/
def FrameConsistent (host : Host (Ieee ℝ)) (tf : TfBuffer Rigid) (override : Option (Ieee ℝ))
    (path : Path (Ieee ℝ)) (frame : String) : Prop :=
  ∀ (evs : List (Event (Ieee ℝ) (Ieee ℝ))) (st : RLController (Ieee ℝ) (Ieee ℝ))
    (os : List (Output (Ieee ℝ) (Ieee ℝ))),
    run host (configure tf override) evs = .ok (st, os) → st.currentPath = path →
  ∀ (pose : PoseStamped (Ieee ℝ)) (velocity : Twist (Ieee ℝ))
    (st₁ : RLController (Ieee ℝ) (Ieee ℝ)) (c₁ : Cycle (Ieee ℝ) (Ieee ℝ)),
    pose.frameId = frame →
    computeVelocityCommands host st pose velocity = .ok (st₁, .drive c₁) →
  ∃ (st₂ : RLController (Ieee ℝ) (Ieee ℝ)) (c₂ : Cycle (Ieee ℝ) (Ieee ℝ)),
    computeVelocityCommands host
      { st with currentPath := path.reexpress (tf.lookupTransform frame path.frameId) frame }
      pose velocity = .ok (st₂, .drive c₂) ∧
    c₁.carrot = c₂.carrot ∧ c₁.obs.cells[548]? = c₂.obs.cells[548]? ∧
    c₁.obs.cells[549]? = c₂.obs.cells[549]?

/-! ## A robot at a waypoint -/

/-- The nearest waypoint of a robot at a waypoint is at the robot. -/
theorem nearestFrom_at_waypoint {path : Path (Ieee ℝ)} (hfin : path.IsFinite)
    {p : PoseStamped (Ieee ℝ)} (hp : p ∈ path.poses) :
    ∃ q, path.poses[nearestFrom path.poses p.pose.position 0]? = some q ∧
      q.pose.position = p.pose.position := by
  obtain ⟨z, hz⟩ := hfin p hp
  obtain ⟨i, hi, rfl⟩ := List.getElem_of_mem hp
  have hmem : i ∈ List.range' 0 (path.poses.length - 0) := List.mem_range'_1.mpr (by omega)
  have hzero : waypointDist path.poses path.poses[i].pose.position i = fin 0 := by
    rw [waypointDist_of_lt hi, hz, distance_pt, sub_self, norm_zero]
  have hleast := (ArgMin.search_least strictWeak_lt
    (waypointDist path.poses path.poses[i].pose.position) _ (CFloat.maxValue, 0)).2 i hmem
  rw [hzero] at hleast
  rcases ArgMin.search_mem CFloat.lt (waypointDist path.poses path.poses[i].pose.position)
    (List.range' 0 (path.poses.length - 0)) (CFloat.maxValue, 0) with h | ⟨k, hk, h⟩
  · rw [h] at hleast
    have hpos : (0 : ℝ) < Ieee.dblMax := zero_lt_one.trans Ieee.one_lt_dblMax
    simp [hpos] at hleast
  · have hk : k < path.poses.length := by
      have := List.mem_range'_1.mp hk
      omega
    obtain ⟨w, hw⟩ := hfin _ (List.getElem_mem hk)
    rw [h, waypointDist_of_lt hk, hw, hz, distance_pt] at hleast
    have hnorm : ‖w - z‖ = 0 :=
      le_antisymm (not_lt.mp (by simpa using hleast)) (norm_nonneg _)
    refine ⟨path.poses[k], ?_, ?_⟩
    · rw [nearestFrom, h]
      exact List.getElem?_eq_getElem hk
    · rw [hw, hz, sub_eq_zero.mp (norm_eq_zero.mp hnorm)]

/-- With no lookahead its carrot is there as well. -/
theorem findCarrot_at_waypoint {path : Path (Ieee ℝ)} (hfin : path.IsFinite)
    {pose p : PoseStamped (Ieee ℝ)} (hp : p ∈ path.poses)
    (hpose : pose.pose.position = p.pose.position) {carrot : Carrot (Ieee ℝ)}
    (h : findCarrot path 0 (lit 0) pose = .ok carrot) :
    ∃ q, path.poses[carrot.j]? = some q ∧ q.pose.position = p.pose.position ∧
      q.pose.position = ⟨carrot.cx, carrot.cy⟩ := by
  obtain ⟨hidx, hwalk, q, hq, hpos⟩ := findCarrot_eq_ok.mp h
  rw [walkForward_halt fun hgo => by simp at hgo, Except.ok.injEq] at hwalk
  obtain ⟨q', hq', hat⟩ := nearestFrom_at_waypoint hfin hp
  rw [← hwalk, hidx, hpose, hq', Option.some.injEq] at hq
  refine ⟨q, ?_, hq ▸ hat, hpos⟩
  rw [← hwalk, hidx, hpose, hq', hq]

/-! ## Consistency -/

section
variable {host : Host (Ieee ℝ)} {tf : TfBuffer Rigid} {override : Option (Ieee ℝ)}
  {path : Path (Ieee ℝ)} {frame : String}

/-- A robot that stands at a waypoint tells whether the transform moves it: both carrots
are the waypoint with one index, in the two frames. -/
theorem FrameConsistent.fixed (hfin : path.IsFinite)
    (h : FrameConsistent host tf override path frame) :
    ∀ p ∈ path.poses,
      p.pose.position.move (tf.lookupTransform frame path.frameId) = p.pose.position := by
  intro p hp
  have hplan : path.poses ≠ [] := List.ne_nil_of_mem hp
  let st : RLController (Ieee ℝ) (Ieee ℝ) :=
    setPlan (setParam (configure tf override) (lit 0)) path
  let pose : PoseStamped (Ieee ℝ) :=
    { frameId := frame, pose := { position := p.pose.position, orientation := planar 1 } }
  have hst : WellFormed st := ⟨fun _ => List.length_pos_iff.mpr hplan, none, rfl⟩
  obtain ⟨st₁, out, hstep⟩ := step_total host (.compute pose still) hst (fun s hs => by cases hs)
  obtain ⟨x, carrot, -, hcarrot, -, rfl⟩ := (compute_eq_ok (m := none) rfl hplan).mp hstep
  obtain ⟨st₂, c₂, h₂, hsame, -⟩ := h [.setParam (lit 0), .setPlan path] st _ rfl rfl pose still _ _
    rfl hstep
  have hplan₂ : (path.reexpress (tf.lookupTransform frame path.frameId) frame).poses ≠ [] := by
    simpa [Path.reexpress, Path.move] using hplan
  obtain ⟨x₂, carrot₂, -, hcarrot₂, -, hout⟩ := (compute_eq_ok (m := none) rfl hplan₂).mp h₂
  cases hout
  have hsame : carrot = carrot₂ := hsame
  obtain ⟨q, hq, hat, hpos⟩ := findCarrot_at_waypoint hfin hp rfl hcarrot
  obtain ⟨-, -, q₂, hq₂, hpos₂⟩ := findCarrot_eq_ok.mp hcarrot₂
  have hq₂ : (path.move (tf.lookupTransform frame path.frameId)).poses[carrot₂.j]? = some q₂ := hq₂
  rw [← hsame, Path.getElem?_move, hq] at hq₂
  cases hq₂
  calc p.pose.position.move (tf.lookupTransform frame path.frameId)
      = q.pose.position.move (tf.lookupTransform frame path.frameId) := by rw [hat]
    _ = ⟨carrot₂.cx, carrot₂.cy⟩ := hpos₂
    _ = p.pose.position := by rw [← hsame, ← hpos, hat]

/-- A transform that fixes the waypoints makes no difference. -/
theorem frameConsistent_of_fixed
    (hfix : ∀ p ∈ path.poses,
      p.pose.position.move (tf.lookupTransform frame path.frameId) = p.pose.position) :
    FrameConsistent host tf override path frame := by
  intro evs st os hrun hpath pose velocity st₁ c₁ hframe hcompute
  subst hpath
  have hst := run_wellFormed (configure_wellFormed tf override) hrun
  obtain ⟨m, hm⟩ := hst.memory
  have hplan := plan_ne_nil hcompute
  obtain ⟨x, carrot, hx, hcarrot, -, hout⟩ := (compute_eq_ok hm hplan).mp hcompute
  cases hout
  let st' : RLController (Ieee ℝ) (Ieee ℝ) :=
    { st with currentPath := st.currentPath.reexpress
                (tf.lookupTransform frame st.currentPath.frameId) frame }
  have hm' : st'.lidar = Memory.buffers m := hm
  have hplan' : st'.currentPath.poses ≠ [] := by
    simpa [st', Path.reexpress, Path.move] using hplan
  have hpositions : st'.currentPath.poses.map (·.pose.position) =
      st.currentPath.poses.map (·.pose.position) := by
    show (st.currentPath.poses.map _).map _ = _
    rw [List.map_map]
    exact List.map_congr_left hfix
  exact ⟨_, _, (compute_eq_ok hm' hplan').mpr
    ⟨x, carrot, hx, findCarrot_congr hpositions hcarrot, rfl, rfl⟩, rfl, rfl, rfl⟩

/-- The goal features are consistent with the frames exactly when the transform
from the frame of the plan to that of the pose fixes every waypoint. -/
theorem frameConsistent_iff (hfin : path.IsFinite) :
    FrameConsistent host tf override path frame ↔
      ∀ p ∈ path.poses,
        p.pose.position.move (tf.lookupTransform frame path.frameId) = p.pose.position :=
  ⟨FrameConsistent.fixed hfin, frameConsistent_of_fixed⟩

end

/-- A map that localization has shifted by one metre along the x axis. -/
def shiftedMap : TfBuffer Rigid where
  lookupTransform _ _ := { angle := 0, shift := 1 }

theorem shiftedMap_smallPath :
    FrameConsistent stillHost shiftedMap none smallPath "odom" ↔
      ∀ p ∈ (smallPath : Path (Ieee ℝ)).poses,
        p.pose.position.move (shiftedMap.lookupTransform "odom" "map") = p.pose.position :=
  frameConsistent_iff smallPath_isFinite

/-- On the shifted map the features of a plan of one waypoint are not those of
the plan in the frame of the pose. -/
theorem shiftedMap_inconsistent :
    ¬ FrameConsistent stillHost shiftedMap none smallPath "odom" := by
  intro h
  have hfixed := h.fixed smallPath_isFinite (poseAt (lit 0) (lit 0)) (List.mem_singleton_self _)
  have hx := congrArg Point.x hfixed
  simp [Point.move, poseAt, shiftedMap, Rigid.rot] at hx

end

end RLNav
