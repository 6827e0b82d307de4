import RLNav.Exact.Plane
import RLNav.Exact.Heading

/-!
# Moving the world

A rigid motion of the plane moves the waypoints of every plan and the poses of
the robot.  Distances and relative bearings stay, so the nearest search, the walk
and the goal features come out the same (`findCarrot_move`, `goalDist_move`,
`goalAngle_move`), and the moved run stays in step with the original one
(`run_moved`).  The one exception is a carrot at the robot's own position, whose
bearing is that of the zero vector.
-/

namespace RLNav

open Ieee (fin)
open CFloat (lit)
open Planar (Rigid)

noncomputable section

/-! ## Moved poses and plans -/

/-- A point, rotated and translated. -/
def Point.move (g : Rigid) (p : Point (Ieee ℝ)) : Point (Ieee ℝ) where
  x := fin g.rot.re * p.x - fin g.rot.im * p.y + fin g.shift.re
  y := fin g.rot.im * p.x + fin g.rot.re * p.y + fin g.shift.im

/-- An orientation after a rotation about the vertical axis: the quaternion
product with `(0, 0, sin (θ/2), cos (θ/2))` on the left. -/
def Quaternion.move (g : Rigid) (q : Quaternion (Ieee ℝ)) : Quaternion (Ieee ℝ) where
  x := fin g.half.re * q.x - fin g.half.im * q.y
  y := fin g.half.re * q.y + fin g.half.im * q.x
  z := fin g.half.re * q.z + fin g.half.im * q.w
  w := fin g.half.re * q.w - fin g.half.im * q.z

def PoseStamped.move (g : Rigid) (p : PoseStamped (Ieee ℝ)) : PoseStamped (Ieee ℝ) :=
  { p with pose := { position := p.pose.position.move g
                     orientation := p.pose.orientation.move g } }

def Path.move (g : Rigid) (path : Path (Ieee ℝ)) : Path (Ieee ℝ) :=
  { path with poses := path.poses.map (PoseStamped.move g) }

/-- Scans and velocities are relative to the robot and do not move. -/
def Event.move {F : Type} (g : Rigid) : Event F (Ieee ℝ) → Event F (Ieee ℝ)
  | .setPlan path => .setPlan (path.move g)
  | .compute pose velocity => .compute (pose.move g) velocity
  | e => e

/-- The orientation of a robot on the plane. -/
def planar (h : ℂ) : Quaternion (Ieee ℝ) := { x := fin 0, y := fin 0, z := fin h.im, w := fin h.re }

/-- A position on the plane and a unit quaternion about the vertical axis. -/
def PoseStamped.IsPlanar (p : PoseStamped (Ieee ℝ)) : Prop :=
  ∃ z h : ℂ, p.pose.position = pt z ∧ p.pose.orientation = planar h ∧ ‖h‖ = 1

theorem pt_move (g : Rigid) (z : ℂ) : (pt z).move g = pt (g.act z) := by
  simp [Point.move, pt, Rigid.act, add_comm (g.rot.re * z.im)]

theorem planar_move (g : Rigid) (h : ℂ) : (planar h).move g = planar (g.half * h) := by
  simp only [Quaternion.move, planar, Ieee.mul_fin, Ieee.add_fin, Ieee.sub_fin, mul_zero, sub_zero,
    add_zero, Complex.mul_re, Complex.mul_im]

theorem distance_move (g : Rigid) {p q : Point (Ieee ℝ)} (hp : p.IsFinite) (hq : q.IsFinite) :
    distance (p.move g) (q.move g) = distance p q := by
  obtain ⟨z, rfl⟩ := hp
  obtain ⟨w, rfl⟩ := hq
  rw [pt_move, pt_move, distance_pt, distance_pt, g.norm_act_sub]

/-! ## The searches -/

theorem Path.getElem?_move (g : Rigid) (path : Path (Ieee ℝ)) (i : Nat) :
    (path.move g).poses[i]? = path.poses[i]?.map (PoseStamped.move g) :=
  List.getElem?_map

theorem Path.IsFinite.move {path : Path (Ieee ℝ)} (hfin : path.IsFinite) (g : Rigid) :
    (path.move g).IsFinite := by
  intro p hp
  obtain ⟨q, hq, rfl⟩ := List.mem_map.mp hp
  obtain ⟨z, hz⟩ := hfin q hq
  exact ⟨g.act z, by rw [← pt_move, ← hz]; rfl⟩

theorem waypointDist_move (g : Rigid) {path : Path (Ieee ℝ)} (hfin : path.IsFinite)
    {r : Point (Ieee ℝ)} (hr : r.IsFinite) (i : Nat) :
    waypointDist (path.move g).poses (r.move g) i = waypointDist path.poses r i := by
  rw [waypointDist, waypointDist, Path.getElem?_move]
  cases hp : path.poses[i]? with
  | none => rfl
  | some p => exact distance_move g (hfin p (List.mem_of_getElem? hp)) hr

theorem segment_move (g : Rigid) {path : Path (Ieee ℝ)} (hfin : path.IsFinite) (k : Nat) :
    segment (path.move g).poses k = segment path.poses k := by
  rw [segment, segment, Path.getElem?_move, Path.getElem?_move]
  cases hp : path.poses[k]? with
  | none => rfl
  | some p =>
      cases hq : path.poses[k + 1]? with
      | none => rfl
      | some q =>
          exact congrArg Ieee.toReal (distance_move g (hfin q (List.mem_of_getElem? hq))
            (hfin p (List.mem_of_getElem? hp)))

theorem nearestFrom_move (g : Rigid) {path : Path (Ieee ℝ)} (hfin : path.IsFinite)
    {r : Point (Ieee ℝ)} (hr : r.IsFinite) (c : Nat) :
    nearestFrom (path.move g).poses (r.move g) c = nearestFrom path.poses r c := by
  have hlen : (path.move g).poses.length = path.poses.length := List.length_map ..
  rw [nearestFrom, nearestFrom, hlen, funext (waypointDist_move g hfin hr)]

/-- The moved carrot. -/
def Carrot.move (g : Rigid) (c : Carrot (Ieee ℝ)) : Carrot (Ieee ℝ) :=
  { c with
    cx := (Point.move g { x := c.cx, y := c.cy }).x
    cy := (Point.move g { x := c.cx, y := c.cy }).y }

/-- The carrot of the moved plan is the moved carrot. -/
theorem findCarrot_move (g : Rigid) {path : Path (Ieee ℝ)} {c : Nat} {L : Ieee ℝ}
    {pose : PoseStamped (Ieee ℝ)} {carrot : Carrot (Ieee ℝ)} (hfin : path.IsFinite)
    (hr : pose.pose.position.IsFinite) (hc : c < path.poses.length)
    (h : findCarrot path c L pose = .ok carrot) :
    findCarrot (path.move g) c L (pose.move g) = .ok (carrot.move g) := by
  have hbounds := findCarrot_bounds hc h
  obtain ⟨hidx, hwalk, p, hp, hpos⟩ := findCarrot_eq_ok.mp h
  have hlen : (path.move g).poses.length = path.poses.length := List.length_map ..
  have hlt : carrot.carrotIdx < path.poses.length := hbounds.2.1.trans_lt hbounds.2.2
  refine findCarrot_eq_ok.mpr ⟨?_, ?_, p.move g, ?_, ?_⟩
  · exact hidx.trans (nearestFrom_move g hfin hr c).symm
  · show walkForward (path.move g).poses L carrot.carrotIdx (lit 0) = .ok carrot.j
    rw [Ieee.lit_eq, Rat.cast_zero] at hwalk ⊢
    rw [walkForward_eq hfin _ _ hlt] at hwalk
    rw [walkForward_eq (hfin.move g) _ _ (hlen ▸ hlt), hlen, funext (segment_move g hfin)]
    exact hwalk
  · show (path.move g).poses[carrot.j]? = _
    rw [Path.getElem?_move, hp]
    rfl
  · show p.pose.position.move g = _
    rw [hpos]
    rfl

/-! ## The goal features -/

theorem yawFromQuat_planar {h : ℂ} (hh : ‖h‖ = 1) :
    yawFromQuat (planar h) = fin (Complex.arg (h ^ 2)) := by
  have hunit : Quaternion.normSq (Heading.level h) = 1 := by
    rw [Heading.normSq_level, hh, one_pow]
  rw [← Heading.forward_level]
  exact yawFromQuat_ofQuaternion hunit

theorem wrapAngle_fin (a : ℝ) :
    wrapAngle (fin a) = (fin (Complex.arg (Complex.exp (a * Complex.I))) : Ieee ℝ) := by
  rw [wrapAngle, Ieee.sin_fin, Ieee.cos_fin, Ieee.atan2_fin]
  congr 2
  exact Complex.ext (Complex.exp_ofReal_mul_I_re a).symm (Complex.exp_ofReal_mul_I_im a).symm

/-- The distance feature of a robot at `z` with its carrot at `w`. -/
theorem goalDist_pt {pose : PoseStamped (Ieee ℝ)} {z w : ℂ} (hz : pose.pose.position = pt z) :
    (goalDist pose (pt w).x (pt w).y : Ieee ℝ) = fin (max 0 (min (‖w - z‖ / 7.0710678) 1)) := by
  have hnorm : CFloat.hypot ((pt w).x - (pt z).x) ((pt w).y - (pt z).y) = fin ‖w - z‖ :=
    distance_pt w z
  have hgoal : (goalNorm : Ieee ℝ) = fin 7.0710678 := by
    rw [goalNorm, Ieee.lit_eq]
    norm_num
  rw [goalDist, hz]
  simp only [hnorm, hgoal, Ieee.toFloat_eq, Ieee.lit_eq]
  rw [Ieee.div_fin _ (by norm_num), Ieee.clamp_fin _ _ _ (by norm_num)]
  norm_num

/-- The angle feature is the bearing of the carrot relative to the heading. -/
theorem goalAngle_pt {pose : PoseStamped (Ieee ℝ)} {z w h : ℂ} (hz : pose.pose.position = pt z)
    (hq : pose.pose.orientation = planar h) (hh : ‖h‖ = 1) :
    (goalAngle pose (pt w).x (pt w).y : Ieee ℝ) =
      fin (Planar.bearing (w - z) (h ^ 2) / Real.pi) := by
  have harg : CFloat.atan2 ((pt w).y - (pt z).y) ((pt w).x - (pt z).x) =
      fin (Complex.arg (w - z)) := by
    simp only [pt, Ieee.sub_fin, Ieee.atan2_fin]
    rfl
  rw [goalAngle, hz, hq]
  simp only [harg, yawFromQuat_planar hh, Ieee.sub_fin, wrapAngle_fin, Ieee.toFloat_eq, Ieee.pi_eq]
  rw [Ieee.div_fin _ Real.pi_ne_zero, Planar.bearing]

/-- The position of a carrot is a waypoint. -/
theorem findCarrot_pt {path : Path (Ieee ℝ)} {c : Nat} {L : Ieee ℝ} {pose : PoseStamped (Ieee ℝ)}
    {carrot : Carrot (Ieee ℝ)} (hfin : path.IsFinite)
    (h : findCarrot path c L pose = .ok carrot) :
    ∃ w, (⟨carrot.cx, carrot.cy⟩ : Point (Ieee ℝ)) = pt w := by
  obtain ⟨-, -, p, hp, hpos⟩ := findCarrot_eq_ok.mp h
  obtain ⟨w, hw⟩ := hfin p (List.mem_of_getElem? hp)
  exact ⟨w, hpos.symm.trans hw⟩

section
variable {g : Rigid} {pose : PoseStamped (Ieee ℝ)} {carrot : Carrot (Ieee ℝ)}

theorem carrot_coords {w : ℂ} (hw : (⟨carrot.cx, carrot.cy⟩ : Point (Ieee ℝ)) = pt w) :
    carrot.cx = (pt w).x ∧ carrot.cy = (pt w).y :=
  ⟨congrArg Point.x hw, congrArg Point.y hw⟩

theorem position_move {z : ℂ} (hz : pose.pose.position = pt z) :
    (pose.move g).pose.position = pt (g.act z) := by
  rw [← pt_move, ← hz]
  rfl

theorem goalDist_move {z w : ℂ} (hz : pose.pose.position = pt z)
    (hw : (⟨carrot.cx, carrot.cy⟩ : Point (Ieee ℝ)) = pt w) :
    (goalDist (pose.move g) (carrot.move g).cx (carrot.move g).cy : Ieee ℝ) =
      goalDist pose carrot.cx carrot.cy := by
  obtain ⟨hx, hy⟩ := carrot_coords hw
  rw [Carrot.move, hw, pt_move, hx, hy, goalDist_pt (position_move hz), goalDist_pt hz,
    g.norm_act_sub]

/-- Away from the carrot its relative bearing stays. -/
theorem goalAngle_move (hpose : pose.IsPlanar) {w : ℂ}
    (hw : (⟨carrot.cx, carrot.cy⟩ : Point (Ieee ℝ)) = pt w)
    (hapart : (⟨carrot.cx, carrot.cy⟩ : Point (Ieee ℝ)) ≠ pose.pose.position) :
    (goalAngle (pose.move g) (carrot.move g).cx (carrot.move g).cy : Ieee ℝ) =
      goalAngle pose carrot.cx carrot.cy := by
  obtain ⟨z, h, hz, hq, hh⟩ := hpose
  obtain ⟨hx, hy⟩ := carrot_coords hw
  have hq' : (pose.move g).pose.orientation = planar (g.half * h) := by
    rw [← planar_move, ← hq]
    rfl
  have hh' : ‖g.half * h‖ = 1 := by rw [norm_mul, g.norm_half, hh, one_mul]
  have hd : w - z ≠ 0 := by
    intro hzero
    rw [sub_eq_zero.mp hzero, ← hz] at hw
    exact hapart hw
  have hu : h ^ 2 ≠ 0 := pow_ne_zero 2 (norm_ne_zero_iff.mp (hh ▸ one_ne_zero))
  rw [Carrot.move, hw, pt_move, hx, hy, goalAngle_pt (position_move hz) hq' hh',
    goalAngle_pt hz hq hh, g.act_sub, mul_pow, g.half_sq, Planar.bearing_mul g.rot_ne_zero hd hu]

end

/-! ## The moved run -/

/-- Waypoints and positions are points of the plane, and orientations are unit
quaternions about the vertical axis. -/
def Event.IsPlanar {F : Type} : Event F (Ieee ℝ) → Prop
  | .setPlan path => path.IsFinite
  | .compute pose _ => pose.IsPlanar
  | _ => True

/-- The carrot of the call is not at the position of the robot. -/
def ApartFromCarrot {F : Type} : Event F (Ieee ℝ) → Output F (Ieee ℝ) → Prop
  | .compute pose _, .drive c => (⟨c.carrot.cx, c.carrot.cy⟩ : Point (Ieee ℝ)) ≠ pose.pose.position
  | _, _ => True

/-- The same carrot index, observation and command. -/
inductive SameOutput {F : Type} : Output F (Ieee ℝ) → Output F (Ieee ℝ) → Prop where
  | silent : SameOutput .silent .silent
  | stop (cmd : TwistStamped (Ieee ℝ)) : SameOutput (.stop cmd) (.stop cmd)
  | drive (c c' : Cycle F (Ieee ℝ)) :
      c'.carrot.carrotIdx = c.carrot.carrotIdx → c'.carrot.j = c.carrot.j →
      c'.obs = c.obs → c'.cmd = c.cmd → SameOutput (.drive c) (.drive c')

/-- The state of the moved run. -/
structure Moved (g : Rigid) (s t : RLController (Ieee ℝ) (Ieee ℝ)) : Prop where
  state : t = { s with currentPath := s.currentPath.move g }
  finite : s.currentPath.IsFinite
  wellFormed : WellFormed s

/-- The two runs keep in step. -/
theorem step_moved {host : Host (Ieee ℝ)} (g : Rigid) {s t s₁ : RLController (Ieee ℝ) (Ieee ℝ)}
    {e : Event (Ieee ℝ) (Ieee ℝ)} {out : Output (Ieee ℝ) (Ieee ℝ)} (hst : Moved g s t)
    (he : e.IsPlanar) (h : step host s e = .ok (s₁, out)) (hapart : ApartFromCarrot e out) :
    ∃ t₁ out', step host t (e.move g) = .ok (t₁, out') ∧ Moved g s₁ t₁ ∧ SameOutput out out' := by
  obtain ⟨rfl, hfin, hwf⟩ := hst
  obtain ⟨m, hm⟩ := hwf.memory
  have hwf₁ := step_wellFormed hwf h
  have hm' : ({ s with currentPath := s.currentPath.move g } :
      RLController (Ieee ℝ) (Ieee ℝ)).lidar = Memory.buffers m := hm
  cases (step_eq_ok hm).mp h with
  | scan msg =>
      exact ⟨_, _, (step_eq_ok hm').mpr (.scan msg), ⟨rfl, hfin, hwf₁⟩, .silent⟩
  | setPlan path =>
      exact ⟨_, _, (step_eq_ok hm').mpr (.setPlan (path.move g)), ⟨rfl, he, hwf₁⟩, .silent⟩
  | setParam value =>
      exact ⟨_, _, (step_eq_ok hm').mpr (.setParam value), ⟨rfl, hfin, hwf₁⟩, .silent⟩
  | lifecycle call =>
      exact ⟨_, _, (step_eq_ok hm').mpr (.lifecycle call), ⟨rfl, hfin, hwf₁⟩, .silent⟩
  | stop pose velocity hplan =>
      have hplan' : (s.currentPath.move g).poses = [] := by
        rw [Path.move, hplan]
        rfl
      exact ⟨_, _, (step_eq_ok hm').mpr (.stop (pose.move g) velocity hplan'), ⟨rfl, hfin, hwf₁⟩,
        .stop _⟩
  | drive pose velocity x carrot hplan hx hcarrot =>
      obtain ⟨w, hw⟩ := findCarrot_pt hfin hcarrot
      obtain ⟨z, h', hz, -⟩ := id he
      have hplan' : (s.currentPath.move g).poses ≠ [] := by
        rw [Path.move]
        simpa using hplan
      have hcarrot' := findCarrot_move g hfin ⟨z, hz⟩ (hwf.index hplan) hcarrot
      have hobs : observe (Memory.next m x) (carrot.move g) (pose.move g) velocity s.lastAction =
          observe (Memory.next m x) carrot pose velocity s.lastAction := by
        rw [observe, goalDist_move hz hw, goalAngle_move he hw hapart]
        rfl
      refine ⟨_, _, (step_eq_ok hm').mpr (.drive (pose.move g) velocity x (carrot.move g) hplan' hx
        hcarrot'), ⟨?_, hfin, hwf₁⟩, .drive _ _ rfl rfl ?_ ?_⟩
      · simp only [drive, hobs]
        rfl
      · simp only [drive, hobs]
      · simp only [drive, hobs]

/-- Moving the world does not change what the controller sees, remembers and
commands.  Every prefix of a run is a run, so the state agrees at every cycle. -/
theorem run_moved {T : Type} {host : Host (Ieee ℝ)} {tf : TfBuffer T} {override : Option (Ieee ℝ)}
    {evs : List (Event (Ieee ℝ) (Ieee ℝ))} {st : RLController (Ieee ℝ) (Ieee ℝ)}
    {os : List (Output (Ieee ℝ) (Ieee ℝ))} (g : Rigid) (hevs : ∀ e ∈ evs, e.IsPlanar)
    (h : run host (configure tf override) evs = .ok (st, os))
    (hapart : List.Forall₂ ApartFromCarrot evs os) :
    ∃ st' os', run host (configure tf override) (evs.map (Event.move g)) = .ok (st', os') ∧
      List.Forall₂ SameOutput os os' ∧ st'.lastAction = st.lastAction ∧
      st'.carrotIdx = st.carrotIdx ∧ st'.lidar = st.lidar := by
  have hinit : Moved g (configure tf override : RLController (Ieee ℝ) (Ieee ℝ))
      (configure tf override) :=
    ⟨rfl, fun p hp => by simp [configure] at hp, configure_wellFormed tf override⟩
  obtain ⟨st', os', hrun, hmoved, hsame⟩ := Machine.run_simulation (Moved g) SameOutput
    Event.IsPlanar ApartFromCarrot (Event.move g)
    (fun s t e s₁ out hst he hstep ho => step_moved g hst he hstep ho) hinit hevs h hapart
  exact ⟨st', os', hrun, hsame, by rw [hmoved.state], by rw [hmoved.state], by rw [hmoved.state]⟩

/-- A robot at no waypoint is apart from every carrot. -/
theorem compute_apart {host : Host (Ieee ℝ)} {st st' : RLController (Ieee ℝ) (Ieee ℝ)}
    {pose : PoseStamped (Ieee ℝ)} {velocity : Twist (Ieee ℝ)} {out : Output (Ieee ℝ) (Ieee ℝ)}
    (hst : WellFormed st)
    (hpos : ∀ p ∈ st.currentPath.poses, p.pose.position ≠ pose.pose.position)
    (h : step host st (.compute pose velocity) = .ok (st', out)) :
    ApartFromCarrot (.compute pose velocity) out := by
  obtain ⟨m, hm⟩ := hst.memory
  cases (step_eq_ok hm).mp h with
  | stop pose velocity hplan => trivial
  | drive pose velocity x carrot hplan hx hcarrot =>
      obtain ⟨-, -, p, hp, hcoords⟩ := findCarrot_eq_ok.mp hcarrot
      have hne := hpos p (List.mem_of_getElem? hp)
      rw [hcoords] at hne
      exact hne

theorem smallRun_apart {st : RLController (Ieee ℝ) (Ieee ℝ)} {os : List (Output (Ieee ℝ) (Ieee ℝ))}
    (h : run stillHost (configure noTf none) smallRun = .ok (st, os)) :
    List.Forall₂ ApartFromCarrot smallRun os := by
  obtain ⟨s₁, o₁, os₁, h₁, r₁, rfl⟩ := Machine.run_cons_eq_ok.mp h
  obtain ⟨s₂, o₂, os₂, h₂, r₂, rfl⟩ := Machine.run_cons_eq_ok.mp r₁
  obtain ⟨s₃, o₃, os₃, h₃, r₃, rfl⟩ := Machine.run_cons_eq_ok.mp r₂
  obtain ⟨s₄, o₄, os₄, h₄, r₄, rfl⟩ := Machine.run_cons_eq_ok.mp r₃
  obtain ⟨-, rfl⟩ := Machine.run_nil_eq_ok.mp r₄
  have hst₁ := step_wellFormed (configure_wellFormed noTf none) h₁
  have hst₂ := step_wellFormed hst₁ h₂
  have hst₃ := step_wellFormed hst₂ h₃
  have hkeep : ∀ {pose velocity},
      (Event.compute pose velocity : Event (Ieee ℝ) (Ieee ℝ)).KeepsPlan := trivial
  have hpath₃ := (step_carrotIdx hst₂ hkeep h₃).1
  cases h₁
  cases h₂
  refine .cons trivial (.cons trivial (.cons ?_ (.cons ?_ .nil)))
  · exact compute_apart hst₂ (by simp [setPlan, smallPath, poseAt]) h₃
  · exact compute_apart hst₃ (by simp [hpath₃, setPlan, smallPath, poseAt]) h₄

/-- The small run on the world turned by a quarter and shifted. -/
theorem smallRun_moved :
    ∃ st os st' os',
      run (stillHost : Host (Ieee ℝ)) (configure noTf (none : Option (Ieee ℝ))) smallRun =
        .ok (st, os) ∧
      run (stillHost : Host (Ieee ℝ)) (configure noTf (none : Option (Ieee ℝ)))
        (smallRun.map (Event.move { angle := Real.pi / 2, shift := ⟨3, -1⟩ })) = .ok (st', os') ∧
      List.Forall₂ SameOutput os os' := by
  have hplanar : ∀ e ∈ (smallRun : List (Event (Ieee ℝ) (Ieee ℝ))), e.IsPlanar := by
    have hpose : ∀ q : ℚ, (poseAt (lit q) (lit 0) : PoseStamped (Ieee ℝ)).IsPlanar := by
      intro q
      exact ⟨⟨q, 0⟩, 1, by simp [poseAt, pt], by simp [poseAt, planar], by simp⟩
    intro e he
    simp only [smallRun, smallCalls, List.mem_cons, List.not_mem_nil, or_false] at he
    rcases he with rfl | rfl | rfl | rfl
    · trivial
    · intro p hp
      cases List.mem_singleton.mp hp
      obtain ⟨z, -, hz, -⟩ := hpose 0
      exact ⟨z, hz⟩
    · exact hpose 1
    · exact hpose 2
  obtain ⟨st, os, h⟩ := smallRun_total (F := Ieee ℝ) (D := Ieee ℝ)
  obtain ⟨st', os', h', hsame, -⟩ := run_moved { angle := Real.pi / 2, shift := ⟨3, -1⟩ } hplanar h
    (smallRun_apart h)
  exact ⟨st, os, st', os', h, h', hsame⟩

end

end RLNav
