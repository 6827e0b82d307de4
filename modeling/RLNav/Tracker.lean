import RLNav.History

/-!
# The tracker

What the controller is for, without its indices and vectors.  A *tracker* holds
the waypoints that are still ahead, the latest sampled scan, the lidar memory and
the last action.  A call drops the waypoints before the nearest one, walks along
the rest, and answers with what the network says about the result.

No state of a tracker is invalid: an index that leaves its plan, a vector of the
wrong length or a message that cannot be sampled has no counterpart here, and
`Tracker.step` is a total function.  The frame ids, the orientations of the
waypoints and the members `carrot_idx_` and `carrot_lookahead_` have none either.

The controller is a tracker: every run of it means a run of the tracker, with the
same answers (`run_tracks`).  So what a tracker does not see has no influence on
the robot (`run_alike`).
-/

namespace RLNav

open CFloat (lit)

/-! ## The abstract model -/

/-- Where the robot is and where it looks. -/
structure Stance (D : Type) where
  position : Point D
  heading : D

structure Tracker (F D : Type) where
  lookahead : D
  held : Scan F
  ahead : List (Point D)
  memory : Option (Memory F)
  lastAction : F × F

/-- What an event means. -/
inductive Input (F D : Type) where
  | scan (x : Scan F)
  | setPlan (points : List (Point D))
  | setParam (value : D)
  | idle
  | call (robot : Stance D) (velocity : Twist D)

/-- What an answer means.  A call on a plan gives a carrot, an observation and a
command. -/
inductive Answer (F D : Type) where
  | silent
  | stop
  | drive (carrot : Point D) (obs : List F) (cmd : Twist D)

section
variable {F D : Type} [CFloat F] [CFloat D]

/-- The waypoints from the nearest one on, if it is nearer than `best`, and `keep`
if none is. -/
def nearestOn (r : Point D) : D → List (Point D) → List (Point D) → List (Point D)
  | _, keep, [] => keep
  | best, keep, p :: ps =>
      if CFloat.lt (distance p r) best then nearestOn r (distance p r) (p :: ps) ps
      else nearestOn r best keep ps

/-- The waypoints from the one nearest to `r` on. -/
def dropPassed (r : Point D) (ps : List (Point D)) : List (Point D) :=
  nearestOn r CFloat.maxValue ps ps

/-- The waypoint at which a walk from `p` along the waypoints ends, with the length
`acc` behind it. -/
def walkTo (L : D) : D → Point D → List (Point D) → Point D
  | _, p, [] => p
  | acc, p, q :: ps => if CFloat.lt acc L then walkTo L (acc + distance q p) q ps else p

variable [FloatCast F D]

/-- The distance and the bearing of the carrot. -/
def Stance.goal (robot : Stance D) (carrot : Point D) : F × F :=
  (FloatCast.toFloat (CFloat.clamp (distance carrot robot.position / goalNorm) (lit 0.0)
      (lit 1.0)),
    FloatCast.toFloat (wrapAngle (CFloat.atan2 (carrot.y - robot.position.y)
      (carrot.x - robot.position.x) - robot.heading) / CFloat.pi))

/-- The observation of a tracker that remembers `m`. -/
def Tracker.observe (t : Tracker F D) (m : Memory F) (carrot : Point D) (robot : Stance D)
    (velocity : Twist D) : List F :=
  let goal : F × F := robot.goal carrot
  m.features ++
    [goal.1, goal.2, normVelocity velocity.linearX maxLin, normVelocity velocity.angularZ maxAng,
      t.lastAction.1, t.lastAction.2]

def Tracker.step (net : List F → F × F) (t : Tracker F D) :
    Input F D → Tracker F D × Answer F D
  | .scan x => ({ t with held := x }, .silent)
  | .setPlan points => ({ t with ahead := points }, .silent)
  | .setParam value => ({ t with lookahead := value }, .silent)
  | .idle => (t, .silent)
  | .call robot velocity =>
      match dropPassed robot.position t.ahead with
      | [] => (t, .stop)
      | p :: ps =>
          let m := Memory.next t.memory t.held
          let carrot := walkTo t.lookahead (lit 0) p ps
          let obs := t.observe m carrot robot velocity
          let lastAction := clampAction (net obs)
          ({ t with ahead := p :: ps, memory := some m, lastAction },
            .drive carrot obs (actionToTwist lastAction))

def Tracker.run (net : List F → F × F) : Tracker F D → List (Input F D) →
    Tracker F D × List (Answer F D)
  | t, [] => (t, [])
  | t, i :: is =>
      let (t₁, a) := t.step net i
      let (t', answers) := Tracker.run net t₁ is
      (t', a :: answers)

omit [FloatCast F D] in
/-- The tracker of a configured controller. -/
def Tracker.start (override : Option D) : Tracker F D where
  lookahead := override.getD (lit 0.3)
  held := placeholder
  ahead := []
  memory := none
  lastAction := (lit 0, lit 0)

end

/-! ## What events and answers mean -/

section
variable {F D : Type}

def Output.meaning : Output F D → Answer F D
  | .silent => .silent
  | .stop _ => .stop
  | .drive c => .drive ⟨c.carrot.cx, c.carrot.cy⟩ c.obs.cells c.cmd.twist

def Path.points (path : Path D) : List (Point D) := path.poses.map (·.pose.position)

variable [CFloat F] [CFloat D]

def PoseStamped.stance (pose : PoseStamped D) : Stance D where
  position := pose.pose.position
  heading := yawFromQuat pose.pose.orientation

inductive Event.Means (host : Host F) : Event F D → Input F D → Prop where
  | scan {msg : LaserScan F} {x : Scan F} :
      SampledAs host (some msg) x → Means host (.scan msg) (.scan x)
  | setPlan (path : Path D) : Means host (.setPlan path) (.setPlan path.points)
  | setParam (value : D) : Means host (.setParam value) (.setParam value)
  | lifecycle (call : Lifecycle D) : Means host (.lifecycle call) .idle
  | compute (pose : PoseStamped D) (velocity : Twist D) :
      Means host (.compute pose velocity) (.call pose.stance velocity)

/-- The controller is in the state that `t` describes. -/
structure Tracks (host : Host F) (st : RLController F D) (t : Tracker F D) : Prop where
  lookahead : st.lookaheadParam = t.lookahead
  held : SampledAs host st.lastScan t.held
  inside : st.currentPath.poses ≠ [] → st.carrotIdx < st.currentPath.poses.length
  ahead : st.currentPath.points.drop st.carrotIdx = t.ahead
  memory : st.lidar = Memory.buffers t.memory
  lastAction : st.lastAction = t.lastAction

/-! ## The search and the walk -/

omit [CFloat F] in
/-- The loop of the search, entered at index `i` with the index `k` remembered. -/
theorem search_drop (poses : List (PoseStamped D)) (r : Point D) (best : D) (k i : Nat) :
    (poses.map (·.pose.position)).drop
        (ArgMin.search CFloat.lt (waypointDist poses r) (best, k)
          (List.range' i (poses.length - i))).2 =
      nearestOn r best ((poses.map (·.pose.position)).drop k)
        ((poses.map (·.pose.position)).drop i) := by
  induction hn : poses.length - i generalizing best k i with
  | zero =>
      have hnil : (poses.map (·.pose.position)).drop i = [] :=
        List.drop_eq_nil_of_le (by rw [List.length_map]; omega)
      rw [hnil]
      rfl
  | succ n ih =>
      have hi : i < poses.length := by omega
      have hdrop : (poses.map (·.pose.position)).drop i =
          poses[i].pose.position :: (poses.map (·.pose.position)).drop (i + 1) := by
        rw [List.drop_eq_getElem_cons (by rwa [List.length_map]), List.getElem_map]
      rw [List.range'_succ, hdrop, nearestOn, ← waypointDist_of_lt hi, ArgMin.search,
        List.foldl_cons]
      split
      · rw [← hdrop]
        exact ih _ _ (i + 1) (by omega)
      · exact ih _ _ (i + 1) (by omega)

omit [CFloat F] in
/-- The waypoints from the remembered index on are those not passed yet. -/
theorem drop_nearestFrom (path : Path D) (r : Point D) (c : Nat) :
    path.points.drop (nearestFrom path.poses r c) = dropPassed r (path.points.drop c) :=
  search_drop path.poses r CFloat.maxValue c c

omit [CFloat F] in
theorem walkForward_walkTo {poses : List (PoseStamped D)} {L : D} (j : Nat) (acc : D) {k : Nat}
    (hj : j < poses.length) (h : walkForward poses L j acc = .ok k) :
    poses[k]?.map (·.pose.position) = some (walkTo L acc poses[j].pose.position
      ((poses.map (·.pose.position)).drop (j + 1))) := by
  induction hn : poses.length - j generalizing j acc with
  | zero => omega
  | succ n ih =>
      by_cases hlast : j + 1 < poses.length
      · have hdrop : (poses.map (·.pose.position)).drop (j + 1) =
            poses[j + 1].pose.position :: (poses.map (·.pose.position)).drop (j + 1 + 1) := by
          rw [List.drop_eq_getElem_cons (by rwa [List.length_map]), List.getElem_map]
        rw [hdrop, walkTo]
        by_cases hshort : CFloat.lt acc L = true
        · rw [if_pos hshort]
          rw [walkForward_go hlast hshort] at h
          exact ih (j + 1) _ hlast h (by omega)
        · rw [if_neg hshort]
          rw [walkForward_halt fun hgo => hshort hgo.2] at h
          cases h
          rw [List.getElem?_eq_getElem hj]
          rfl
      · rw [walkForward_halt fun hgo => hlast hgo.1] at h
        cases h
        rw [List.drop_eq_nil_of_le (by rw [List.length_map]; omega), List.getElem?_eq_getElem hj]
        rfl

omit [CFloat F] in
/-- The carrot of a call is the end of the walk along the waypoints ahead. -/
theorem findCarrot_ahead {path : Path D} {c : Nat} {L : D} {pose : PoseStamped D}
    {carrot : Carrot D} (hc : c < path.poses.length)
    (h : findCarrot path c L pose = .ok carrot) :
    ∃ p ps, dropPassed pose.pose.position (path.points.drop c) = p :: ps ∧
      path.points.drop carrot.carrotIdx = p :: ps ∧
      walkTo L (lit 0) p ps = ⟨carrot.cx, carrot.cy⟩ := by
  obtain ⟨hidx, hwalk, q, hq, hpos⟩ := findCarrot_eq_ok.mp h
  have hlt : carrot.carrotIdx < path.poses.length := by
    have hbounds := findCarrot_bounds hc h
    omega
  have hdrop : path.points.drop carrot.carrotIdx =
      path.poses[carrot.carrotIdx].pose.position :: path.points.drop (carrot.carrotIdx + 1) := by
    rw [Path.points, List.drop_eq_getElem_cons (by rwa [List.length_map]), List.getElem_map]
  refine ⟨_, _, ?_, hdrop, ?_⟩
  · rw [← drop_nearestFrom, ← hidx, hdrop]
  · have hend := walkForward_walkTo carrot.carrotIdx (lit 0) hlt hwalk
    rw [hq, Option.map_some, hpos, Option.some_inj] at hend
    exact hend.symm

variable [FloatCast F D]

/-! ## The controller is a tracker -/

theorem Tracker.step_stop {net : List F → F × F} {t : Tracker F D} {robot : Stance D}
    (velocity : Twist D) (h : dropPassed robot.position t.ahead = []) :
    t.step net (.call robot velocity) = (t, .stop) := by
  rw [Tracker.step, h]

theorem Tracker.step_drive {net : List F → F × F} {t : Tracker F D} {robot : Stance D}
    (velocity : Twist D) {p carrot : Point D} {ps : List (Point D)} {obs : List F}
    (h : dropPassed robot.position t.ahead = p :: ps)
    (hwalk : walkTo t.lookahead (lit 0) p ps = carrot)
    (hobs : t.observe (Memory.next t.memory t.held) carrot robot velocity = obs) :
    t.step net (.call robot velocity) =
      ({ t with
          ahead := p :: ps
          memory := some (Memory.next t.memory t.held)
          lastAction := clampAction (net obs) },
        .drive carrot obs (actionToTwist (clampAction (net obs)))) := by
  rw [Tracker.step, h]
  simp only [hwalk, hobs]

/-- One event. -/
theorem Tracks.step {host : Host F} {st : RLController F D} {t : Tracker F D} {e : Event F D}
    {i : Input F D} (h : Tracks host st t) (he : e.Means host i) :
    ∃ st' out, RLNav.step host st e = .ok (st', out) ∧
      Tracks host st' (t.step host.session i).1 ∧ out.meaning = (t.step host.session i).2 := by
  cases he with
  | @scan msg x hx =>
      exact ⟨_, _, rfl, ⟨h.lookahead, hx, h.inside, h.ahead, h.memory, h.lastAction⟩, rfl⟩
  | setPlan path =>
      exact ⟨_, _, rfl, ⟨h.lookahead, h.held, List.length_pos_iff.mpr, rfl, h.memory,
        h.lastAction⟩, rfl⟩
  | setParam value =>
      exact ⟨_, _, rfl, ⟨rfl, h.held, h.inside, h.ahead, h.memory, h.lastAction⟩, rfl⟩
  | lifecycle call =>
      refine ⟨_, _, rfl, ?_, rfl⟩
      cases call <;> exact h
  | compute pose velocity =>
      by_cases hplan : st.currentPath.poses = []
      · have hnil : dropPassed pose.stance.position t.ahead = [] := by
          rw [← h.ahead, Path.points, hplan, List.map_nil, List.drop_nil]
          rfl
        rw [Tracker.step_stop velocity hnil]
        exact ⟨_, _, compute_empty hplan, h, rfl⟩
      · have hinside := h.inside hplan
        obtain ⟨carrot, hcarrot⟩ := findCarrot_total st.lookaheadParam pose hinside
        obtain ⟨p, ps, hpassed, hdrop, hwalk⟩ := findCarrot_ahead hinside hcarrot
        have hbounds := findCarrot_bounds hinside hcarrot
        have hobs : t.observe (Memory.next t.memory t.held) ⟨carrot.cx, carrot.cy⟩ pose.stance
              velocity =
            observe (Memory.next t.memory t.held) carrot pose velocity st.lastAction := by
          rw [h.lastAction]
          rfl
        rw [Tracker.step_drive velocity (h.ahead ▸ hpassed) (h.lookahead ▸ hwalk) hobs]
        refine ⟨_, _, (step_eq_ok h.memory).mpr
          (.drive pose velocity t.held carrot hplan h.held hcarrot), ?_, rfl⟩
        exact ⟨h.lookahead, h.held, fun _ => hbounds.2.1.trans_lt hbounds.2.2, hdrop, rfl, rfl⟩

/-- A run. -/
theorem Tracks.run {host : Host F} {st : RLController F D} {t : Tracker F D}
    {evs : List (Event F D)} {is : List (Input F D)} (h : Tracks host st t)
    (hmeans : List.Forall₂ (Event.Means host) evs is) :
    ∃ st' os, RLNav.run host st evs = .ok (st', os) ∧
      Tracks host st' (t.run host.session is).1 ∧
      os.map Output.meaning = (t.run host.session is).2 := by
  induction hmeans generalizing st t with
  | nil => exact ⟨st, [], rfl, h, rfl⟩
  | cons he hes ih =>
      obtain ⟨st₁, out, hstep, h₁, hout⟩ := h.step he
      obtain ⟨st', os, hrun, h', hos⟩ := ih h₁
      exact ⟨st', out :: os, Machine.run_cons_eq_ok.mpr ⟨st₁, out, os, hstep, hrun, rfl⟩, h',
        congrArg₂ List.cons hout hos⟩

omit [FloatCast F D] in
theorem configure_tracks {T : Type} (host : Host F) (tf : TfBuffer T) (override : Option D) :
    Tracks host (configure tf override) (Tracker.start override) where
  lookahead := rfl
  held := sampleScan_unusable fun s hs => by cases hs
  inside hne := absurd rfl hne
  ahead := rfl
  memory := rfl
  lastAction := rfl

omit [FloatCast F D] in
/-- A message that is not too long has a meaning. -/
theorem Event.Fits.means (host : Host F) {e : Event F D} (he : e.Fits) : ∃ i, e.Means host i := by
  cases e with
  | scan msg =>
      have hfit : ∀ s, some msg = some s → s.ranges.length ≤ 2 ^ 30 := by
        intro s hs
        cases hs
        exact he
      obtain ⟨x, hx⟩ := sampleScan_total host hfit
      exact ⟨_, .scan hx⟩
  | setPlan path => exact ⟨_, .setPlan path⟩
  | setParam value => exact ⟨_, .setParam value⟩
  | lifecycle call => exact ⟨_, .lifecycle call⟩
  | compute pose velocity => exact ⟨_, .compute pose velocity⟩

omit [FloatCast F D] in
theorem exists_means (host : Host F) {evs : List (Event F D)} (hfits : ∀ e ∈ evs, e.Fits) :
    ∃ is, List.Forall₂ (Event.Means host) evs is := by
  induction evs with
  | nil => exact ⟨[], .nil⟩
  | cons e evs ih =>
      obtain ⟨i, hi⟩ := (hfits e (List.mem_cons_self ..)).means host
      obtain ⟨is, his⟩ := ih fun e' he' => hfits e' (List.mem_cons_of_mem _ he')
      exact ⟨i :: is, .cons hi his⟩

/-- Every run of the controller is a run of the tracker on what its events mean, with
the same answers. -/
theorem run_tracks {T : Type} (host : Host F) (tf : TfBuffer T) (override : Option D)
    {evs : List (Event F D)} (hfits : ∀ e ∈ evs, e.Fits) :
    ∃ (is : List (Input F D)) (st : RLController F D) (os : List (Output F D)),
      List.Forall₂ (Event.Means host) evs is ∧
      run host (configure tf override) evs = .ok (st, os) ∧
      Tracks host st ((Tracker.start override).run host.session is).1 ∧
      os.map Output.meaning = ((Tracker.start override).run host.session is).2 := by
  obtain ⟨is, hmeans⟩ := exists_means host hfits
  obtain ⟨st, os, hrun, hst, hos⟩ := (configure_tracks host tf override).run hmeans
  exact ⟨is, st, os, hmeans, hrun, hst, hos⟩

/-! ## What has no influence -/

/-- Two events that a tracker does not tell apart.  The frame ids, the orientations of
the waypoints, that of the robot as far as `yawFromQuat` does not read it, and everything
of a message but its sample may differ. -/
inductive Event.Alike (host : Host F) : Event F D → Event F D → Prop where
  | scan {msg msg' : LaserScan F} :
      sampleScan host (some msg) = sampleScan host (some msg') →
      Alike host (.scan msg) (.scan msg')
  | setPlan {path path' : Path D} :
      path.points = path'.points → Alike host (.setPlan path) (.setPlan path')
  | setParam (value : D) : Alike host (.setParam value) (.setParam value)
  | lifecycle (call call' : Lifecycle D) : Alike host (.lifecycle call) (.lifecycle call')
  | compute {pose pose' : PoseStamped D} (velocity : Twist D) :
      pose.pose.position = pose'.pose.position →
      yawFromQuat pose.pose.orientation = yawFromQuat pose'.pose.orientation →
      Alike host (.compute pose velocity) (.compute pose' velocity)

omit [FloatCast F D] in
theorem Event.Alike.means {host : Host F} {e e' : Event F D} {i : Input F D}
    (h : e.Alike host e') (he : e.Means host i) : e'.Means host i := by
  cases h with
  | scan hsample =>
      cases he with
      | scan hx => exact .scan (hsample.symm.trans hx)
  | @setPlan path path' hpoints =>
      cases he with
      | setPlan => exact hpoints ▸ .setPlan path'
  | setParam value => exact he
  | lifecycle call call' =>
      cases he with
      | lifecycle => exact .lifecycle call'
  | @compute pose pose' velocity hpos hyaw =>
      cases he with
      | compute =>
          have hstance : pose.stance = pose'.stance := congrArg₂ Stance.mk hpos hyaw
          exact hstance ▸ .compute pose' velocity

omit [FloatCast F D] in
theorem Event.Alike.means_all {host : Host F} {evs evs' : List (Event F D)}
    {is : List (Input F D)} (h : List.Forall₂ (Event.Alike host) evs evs')
    (hmeans : List.Forall₂ (Event.Means host) evs is) :
    List.Forall₂ (Event.Means host) evs' is := by
  induction h generalizing is with
  | nil => exact hmeans
  | cons he hes ih =>
      cases hmeans with
      | cons hi his => exact .cons (he.means hi) (ih his)

/-- Runs on events that a tracker does not tell apart have the same carrots, the same
observations and the same commands. -/
theorem run_alike {T T' : Type} (host : Host F) (tf : TfBuffer T) (tf' : TfBuffer T')
    (override : Option D) {evs evs' : List (Event F D)} (hfits : ∀ e ∈ evs, e.Fits)
    (halike : List.Forall₂ (Event.Alike host) evs evs') :
    ∃ (st st' : RLController F D) (os os' : List (Output F D)),
      run host (configure tf override) evs = .ok (st, os) ∧
      run host (configure tf' override) evs' = .ok (st', os') ∧
      os.map Output.meaning = os'.map Output.meaning := by
  obtain ⟨is, hmeans⟩ := exists_means host hfits
  obtain ⟨st, os, hrun, -, hos⟩ := (configure_tracks host tf override).run hmeans
  obtain ⟨st', os', hrun', -, hos'⟩ := (configure_tracks host tf' override).run
    (Event.Alike.means_all halike hmeans)
  exact ⟨st, st', os, os', hrun, hrun', hos.trans hos'.symm⟩

end

/-- The robot is rolled to one side. -/
noncomputable def rolled : Quaternion (Ieee ℝ) := ⟨.fin 0.6, .fin 0, .fin 0, .fin 0.8⟩

/-- The robot is pitched down. -/
noncomputable def nosedive : Quaternion (Ieee ℝ) := ⟨.fin 0, .fin 0.6, .fin 0, .fin 0.8⟩

/-- The small run with other labels on its waypoint and a robot that rolls and pitches. -/
noncomputable def relabelledRun : List (Event (Ieee ℝ) (Ieee ℝ)) :=
  [.scan (oneBeam (lit 1)),
    .setPlan { frameId := "odom", poses := [{ frameId := "", pose :=
      { position := ⟨lit 0, lit 0⟩, orientation := ⟨lit 1, lit 0, lit 0, lit 0⟩ } }] },
    .compute { frameId := "map", pose := ⟨⟨lit 1, lit 0⟩, rolled⟩ } still,
    .compute { frameId := "map", pose := ⟨⟨lit 2, lit 0⟩, nosedive⟩ } still]

/-- No turn about the vertical axis. -/
theorem yaw_of_arg_eq_zero {q : Quaternion (Ieee ℝ)} {x : ℝ} (hx : 0 ≤ x)
    (h : yawFromQuat q = .fin (Complex.arg ⟨x, 0⟩)) : yawFromQuat q = .fin 0 := by
  rw [h, Ieee.fin_inj]
  exact Complex.arg_ofReal_of_nonneg hx

theorem relabelledRun_alike (host : Host (Ieee ℝ)) :
    List.Forall₂ (Event.Alike host) smallRun relabelledRun := by
  have hlevel : yawFromQuat (⟨lit 0, lit 0, lit 0, lit 1⟩ : Quaternion (Ieee ℝ)) = .fin 0 :=
    yaw_of_arg_eq_zero (x := 1) zero_le_one (by norm_num [yawFromQuat])
  have hrolled : yawFromQuat rolled = .fin 0 :=
    yaw_of_arg_eq_zero (x := 1) zero_le_one (by norm_num [yawFromQuat, rolled])
  have hpitched : yawFromQuat nosedive = .fin 0 :=
    yaw_of_arg_eq_zero (x := 0.28) (by norm_num) (by norm_num [yawFromQuat, nosedive])
  exact .cons (.scan rfl) (.cons (.setPlan rfl) (.cons (.compute _ rfl (hlevel.trans hrolled.symm))
    (.cons (.compute _ rfl (hlevel.trans hpitched.symm)) .nil)))

theorem smallRun_tracks :
    ∃ (is : List (Input (Ieee ℝ) (Ieee ℝ))) (st : RLController (Ieee ℝ) (Ieee ℝ))
      (os : List (Output (Ieee ℝ) (Ieee ℝ))),
      List.Forall₂ (Event.Means stillHost) smallRun is ∧
      run stillHost (configure noTf none) smallRun = .ok (st, os) ∧
      Tracks stillHost st ((Tracker.start none).run stillHost.session is).1 ∧
      os.map Output.meaning = ((Tracker.start none).run stillHost.session is).2 :=
  run_tracks stillHost noTf none smallRun_fits

theorem smallRun_alike :
    ∃ (st st' : RLController (Ieee ℝ) (Ieee ℝ)) (os os' : List (Output (Ieee ℝ) (Ieee ℝ))),
      run stillHost (configure noTf none) smallRun = .ok (st, os) ∧
      run stillHost (configure noTf none) relabelledRun = .ok (st', os') ∧
      os.map Output.meaning = os'.map Output.meaning :=
  run_alike stillHost noTf noTf none smallRun_fits (relabelledRun_alike stillHost)

end RLNav
