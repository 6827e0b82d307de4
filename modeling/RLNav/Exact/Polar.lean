import RLNav.Exact.Motion

/-!
# The goal entries are polar coordinates

The two goal entries of an observation are the length, saturated, and the
argument, in half turns, of the carrot in the frame of the robot
(`goalCall_eq`).  Up to the saturation they are polar coordinates, so they
determine the carrot in that frame, and beyond it its bearing (`goal_polar`).
-/

namespace RLNav

open Ieee (fin)
open CFloat (lit)
open Complex (I exp arg)
open scoped ComplexConjugate

noncomputable section

/-- A robot on the plane at `z` with heading `ψ`. -/
def PoseStamped.Heads (p : PoseStamped (Ieee ℝ)) (z : ℂ) (ψ : ℝ) : Prop :=
  p.pose.position = pt z ∧ ∃ h, p.pose.orientation = planar h ∧ ‖h‖ = 1 ∧ exp (ψ * I) = h ^ 2

/-- A point in the frame of a robot: relative to its position, and turned back by
its heading. -/
def bodyFrame (z : ℂ) (ψ : ℝ) (w : ℂ) : ℂ := exp (-(ψ * I)) * (w - z)

/-- The goal entries of a call whose carrot is at `b` in the frame of the robot are
`dist` and `angle`. -/
def GoalCall (b : ℂ) (dist angle : Ieee ℝ) : Prop :=
  ∃ (host : Host (Ieee ℝ)) (st st' : RLController (Ieee ℝ) (Ieee ℝ)) (pose : PoseStamped (Ieee ℝ))
    (velocity : Twist (Ieee ℝ)) (c : Cycle (Ieee ℝ) (Ieee ℝ)) (z w : ℂ) (ψ : ℝ),
    Reachable host st ∧
    computeVelocityCommands host st pose velocity = .ok (st', .drive c) ∧
    pose.Heads z ψ ∧ (⟨c.carrot.cx, c.carrot.cy⟩ : Point (Ieee ℝ)) = pt w ∧
    b = bodyFrame z ψ w ∧ c.obs.cells[548]? = some dist ∧ c.obs.cells[549]? = some angle

/-- The entries are the length and the argument. -/
theorem goalCall_eq {b : ℂ} {dist angle : Ieee ℝ} (h : GoalCall b dist angle) (hb : b ≠ 0) :
    dist = fin (min (‖b‖ / 7.0710678) 1) ∧ angle = fin (arg b / Real.pi) := by
  obtain ⟨host, st, st', pose, velocity, c, z, w, ψ, hst, hcall, hheads, hw, rfl, hdist, hangle⟩ :=
    h
  obtain ⟨hz, q, hq, hnorm, hψ⟩ := hheads
  obtain ⟨m, hm⟩ := hst.wellFormed.memory
  obtain ⟨hx, hy⟩ := carrot_coords hw
  have hdist' := (compute_tail hm hcall 0).symm.trans hdist
  have hangle' := (compute_tail hm hcall 1).symm.trans hangle
  rw [hx, hy, goalDist_pt hz] at hdist'
  rw [hx, hy, goalAngle_pt hz hq hnorm] at hangle'
  have hlen : ‖bodyFrame z ψ w‖ = ‖w - z‖ := by
    rw [bodyFrame, norm_mul, ← neg_mul, ← Complex.ofReal_neg, Complex.norm_exp_ofReal_mul_I,
      one_mul]
  have hturn : (w - z) / q ^ 2 = bodyFrame z ψ w := by
    rw [bodyFrame, ← hψ, Complex.exp_neg, div_eq_inv_mul]
  have hne : w - z ≠ 0 := fun hzero => hb (by rw [bodyFrame, hzero, mul_zero])
  have hq0 : q ^ 2 ≠ 0 := hψ ▸ Complex.exp_ne_zero _
  constructor
  · rw [← Option.some_inj, ← hdist', hlen]
    have hnonneg : 0 ≤ min (‖w - z‖ / 7.0710678) 1 := by positivity
    rw [max_eq_right hnonneg]
    rfl
  · rw [← Option.some_inj, ← hangle', Planar.bearing_eq hne hq0, hturn]
    rfl

/-- A saturated distance determines the distance up to the saturation. -/
theorem norm_of_saturated {r r' : ℝ} (h : min (r / 7.0710678) 1 = min (r' / 7.0710678) 1)
    (hr : r ≤ 7.0710678) (hr' : r = 7.0710678 → r' ≤ 7.0710678) : r' = r := by
  have hbound : r' ≤ 7.0710678 := by
    rcases hr.lt_or_eq with hlt | heq
    · by_contra hgt
      rw [min_eq_right (a := r' / 7.0710678) (by rw [one_le_div (by norm_num)]; linarith),
        min_eq_left (by rwa [div_le_one (by norm_num)])] at h
      rw [div_eq_one_iff_eq (by norm_num)] at h
      exact hlt.ne h
    · exact hr' heq
  rw [min_eq_left (by rwa [div_le_one (by norm_num)]),
    min_eq_left (by rwa [div_le_one (by norm_num)])] at h
  exact ((div_left_inj' (by norm_num)).mp h).symm

/-- Away from the carrot the goal entries are its polar coordinates in the frame of
the robot: they determine the carrot up to the saturation of the distance, and
its bearing beyond.  The angle is zero exactly dead ahead, and changes its sign
with the side except dead behind. -/
theorem goal_polar {b : ℂ} {dist angle : Ieee ℝ} (h : GoalCall b dist angle) (hb : b ≠ 0) :
    ∃ ρ θ : ℝ, dist = fin ρ ∧ angle = fin θ ∧
      ρ = min (‖b‖ / 7.0710678) 1 ∧ -1 < θ ∧ θ ≤ 1 ∧
      ‖b‖ * Real.cos (Real.pi * θ) = b.re ∧ ‖b‖ * Real.sin (Real.pi * θ) = b.im ∧
      (∀ b', b' ≠ 0 → GoalCall b' dist angle →
        arg b' = arg b ∧
          (‖b‖ ≤ 7.0710678 → (‖b‖ = 7.0710678 → ‖b'‖ ≤ 7.0710678) → b' = b)) ∧
      (θ = 0 ↔ 0 < b.re ∧ b.im = 0) ∧
      ∀ dist' angle', GoalCall (conj b) dist' angle' →
        dist' = dist ∧ (¬(b.re < 0 ∧ b.im = 0) → angle' = fin (-θ)) := by
  have hpi := Real.pi_pos
  obtain ⟨rfl, rfl⟩ := goalCall_eq h hb
  have hcancel : Real.pi * (arg b / Real.pi) = arg b := mul_div_cancel₀ _ hpi.ne'
  obtain ⟨hlo, hhi⟩ := Complex.arg_mem_Ioc b
  refine ⟨_, _, rfl, rfl, rfl, ?_, ?_, ?_, ?_, ?_, ?_, ?_⟩
  · rw [lt_div_iff₀ hpi]
    linarith
  · rw [div_le_one hpi]
    exact hhi
  · rw [hcancel, Complex.norm_mul_cos_arg]
  · rw [hcancel, Complex.norm_mul_sin_arg]
  · intro b' hb' h'
    obtain ⟨hdist, hangle⟩ := goalCall_eq h' hb'
    rw [Ieee.fin_inj] at hdist hangle
    have harg : arg b' = arg b := (div_left_inj' hpi.ne').mp hangle.symm
    exact ⟨harg, fun hn hn' => Complex.ext_norm_arg (norm_of_saturated hdist hn hn') harg⟩
  · rw [div_eq_zero_iff, or_iff_left hpi.ne', Complex.arg_eq_zero_iff]
    constructor
    · rintro ⟨hre, him⟩
      refine ⟨lt_of_le_of_ne hre fun hzero => hb ?_, him⟩
      exact Complex.ext hzero.symm him
    · rintro ⟨hre, him⟩
      exact ⟨hre.le, him⟩
  · intro dist' angle' h'
    obtain ⟨rfl, rfl⟩ := goalCall_eq h' ((map_ne_zero _).mpr hb)
    rw [Complex.norm_conj, Complex.arg_conj, Ieee.fin_inj]
    refine ⟨rfl, fun hbehind => ?_⟩
    rw [if_neg (Complex.arg_eq_pi_iff.not.mpr hbehind), neg_div]

/-- The one waypoint of the small plan is a metre behind the robot. -/
theorem smallPath_goalCall : ∃ dist angle, GoalCall (-1) dist angle := by
  let st : RLController (Ieee ℝ) (Ieee ℝ) := setPlan (configure noTf none) smallPath
  have hst : Reachable stillHost st := ⟨Unit, noTf, none, [.setPlan smallPath], [.silent], rfl⟩
  obtain ⟨st', out, h⟩ := step_total stillHost (.compute (poseAt (lit 1) (lit 0)) still)
    hst.wellFormed (fun s hs => by cases hs)
  obtain ⟨x, carrot, -, hcarrot, -, rfl⟩ := (compute_eq_ok (m := none) rfl (by simp [st, setPlan,
    smallPath])).mp h
  obtain ⟨-, -, p, hp, hpos⟩ := findCarrot_eq_ok.mp hcarrot
  have hp' : p = poseAt (lit 0) (lit 0) :=
    List.mem_singleton.mp (List.mem_of_getElem? (l := smallPath.poses) hp)
  refine ⟨_, _, stillHost, st, st', poseAt (lit 1) (lit 0), still, _, 1, 0, 0, hst, h,
    ⟨?_, 1, ?_, norm_one, ?_⟩, ?_, ?_, compute_tail (m := none) rfl h 0,
    compute_tail (m := none) rfl h 1⟩
  · simp [poseAt, pt]
  · simp [poseAt, planar]
  · simp
  · show (⟨carrot.cx, carrot.cy⟩ : Point (Ieee ℝ)) = pt 0
    rw [← hpos, hp']
    simp [poseAt, pt]
  · simp [bodyFrame]

theorem smallPath_polar :
    ∃ (dist angle : Ieee ℝ) (ρ θ : ℝ), GoalCall (-1) dist angle ∧ dist = fin ρ ∧ angle = fin θ ∧
      ‖(-1 : ℂ)‖ * Real.cos (Real.pi * θ) = (-1 : ℂ).re := by
  obtain ⟨dist, angle, h⟩ := smallPath_goalCall
  obtain ⟨ρ, θ, hρ, hθ, -, -, -, hcos, -⟩ := goal_polar h (by norm_num)
  exact ⟨dist, angle, ρ, θ, h, hρ, hθ, hcos⟩

end

end RLNav
