import RLNav.Exact.Features
import RLNav.Exact.Motion

/-!
# Values that are not numbers

Every reading passes a test for finite values, but the velocity and the network
output only pass `std::clamp`, which returns a NaN unchanged.  So a NaN in the
network output reaches the command, and through `last_action_` the observation of
the next cycle, whose answer may be a NaN again.

A call at finite data is contained (observation and command finite and in their
ranges) exactly when neither this answer of the network nor its previous one has
a NaN (`contained_iff`).  Infinite outputs are clamped, and nothing else of an
earlier cycle is remembered.
-/

namespace RLNav

open Ieee (fin nan posInf negInf)
open CFloat (lit)

/-! ## What containment means -/

/-- A number in `[-1, 1]`. -/
def InUnit (a : Ieee ℝ) : Prop := ∃ x : ℝ, a = fin x ∧ -1 ≤ x ∧ x ≤ 1

/-- The observation and the command are finite and in their ranges. -/
structure Contained (c : Cycle (Ieee ℝ) (Ieee ℝ)) : Prop where
  length : c.obs.cells.length = 554
  obs : ∀ a ∈ c.obs.cells, InUnit a
  linear : ∃ v : ℝ, c.cmd.twist.linearX = fin v ∧ 0 ≤ v ∧ v ≤ 0.22
  angular : ∃ ω : ℝ, c.cmd.twist.angularZ = fin ω ∧ |ω| ≤ 2

/-- Neither output of the network is a NaN. -/
def NoNaN (a : Ieee ℝ × Ieee ℝ) : Prop := a.1 ≠ nan ∧ a.2 ≠ nan

/-- Position and orientation are numbers. -/
def PoseStamped.IsFinite (p : PoseStamped (Ieee ℝ)) : Prop :=
  p.pose.position.IsFinite ∧ ∃ x y z w : ℝ, p.pose.orientation = ⟨fin x, fin y, fin z, fin w⟩

/-- Both components are numbers. -/
def Twist.IsFinite (v : Twist (Ieee ℝ)) : Prop :=
  ∃ lin ang : ℝ, v = { linearX := fin lin, angularZ := fin ang }

/-! ## The observation -/

theorem inUnit_fin {x : ℝ} (hlo : -1 ≤ x) (hhi : x ≤ 1) : InUnit (fin x) := ⟨x, rfl, hlo, hhi⟩

theorem InUnit.ne_nan {a : Ieee ℝ} (h : InUnit a) : a ≠ nan := by
  obtain ⟨x, rfl, -⟩ := h
  simp

/-- The lidar entries are contained whatever was read. -/
theorem features_inUnit (m : ExactMemory) : ∀ a ∈ m.toMemory.features, InUnit a := by
  intro a ha
  cases List.mem_append.mp ha with
  | inl hframe =>
      obtain ⟨row, hrow, ha⟩ := List.mem_flatten.mp hframe
      obtain ⟨f, rfl⟩ := (List.mem_ofFn ..).mp hrow
      obtain ⟨k, rfl⟩ := (List.mem_ofFn ..).mp ha
      have hk := (m.frames f k).2
      exact inUnit_fin (by linarith [hk.1]) hk.2
  | inr hsector =>
      obtain ⟨s, rfl⟩ := (List.mem_ofFn ..).mp hsector
      have hclamp := clamp_temporal (m.temporal s)
      exact hclamp ▸ inUnit_fin (le_max_left ..) (max_le (by norm_num) (min_le_right ..))

/-- The clamp to the action range lets nothing but a NaN through. -/
theorem clamp_inUnit_iff (a : Ieee ℝ) :
    InUnit (CFloat.clamp a (lit (-1.0)) (lit 1.0)) ↔ a ≠ nan := by
  rw [Ieee.lit_neg_one, Ieee.lit_one]
  cases Ieee.clamp_cases a (show (-1 : ℝ) ≤ 1 by norm_num) with
  | inl hnan =>
      obtain ⟨ha, hc⟩ := hnan
      rw [hc]
      exact ⟨fun h => absurd rfl h.ne_nan, fun h => absurd ha h⟩
  | inr hunit =>
      obtain ⟨ha, x, hx, h⟩ := hunit
      exact ⟨fun _ => ha, fun _ => ⟨x, hx, h⟩⟩

theorem clampAction_inUnit_iff (a : Ieee ℝ × Ieee ℝ) :
    InUnit (clampAction a).1 ∧ InUnit (clampAction a).2 ↔ NoNaN a :=
  and_congr (clamp_inUnit_iff a.1) (clamp_inUnit_iff a.2)

theorem lastAnswer_inUnit_iff (host : Host (Ieee ℝ)) (cs : List (Cycle (Ieee ℝ) (Ieee ℝ))) :
    InUnit (lastAnswer host cs).1 ∧ InUnit (lastAnswer host cs).2 ↔
      ∀ c, cs.getLast? = some c → NoNaN (answer host c) := by
  rw [lastAnswer]
  cases hlast : cs.getLast? with
  | none =>
      have hzero : InUnit (lit 0) := inUnit_fin (by norm_num) (by norm_num)
      constructor
      · intro _ c hc
        cases hc
      · intro _
        exact ⟨hzero, hzero⟩
  | some c =>
      rw [clampAction_inUnit_iff]
      constructor
      · intro h c' hc
        cases hc
        exact h
      · intro h
        exact h c rfl

theorem normVelocity_inUnit {v bound : ℝ} (hbound : bound ≠ 0) :
    InUnit (normVelocity (fin v : Ieee ℝ) (fin bound)) := by
  rw [normVelocity, Ieee.div_fin _ hbound, Ieee.toFloat_eq, clamp_inUnit_iff]
  simp

theorem goalDist_inUnit {pose : PoseStamped (Ieee ℝ)} {z w : ℂ} (hz : pose.pose.position = pt z) :
    InUnit (goalDist pose (pt w).x (pt w).y) := by
  rw [goalDist_pt hz]
  exact inUnit_fin ((by norm_num : (-1 : ℝ) ≤ 0).trans (le_max_left ..))
    (max_le zero_le_one (min_le_right ..))

theorem goalAngle_inUnit {pose : PoseStamped (Ieee ℝ)} {w : ℂ} (hpose : pose.IsFinite) :
    InUnit (goalAngle pose (pt w).x (pt w).y) := by
  obtain ⟨⟨z, hz⟩, x, y, q, r, hq⟩ := hpose
  have hyaw : ∃ a : ℝ, yawFromQuat pose.pose.orientation = fin a := by
    rw [hq]
    exact ⟨_, by simp only [yawFromQuat, Ieee.lit_eq, Ieee.mul_fin, Ieee.add_fin, Ieee.sub_fin,
      Ieee.atan2_fin]; rfl⟩
  obtain ⟨a, ha⟩ := hyaw
  rw [goalAngle, hz, ha]
  simp only [pt, Ieee.sub_fin, Ieee.atan2_fin, wrapAngle_fin, Ieee.pi_eq, Ieee.toFloat_eq]
  rw [Ieee.div_fin _ Real.pi_ne_zero]
  have hpi := Real.pi_pos
  generalize hb : Complex.arg _ = b
  have hmem : b ∈ Set.Ioc (-Real.pi) Real.pi := hb ▸ Complex.arg_mem_Ioc _
  refine inUnit_fin ?_ ?_
  · rw [le_div_iff₀ hpi]
    linarith [hmem.1]
  · rw [div_le_one hpi]
    exact hmem.2

/-! ## The command -/

theorem nan_mul (a : Ieee ℝ) : nan * a = nan := by
  cases a <;> rfl

theorem nan_add (a : Ieee ℝ) : nan + a = nan := by
  cases a <;> rfl

/-- The command of a finite action. -/
theorem actionToTwist_fin (x y : ℝ) :
    (actionToTwist (fin x, fin y) : Twist (Ieee ℝ)) =
      { linearX := fin ((x + 1) * 0.5 * 0.22 * max (1 - 0.6 * |y|) 0.3)
        angularZ := fin (y * 2) } := by
  simp only [actionToTwist, maxLin, maxAng, turnSlowdown, minSpeedFrac, Ieee.toDouble_eq,
    Ieee.lit_eq, Ieee.abs_fin, Ieee.add_fin, Ieee.mul_fin, Ieee.sub_fin, Ieee.max_fin]
  norm_num

/-- The command is in its range exactly when the action is no NaN. -/
theorem actionToTwist_iff {a : Ieee ℝ × Ieee ℝ} (h : (a.1 = nan ∨ InUnit a.1) ∧
    (a.2 = nan ∨ InUnit a.2)) :
    ((∃ v : ℝ, (actionToTwist a : Twist (Ieee ℝ)).linearX = fin v ∧ 0 ≤ v ∧ v ≤ 0.22) ∧
      ∃ ω : ℝ, (actionToTwist a : Twist (Ieee ℝ)).angularZ = fin ω ∧ |ω| ≤ 2) ↔
    InUnit a.1 ∧ InUnit a.2 := by
  obtain ⟨a₁, a₂⟩ := a
  constructor
  · rintro ⟨⟨v, hv, -⟩, ω, hω, -⟩
    refine ⟨h.1.resolve_left ?_, h.2.resolve_left ?_⟩
    · rintro rfl
      simp only [actionToTwist, Ieee.toDouble_eq, nan_add, nan_mul] at hv
      cases hv
    · rintro rfl
      simp only [actionToTwist, Ieee.toDouble_eq, nan_mul] at hω
      cases hω
  · rintro ⟨⟨x, rfl, hx⟩, y, rfl, hy⟩
    have habs : |y| ≤ 1 := abs_le.mpr hy
    rw [actionToTwist_fin]
    constructor
    · refine ⟨(x + 1) * 0.5 * 0.22 * max (1 - 0.6 * |y|) 0.3, rfl, ?_, ?_⟩
      · have hmax : (0 : ℝ) ≤ max (1 - 0.6 * |y|) 0.3 := le_max_of_le_right (by norm_num)
        exact mul_nonneg (by linarith [hx.1]) hmax
      · have hmax : max (1 - 0.6 * |y|) 0.3 ≤ (1 : ℝ) :=
          max_le (by linarith [abs_nonneg y]) (by norm_num)
        calc (x + 1) * 0.5 * 0.22 * max (1 - 0.6 * |y|) 0.3
            ≤ (x + 1) * 0.5 * 0.22 * 1 :=
              mul_le_mul_of_nonneg_left hmax (by linarith [hx.1])
          _ ≤ 0.22 := by linarith [hx.2]
    · refine ⟨y * 2, rfl, ?_⟩
      rw [abs_mul, abs_two]
      linarith

/-! ## Containment -/

/-- The action is a NaN where the output is one, and in its range elsewhere. -/
theorem clampAction_cases (a : Ieee ℝ × Ieee ℝ) :
    ((clampAction a).1 = nan ∨ InUnit (clampAction a).1) ∧
      ((clampAction a).2 = nan ∨ InUnit (clampAction a).2) := by
  have hclamp : ∀ v : Ieee ℝ, CFloat.clamp v (lit (-1.0)) (lit 1.0) = nan ∨
      InUnit (CFloat.clamp v (lit (-1.0)) (lit 1.0)) := by
    intro v
    by_cases hv : v = nan
    · subst hv
      exact Or.inl (by simp [CFloat.clamp])
    · exact Or.inr ((clamp_inUnit_iff v).mpr hv)
  exact ⟨hclamp a.1, hclamp a.2⟩

section
variable {host : Host (Ieee ℝ)}

/-- The observation of a call at finite data is contained exactly when the
action it remembers is. -/
theorem observe_inUnit_iff (m : ExactMemory) (lastAction : Ieee ℝ × Ieee ℝ)
    {carrot : Carrot (Ieee ℝ)} {w : ℂ} {pose : PoseStamped (Ieee ℝ)} {velocity : Twist (Ieee ℝ)}
    (hw : (⟨carrot.cx, carrot.cy⟩ : Point (Ieee ℝ)) = pt w) (hpose : pose.IsFinite)
    (hvel : velocity.IsFinite) :
    (∀ a ∈ observe m.toMemory carrot pose velocity lastAction, InUnit a) ↔
      InUnit lastAction.1 ∧ InUnit lastAction.2 := by
  obtain ⟨hx, hy⟩ := carrot_coords hw
  obtain ⟨z, hz⟩ := hpose.1
  obtain ⟨lin, ang, rfl⟩ := hvel
  have hlin : InUnit (normVelocity (fin lin : Ieee ℝ) (maxLin : Ieee ℝ)) :=
    normVelocity_inUnit (by norm_num)
  have hang : InUnit (normVelocity (fin ang : Ieee ℝ) (maxAng : Ieee ℝ)) :=
    normVelocity_inUnit (by norm_num)
  rw [observe, hx, hy]
  simp only [List.mem_append, List.mem_cons, List.not_mem_nil, or_false]
  constructor
  · intro h
    exact ⟨h _ (by simp), h _ (by simp)⟩
  · rintro ⟨h₁, h₂⟩ a (hfeature | rfl | rfl | rfl | rfl | rfl | rfl)
    · exact features_inUnit m a hfeature
    · exact goalDist_inUnit hz
    · exact goalAngle_inUnit hpose
    · exact hlin
    · exact hang
    · exact h₁
    · exact h₂

/-- In every run, a call at finite plan, pose and velocity is contained exactly
when the network answers it, and answered the cycle before it, without a NaN. -/
theorem contained_iff {T : Type} {tf : TfBuffer T} {override : Option (Ieee ℝ)}
    {evs : List (Event (Ieee ℝ) (Ieee ℝ))} {st st' : RLController (Ieee ℝ) (Ieee ℝ)}
    {os : List (Output (Ieee ℝ) (Ieee ℝ))} {pose : PoseStamped (Ieee ℝ)}
    {velocity : Twist (Ieee ℝ)} {c : Cycle (Ieee ℝ) (Ieee ℝ)}
    (hrun : run host (configure tf override) evs = .ok (st, os))
    (hplan : st.currentPath.IsFinite) (hpose : pose.IsFinite) (hvel : velocity.IsFinite)
    (h : computeVelocityCommands host st pose velocity = .ok (st', .drive c)) :
    Contained c ↔
      (∀ c', (cycles os).getLast? = some c' → NoNaN (answer host c')) ∧ NoNaN (answer host c) := by
  obtain ⟨xs, -, hlidar, -⟩ := run_configured hrun
  obtain ⟨x, carrot, hx, hcarrot, -, hout⟩ := (compute_eq_ok hlidar (plan_ne_nil h)).mp h
  obtain ⟨y, rfl⟩ := sampleScan_exact hx
  rw [ExactMemory.next_toMemory] at hout
  cases hout
  obtain ⟨w, hw⟩ := findCarrot_pt hplan hcarrot
  have hlast := lastAnswer_inUnit_iff host (cycles os)
  rw [← run_lastAction hrun] at hlast
  have hobs := (observe_inUnit_iff (ExactMemory.next (ExactMemory.remember none xs) y)
    st.lastAction hw hpose hvel).trans hlast
  have hcmd := actionToTwist_iff (clampAction_cases (host.session (observe
    (ExactMemory.next (ExactMemory.remember none xs) y).toMemory carrot pose velocity
    st.lastAction)))
  rw [clampAction_inUnit_iff] at hcmd
  constructor
  · intro hc
    exact ⟨hobs.mp hc.obs, hcmd.mp ⟨hc.linear, hc.angular⟩⟩
  · rintro ⟨hbefore, hnow⟩
    have htwist := hcmd.mpr hnow
    exact ⟨observe_length .., hobs.mpr hbefore, htwist.1, htwist.2⟩

end

theorem poseAt_isFinite (x y : ℚ) : (poseAt (lit x) (lit y) : PoseStamped (Ieee ℝ)).IsFinite :=
  ⟨⟨⟨x, y⟩, rfl⟩, 0, 0, 0, 1, by simp [poseAt]⟩

theorem still_isFinite : (still : Twist (Ieee ℝ)).IsFinite := ⟨0, 0, by simp [still]⟩

theorem stillHost_contained :
    ∃ (st st' : RLController (Ieee ℝ) (Ieee ℝ)) (c : Cycle (Ieee ℝ) (Ieee ℝ)),
      run stillHost (configure noTf none) [.setPlan smallPath] = .ok (st, [.silent]) ∧
      computeVelocityCommands stillHost st (poseAt (lit 1) (lit 0)) still =
        .ok (st', .drive c) ∧ Contained c := by
  let st : RLController (Ieee ℝ) (Ieee ℝ) := setPlan (configure noTf none) smallPath
  have hst : WellFormed st := (configure_wellFormed noTf none).setPlan smallPath
  obtain ⟨st', out, h⟩ := step_total stillHost (.compute (poseAt (lit 1) (lit 0)) still) hst
    (fun s hs => by cases hs)
  obtain ⟨x, carrot, -, -, -, rfl⟩ := (compute_eq_ok (m := none) rfl (by simp [st, setPlan,
    smallPath])).mp h
  have hrun : run stillHost (configure noTf none) [.setPlan smallPath] = .ok (st, [.silent]) := rfl
  refine ⟨st, st', _, hrun, h, (contained_iff hrun smallPath_isFinite (poseAt_isFinite 1 0)
    still_isFinite h).mpr ⟨fun c' hc' => ?_, ?_⟩⟩
  · cases hc'
  · exact ⟨by simp [answer, stillHost], by simp [answer, stillHost]⟩

/-! ## A bad odometry sample -/

/-- A network that answers zeros, and NaN if it sees one. -/
noncomputable def nanHost : Host (Ieee ℝ) where
  session obs := if obs.any Ieee.isNaN then (nan, nan) else (lit 0, lit 0)
  unspecInt _ := 0

/-- One bad odometry sample in the first cycle, so that the first observation has a NaN
and the first action is one.  At the second cycle plan, pose and velocity are finite, and
the observation has a NaN. -/
theorem bad_odometry_persists :
    ∃ (st st' : RLController (Ieee ℝ) (Ieee ℝ)) (os : List (Output (Ieee ℝ) (Ieee ℝ)))
      (c : Cycle (Ieee ℝ) (Ieee ℝ)),
      run nanHost (configure noTf none)
        [.setPlan smallPath, .compute (poseAt (lit 1) (lit 0)) ⟨nan, lit 0⟩] = .ok (st, os) ∧
      st.currentPath.IsFinite ∧ (poseAt (lit 1) (lit 0) : PoseStamped (Ieee ℝ)).IsFinite ∧
      (still : Twist (Ieee ℝ)).IsFinite ∧
      computeVelocityCommands nanHost st (poseAt (lit 1) (lit 0)) still = .ok (st', .drive c) ∧
      c.obs.cells[552]? = some nan ∧ ¬ Contained c := by
  let s₀ : RLController (Ieee ℝ) (Ieee ℝ) := setPlan (configure noTf none) smallPath
  have hs₀ : WellFormed s₀ := (configure_wellFormed noTf none).setPlan smallPath
  obtain ⟨st, out, h₁⟩ := step_total nanHost
    (.compute (poseAt (lit 1) (lit 0)) ⟨nan, lit 0⟩) hs₀ (fun s hs => by cases hs)
  have hst := step_wellFormed hs₀ h₁
  obtain ⟨x, carrot, -, -, hdrive, -⟩ := (compute_eq_ok (m := none) rfl (by simp [s₀, setPlan,
    smallPath])).mp h₁
  have hvel : normVelocity (nan : Ieee ℝ) (maxLin : Ieee ℝ) = (nan : Ieee ℝ) := rfl
  have hlast : st.lastAction.1 = nan := by
    have hany : (observe (Memory.next none x) carrot (poseAt (lit 1) (lit 0)) ⟨nan, lit 0⟩
        s₀.lastAction).any Ieee.isNaN = true := by
      rw [observe, hvel, List.any_append]
      simp [Ieee.isNaN]
    rw [hdrive]
    show CFloat.clamp (nanHost.session _).1 _ _ = nan
    rw [nanHost]
    simp only [hany, if_true]
    simp [CFloat.clamp]
  have hpath : st.currentPath = smallPath := by
    rw [hdrive]
    rfl
  have hlidar : st.lidar = Memory.buffers (some (Memory.next none x)) := by
    rw [hdrive]
    rfl
  have hheld : HeldFits st := by
    rw [hdrive]
    exact fun s hs => by cases hs
  obtain ⟨st', out', h₂⟩ := step_total nanHost (.compute (poseAt (lit 1) (lit 0)) still) hst hheld
  obtain ⟨x', carrot', -, -, -, rfl⟩ := (compute_eq_ok hlidar (by simp [hpath, smallPath])).mp h₂
  have hcell : (drive nanHost st (Memory.next (some (Memory.next none x)) x') carrot'
      (poseAt (lit 1) (lit 0)) still).2.obs.cells[552]? = some nan :=
    (compute_tail hlidar h₂ 4).trans (congrArg some hlast)
  refine ⟨st, st', _, _, Machine.run_cons_eq_ok.mpr ⟨s₀, .silent, [out], rfl,
    Machine.run_singleton_eq_ok.mpr ⟨out, h₁, rfl⟩, rfl⟩, hpath ▸ smallPath_isFinite,
    poseAt_isFinite 1 0, still_isFinite, h₂, hcell, ?_⟩
  intro hc
  exact (hc.obs nan (List.mem_of_getElem? hcell)).ne_nan rfl

end RLNav
