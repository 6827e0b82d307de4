import RLNav.Exact.Plane
import Mathlib.Topology.MetricSpace.Pseudo.Lemmas

/-!
# The lookahead walk

From the nearest index the walk goes to the first waypoint whose arc length is at
least the lookahead, or to the end of the path.  It overshoots the lookahead by
less than its last segment, so the carrot is never farther from the robot than
the nearest waypoint, the lookahead and one segment together
(`findCarrot_lookahead`).
-/

namespace RLNav

open Ieee (fin)
open CFloat (lit)
open Polyline (arc longest FirstCrossing)

/-- The position of waypoint `k` in the plane. -/
noncomputable def vertex (path : Path (Ieee ℝ)) (k : Nat) : ℂ :=
  match path.poses[k]? with
  | some p => ⟨p.pose.position.x.toReal, p.pose.position.y.toReal⟩
  | none => 0

/-- The length of the path from waypoint `c` to waypoint `j`. -/
noncomputable def arcLength (path : Path (Ieee ℝ)) (c j : Nat) : ℝ := arc (segment path.poses) c j

/-- What the walk from waypoint `c` to waypoint `j` achieves for the lookahead
`L`. -/
structure IsLookahead (path : Path (Ieee ℝ)) (L : ℝ) (c j : Nat) : Prop where
  /-- The least waypoint at the lookahead or beyond, or the last one. -/
  crossing : IsLeast {k | c ≤ k ∧ k < path.poses.length ∧ L ≤ arcLength path c k} j ∨
    (∀ k, c ≤ k → k < path.poses.length → arcLength path c k < L) ∧ j + 1 = path.poses.length
  /-- A positive lookahead is overshot by less than the last segment. -/
  overshoot : 0 < L → (∃ k, c ≤ k ∧ k < path.poses.length ∧ L ≤ arcLength path c k) →
    L ≤ arcLength path c j ∧ arcLength path c j < L + segment path.poses (j - 1)
  /-- Near the end of the path the carrot is the last waypoint. -/
  ending : arcLength path c (path.poses.length - 1) < L → j + 1 = path.poses.length
  /-- The carrot is not far from the robot. -/
  near : ∀ r : ℂ, ‖vertex path j - r‖ ≤
    ‖r - vertex path c‖ + max L 0 + longest (segment path.poses) c j

/-! ## Vertices -/

theorem vertex_eq {path : Path (Ieee ℝ)} (hfin : path.IsFinite) {k : Nat}
    {p : PoseStamped (Ieee ℝ)} (hp : path.poses[k]? = some p) :
    p.pose.position = pt (vertex path k) := by
  obtain ⟨z, hz⟩ := hfin p (List.mem_of_getElem? hp)
  simp only [vertex, hp, hz]
  rfl

theorem segment_eq_norm {path : Path (Ieee ℝ)} (hfin : path.IsFinite) {k : Nat}
    (hk : k + 1 < path.poses.length) :
    segment path.poses k = ‖vertex path (k + 1) - vertex path k‖ := by
  rw [segment_of_lt hk, vertex_eq hfin (List.getElem?_eq_getElem hk),
    vertex_eq hfin (List.getElem?_eq_getElem (Nat.lt_of_succ_lt hk)), distance_pt]
  rfl

/-- The path is no shortcut. -/
theorem norm_le_arcLength {path : Path (Ieee ℝ)} (hfin : path.IsFinite) {c j : Nat} (hcj : c ≤ j)
    (hj : j < path.poses.length) : ‖vertex path j - vertex path c‖ ≤ arcLength path c j := by
  rw [← dist_eq_norm, dist_comm]
  refine dist_le_Ico_sum_of_dist_le hcj fun {k} _ hkj => ?_
  rw [dist_comm, dist_eq_norm]
  exact (segment_eq_norm hfin (Nat.lt_of_le_of_lt hkj hj)).ge

/-! ## The walk -/

theorem short_fin (L x : ℝ) : short (fin L) x = decide (x < L) := rfl

theorem short_eq_false {L x : ℝ} : short (fin L) x = false ↔ L ≤ x := by
  rw [short_fin, decide_eq_false_iff_not, not_lt]

theorem short_eq_true {L x : ℝ} : short (fin L) x = true ↔ x < L := by
  rw [short_fin, decide_eq_true_eq]

section
variable {path : Path (Ieee ℝ)} {L : ℝ} {c j : Nat}

/-- The walk stops at the least waypoint at the lookahead, or at the last one. -/
theorem least_or_last (hc : c < path.poses.length)
    (h : FirstCrossing (segment path.poses) (path.poses.length - 1) (short (fin L)) c j) :
    IsLeast {k | c ≤ k ∧ k < path.poses.length ∧ L ≤ arcLength path c k} j ∨
      (∀ k, c ≤ k → k < path.poses.length → arcLength path c k < L) ∧
        j + 1 = path.poses.length := by
  have hupper := h.upper
  cases hj : short (fin L) (arcLength path c j) with
  | false =>
      left
      have hleast := h.isLeast hj
      refine ⟨⟨h.lower, by omega, short_eq_false.mp hj⟩, ?_⟩
      intro k hk
      exact hleast.2 ⟨hk.1, Nat.le_sub_one_of_lt hk.2.1, short_eq_false.mpr hk.2.2⟩
  | true =>
      right
      have hlast := h.eq_last hj
      refine ⟨fun k hck hk => ?_, by omega⟩
      by_cases hkj : k < j
      · exact short_eq_true.mp (h.before k hck hkj)
      · rw [show k = j by omega]
        exact short_eq_true.mp hj

/-- By the triangle inequality, along the path. -/
theorem crossing_near (hfin : path.IsFinite) (hc : c < path.poses.length)
    (h : FirstCrossing (segment path.poses) (path.poses.length - 1) (short (fin L)) c j) (r : ℂ) :
    ‖vertex path j - r‖ ≤
      ‖r - vertex path c‖ + max L 0 + longest (segment path.poses) c j := by
  have harc : arcLength path c j ≤ max L 0 + longest (segment path.poses) c j :=
    h.arc_le (le_max_right ..) fun x hx => (short_eq_true.mp hx).le.trans (le_max_left ..)
  have hj : j < path.poses.length := by
    have := h.upper
    omega
  have hnorm := norm_le_arcLength hfin h.lower hj
  calc ‖vertex path j - r‖
      ≤ ‖vertex path j - vertex path c‖ + ‖vertex path c - r‖ := norm_sub_le_norm_sub_add_norm_sub ..
    _ = ‖vertex path j - vertex path c‖ + ‖r - vertex path c‖ := by
        rw [norm_sub_rev (vertex path c)]
    _ ≤ ‖r - vertex path c‖ + max L 0 + longest (segment path.poses) c j := by linarith

/-- A crossing of the path is a lookahead waypoint. -/
theorem isLookahead_of_crossing (hfin : path.IsFinite) (hc : c < path.poses.length)
    (h : FirstCrossing (segment path.poses) (path.poses.length - 1) (short (fin L)) c j) :
    IsLookahead path L c j := by
  have hcrossing := least_or_last hc h
  refine ⟨hcrossing, ?_, ?_, crossing_near hfin hc h⟩
  · rintro hL ⟨k, hck, hk, hLk⟩
    have hreach : L ≤ arcLength path c j := by
      cases hcrossing with
      | inl hleast => exact hleast.1.2.2
      | inr hnone => exact absurd hLk (not_le.mpr (hnone.1 k hck hk))
    have hcj : c < j := by
      refine h.lower.lt_of_ne fun heq => ?_
      rw [← heq, arcLength, Polyline.arc_self] at hreach
      exact absurd hreach (not_le.mpr hL)
    obtain ⟨hbefore, hsplit⟩ := h.before_last hcj
    refine ⟨hreach, ?_⟩
    rw [arcLength, hsplit]
    linarith [short_eq_true.mp hbefore]
  · intro hend
    cases hcrossing with
    | inl hleast =>
        obtain ⟨hcj, hj, hLj⟩ := hleast.1
        have hmono : arcLength path c j ≤ arcLength path c (path.poses.length - 1) :=
          Polyline.arc_mono (segment_nonneg hfin) h.upper
        exact absurd (hLj.trans hmono) (not_le.mpr hend)
    | inr hnone => exact hnone.2

end

/-- The walk from any waypoint stops at the lookahead waypoint.  `findCarrot` walks from
the waypoint that its nearest search ends at, and returns the position where it stops. -/
theorem findCarrot_lookahead {path : Path (Ieee ℝ)} (hfin : path.IsFinite) (L : ℝ) :
    (∀ c < path.poses.length, ∃ j, walkForward path.poses (fin L) c (lit 0) = .ok j ∧
      IsLookahead path L c j) ∧
    ∀ c < path.poses.length, ∀ pose, ∃ carrot, findCarrot path c (fin L) pose = .ok carrot ∧
      carrot.carrotIdx = nearestFrom path.poses pose.pose.position c ∧
      IsLookahead path L carrot.carrotIdx carrot.j ∧
      (⟨carrot.cx, carrot.cy⟩ : Point (Ieee ℝ)) = pt (vertex path carrot.j) := by
  constructor
  · intro c hc
    rw [Ieee.lit_eq, Rat.cast_zero, walkForward_eq hfin c 0 hc]
    exact ⟨_, rfl, isLookahead_of_crossing hfin hc (Polyline.advance_firstCrossing (by omega))⟩
  · intro c hc pose
    obtain ⟨carrot, hcarrot⟩ := findCarrot_total (fin L) pose hc
    obtain ⟨hidx, -, p, hp, hpos⟩ := findCarrot_eq_ok.mp hcarrot
    have hbounds := findCarrot_bounds hc hcarrot
    refine ⟨carrot, hcarrot, hidx, ?_, ?_⟩
    · exact isLookahead_of_crossing hfin (hbounds.2.1.trans_lt hbounds.2.2)
        (findCarrot_crossing hfin hc hcarrot)
    · rw [← hpos, vertex_eq hfin hp]

/-- The search moves on to the waypoint at the robot, and the walk to the one behind it. -/
theorem straightPath_lookahead :
    (∃ j, walkForward straightPath.poses (fin (0.5 : ℝ)) 0 (lit 0) = .ok j ∧
      IsLookahead straightPath 0.5 0 j) ∧
    ∃ carrot : Carrot (Ieee ℝ),
      findCarrot straightPath 0 (fin (0.5 : ℝ)) (poseAt (lit 1) (lit 0)) = .ok carrot ∧
        IsLookahead straightPath 0.5 1 2 ∧ carrot.carrotIdx = 1 ∧ carrot.j = 2 ∧
        (⟨carrot.cx, carrot.cy⟩ : Point (Ieee ℝ)) = pt (vertex straightPath 2) := by
  obtain ⟨hwalk, hfind⟩ := findCarrot_lookahead straightPath_isFinite 0.5
  obtain ⟨carrot, hcarrot, -, hlook, hpos⟩ := hfind 0 (by decide) (poseAt (lit 1) (lit 0))
  obtain ⟨hidx, hj⟩ := straightPath_carrot (k := 1) (by decide) (Nat.zero_le 1) Nat.cast_one.symm
    (by norm_num) (by norm_num) hcarrot
  have hj : carrot.j = 2 := hj
  rw [hidx, hj] at hlook
  rw [hj] at hpos
  exact ⟨hwalk 0 (by decide), carrot, hcarrot, hlook, hidx, hj, hpos⟩

end RLNav
