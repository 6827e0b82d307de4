import RLNav.Nearest
import RLNav.Lib.Planar
import RLNav.Lib.Polyline

/-!
# Paths in the plane

In exact arithmetic the waypoints of a path are points of the plane and `hypot`
is their distance.  The walk of `findCarrot` is `Polyline.advance` on the lengths
of the segments (`walkForward_eq`), so the carrot is the first waypoint at the
lookahead or beyond, counted along the path from the nearest one
(`findCarrot_crossing`).
-/

namespace RLNav

open Ieee (fin)
open CFloat (lit)

/-! ## Points -/

/-- The position of a point of the plane. -/
def pt (z : ℂ) : Point (Ieee ℝ) := { x := fin z.re, y := fin z.im }

/-- Both coordinates are numbers. -/
def Point.IsFinite (p : Point (Ieee ℝ)) : Prop := ∃ z, p = pt z

/-- All coordinates of the waypoints are numbers. -/
def Path.IsFinite (path : Path (Ieee ℝ)) : Prop := ∀ p ∈ path.poses, p.pose.position.IsFinite

theorem hypot_eq_norm (z : ℂ) : CFloat.hypot (fin z.re) (fin z.im) = fin ‖z‖ := by
  rw [Ieee.hypot_fin, Complex.norm_eq_sqrt_sq_add_sq]

theorem distance_pt (z w : ℂ) : distance (pt z) (pt w) = fin ‖z - w‖ := by
  rw [← hypot_eq_norm]
  simp [distance, pt]

theorem smallPath_isFinite : (smallPath : Path (Ieee ℝ)).IsFinite := by
  intro p hp
  cases List.mem_singleton.mp hp
  exact ⟨0, by simp [poseAt, pt]⟩

/-! ## The walk -/

/-- The length of the segment from waypoint `k` to the next one. -/
noncomputable def segment (poses : List (PoseStamped (Ieee ℝ))) (k : Nat) : ℝ :=
  match poses[k]?, poses[k + 1]? with
  | some p, some q => (distance q.pose.position p.pose.position).toReal
  | _, _ => 0

theorem segment_of_lt {poses : List (PoseStamped (Ieee ℝ))} {k : Nat} (h : k + 1 < poses.length) :
    segment poses k =
      (distance poses[k + 1].pose.position poses[k].pose.position).toReal := by
  rw [segment, List.getElem?_eq_getElem h, List.getElem?_eq_getElem (by omega)]

/-- The distance of two waypoints is a number that is not negative. -/
theorem distance_finite {p q : Point (Ieee ℝ)} (hp : p.IsFinite) (hq : q.IsFinite) :
    ∃ r : ℝ, distance p q = fin r ∧ 0 ≤ r := by
  obtain ⟨z, rfl⟩ := hp
  obtain ⟨w, rfl⟩ := hq
  exact ⟨‖z - w‖, distance_pt z w, norm_nonneg _⟩

theorem segment_nonneg {path : Path (Ieee ℝ)} (hfin : path.IsFinite) (k : Nat) :
    0 ≤ segment path.poses k := by
  by_cases h : k + 1 < path.poses.length
  · obtain ⟨r, hr, hnonneg⟩ := distance_finite (hfin _ (List.getElem_mem h))
      (hfin _ (List.getElem_mem (Nat.lt_of_succ_lt h)))
    rw [segment_of_lt h, hr]
    exact hnonneg
  · rw [segment, List.getElem?_eq_none (i := k + 1) (by omega)]
    split
    · next heq => cases heq
    · exact le_rfl

/-- A length that is below the lookahead. -/
noncomputable def short (L : Ieee ℝ) (x : ℝ) : Bool := Ieee.lt (fin x) L

/-- The walk of the source is the walk along a polyline. -/
theorem walkForward_eq {path : Path (Ieee ℝ)} {L : Ieee ℝ} (hfin : path.IsFinite) (j : Nat)
    (acc : ℝ) (hj : j < path.poses.length) :
    walkForward path.poses L j (fin acc) =
      .ok (Polyline.advance (segment path.poses) (path.poses.length - 1) (short L) j acc) := by
  induction hn : path.poses.length - j generalizing j acc with
  | zero => omega
  | succ n ih =>
      have hlast : (j + 1 < path.poses.length) = (j < path.poses.length - 1) := by
        rw [eq_iff_iff]
        omega
      rw [Polyline.advance]
      by_cases hgo : j + 1 < path.poses.length ∧ short L acc = true
      · have hstep := ih (j + 1) (acc + segment path.poses j) hgo.1 (by omega)
        obtain ⟨r, hr, -⟩ := distance_finite (hfin _ (List.getElem_mem hgo.1))
          (hfin _ (List.getElem_mem hj))
        rw [segment_of_lt hgo.1, hr] at hstep
        rw [walkForward_go hgo.1 hgo.2, if_pos (hlast ▸ hgo), segment_of_lt hgo.1, hr]
        exact hstep
      · rw [walkForward_halt hgo, if_neg (hlast ▸ hgo)]

/-- The carrot is the first waypoint at the lookahead or beyond. -/
theorem findCarrot_crossing {path : Path (Ieee ℝ)} {c : Nat} {L : Ieee ℝ}
    {pose : PoseStamped (Ieee ℝ)} {carrot : Carrot (Ieee ℝ)} (hfin : path.IsFinite)
    (hc : c < path.poses.length) (h : findCarrot path c L pose = .ok carrot) :
    Polyline.FirstCrossing (segment path.poses) (path.poses.length - 1) (short L)
      carrot.carrotIdx carrot.j := by
  have hbounds := findCarrot_bounds hc h
  obtain ⟨-, hwalk, -⟩ := findCarrot_eq_ok.mp h
  have hidx : carrot.carrotIdx < path.poses.length := hbounds.2.1.trans_lt hbounds.2.2
  rw [Ieee.lit_eq, Rat.cast_zero, walkForward_eq hfin _ _ hidx, Except.ok.injEq] at hwalk
  rw [← hwalk]
  exact Polyline.advance_firstCrossing (by omega)

/-! ## Along the straight plan -/

theorem straightPath_isFinite : (straightPath : Path (Ieee ℝ)).IsFinite := by
  intro p hp
  simp only [straightPath, List.mem_cons, List.not_mem_nil, or_false] at hp
  obtain rfl | rfl | rfl := hp
  · exact ⟨⟨(0 : ℚ), (0 : ℚ)⟩, rfl⟩
  · exact ⟨⟨(1 : ℚ), (0 : ℚ)⟩, rfl⟩
  · exact ⟨⟨(2 : ℚ), (0 : ℚ)⟩, rfl⟩

theorem straightPath_segment {k : Nat} (hk : k < 2) :
    segment (straightPath : Path (Ieee ℝ)).poses k = 1 := by
  obtain rfl | rfl : k = 0 ∨ k = 1 := by omega
  all_goals norm_num [segment, straightPath, distance, poseAt, Ieee.toReal]

/-- At a waypoint the carrot is the next one, or the last, for a lookahead of up to a metre. -/
theorem straightPath_carrot {c k : Nat} (hk : k < 3) (hc : c ≤ k) {x : ℚ} (hx : x = k) {L : ℝ}
    (hpos : 0 < L) (hL : L ≤ 1) {carrot : Carrot (Ieee ℝ)}
    (h : findCarrot straightPath c (fin L) (poseAt (lit x) (lit 0)) = .ok carrot) :
    carrot.carrotIdx = k ∧ carrot.j = min (k + 1) 2 := by
  obtain ⟨hidx, hwalk, -⟩ := findCarrot_eq_ok.mp h
  have hlen : (straightPath : Path (Ieee ℝ)).poses.length = 3 := rfl
  have hlt : c < (straightPath : Path (Ieee ℝ)).poses.length := hc.trans_lt hk
  have hnear := nearestFrom_isNearest hlt (straightPath_inRange hk hx)
  rw [hnear.unique (straightPath_nearest hk hc hx)] at hidx
  rw [hidx, Ieee.lit_eq, Rat.cast_zero, walkForward_eq straightPath_isFinite k 0 hk,
    Polyline.advance, Except.ok.injEq] at hwalk
  refine ⟨hidx, ?_⟩
  by_cases hlast : k < 2
  · rw [if_pos ⟨by omega, by simpa [short] using hpos⟩, straightPath_segment hlast,
      Polyline.advance, if_neg (by simpa [short] using fun _ => hL)] at hwalk
    omega
  · rw [if_neg (by omega)] at hwalk
    omega

end RLNav
