import RLNav.Model.Carrot
import RLNav.Lib.ArgMin

/-!
# The two searches along the path

`findCarrot` is a search for the nearest waypoint followed by a walk.  On an
index inside the path neither ever reads outside it, at any float format
(`findCarrot_total`).  The search is `ArgMin.search` on the distances of the
waypoints (`nearestIndex_eq`), and the walk goes on by one segment
(`walkForward_go`) or ends (`walkForward_halt`).
-/

namespace RLNav

open Checked (Fault read read_of_lt ok_bind bind_eq_ok foldlM_eq_foldl)
open CFloat (lit)

section
variable {D : Type} [CFloat D]

/-! ## The nearest search -/

/-- The distance of waypoint `i` from `r`.  There is no waypoint past the end. -/
def waypointDist (poses : List (PoseStamped D)) (r : Point D) (i : Nat) : D :=
  match poses[i]? with
  | some p => distance p.pose.position r
  | none => CFloat.maxValue

theorem waypointDist_of_lt {poses : List (PoseStamped D)} {r : Point D} {i : Nat}
    (h : i < poses.length) : waypointDist poses r i = distance poses[i].pose.position r := by
  rw [waypointDist, List.getElem?_eq_getElem h]

/-- The search of the source from index `c` on. -/
def nearestFrom (poses : List (PoseStamped D)) (r : Point D) (c : Nat) : Nat :=
  (ArgMin.search CFloat.lt (waypointDist poses r) (CFloat.maxValue, c)
    (List.range' c (poses.length - c))).2

/-- The loop never reads outside the path. -/
theorem nearestIndex_eq (poses : List (PoseStamped D)) (r : Point D) (c : Nat) :
    nearestIndex poses r c = .ok (nearestFrom poses r c) := by
  have hloop : (List.range' c (poses.length - c)).foldlM (nearestStep poses r)
      (CFloat.maxValue, c) = .ok (ArgMin.search CFloat.lt (waypointDist poses r)
        (CFloat.maxValue, c) (List.range' c (poses.length - c))) := by
    refine foldlM_eq_foldl _ fun i hi acc => ?_
    have hlt : i < poses.length := by
      have := List.mem_range'_1.mp hi
      omega
    rw [nearestStep, read_of_lt hlt, ok_bind, waypointDist_of_lt hlt]
    rfl
  rw [nearestIndex, hloop, ok_bind]
  rfl

/-- The index never moves backward and stays inside the path. -/
theorem nearestFrom_bounds {poses : List (PoseStamped D)} {r : Point D} {c : Nat}
    (hc : c < poses.length) : c ≤ nearestFrom poses r c ∧ nearestFrom poses r c < poses.length := by
  rcases ArgMin.search_mem CFloat.lt (waypointDist poses r)
    (List.range' c (poses.length - c)) (CFloat.maxValue, c) with h | ⟨i, hi, h⟩
  · rw [nearestFrom, h]
    exact ⟨le_rfl, hc⟩
  · have hmem := List.mem_range'_1.mp hi
    rw [nearestFrom, h]
    exact ⟨hmem.1, by omega⟩

/-! ## The walk -/

/-- The end of the walk. -/
theorem walkForward_halt {poses : List (PoseStamped D)} {L acc : D} {j : Nat}
    (h : ¬(j + 1 < poses.length ∧ CFloat.lt acc L = true)) : walkForward poses L j acc = .ok j := by
  rw [walkForward, dif_neg h]

/-- One step of the walk. -/
theorem walkForward_go {poses : List (PoseStamped D)} {L acc : D} {j : Nat}
    (hj : j + 1 < poses.length) (h : CFloat.lt acc L = true) :
    walkForward poses L j acc = walkForward poses L (j + 1)
      (acc + distance poses[j + 1].pose.position poses[j].pose.position) := by
  rw [walkForward, dif_pos ⟨hj, h⟩, read_of_lt hj, ok_bind, read_of_lt (Nat.lt_of_succ_lt hj),
    ok_bind]

theorem walkForward_total {poses : List (PoseStamped D)} {L : D} (j : Nat) (acc : D)
    (hj : j < poses.length) :
    ∃ k, walkForward poses L j acc = .ok k ∧ j ≤ k ∧ k < poses.length := by
  induction hn : poses.length - j generalizing j acc with
  | zero => omega
  | succ n ih =>
      by_cases hgo : j + 1 < poses.length ∧ CFloat.lt acc L = true
      · obtain ⟨k, hk, hjk, hkn⟩ := ih (j + 1) _ hgo.1 (by omega)
        exact ⟨k, (walkForward_go hgo.1 hgo.2).trans hk, by omega, hkn⟩
      · exact ⟨j, walkForward_halt hgo, le_rfl, hj⟩

/-! ## `findCarrot` -/

/-- What a successful `findCarrot` did. -/
theorem findCarrot_eq_ok {path : Path D} {c : Nat} {L : D} {pose : PoseStamped D}
    {carrot : Carrot D} :
    findCarrot path c L pose = .ok carrot ↔
      carrot.carrotIdx = nearestFrom path.poses pose.pose.position c ∧
        walkForward path.poses L carrot.carrotIdx (lit 0) = .ok carrot.j ∧
        ∃ p, path.poses[carrot.j]? = some p ∧ p.pose.position = ⟨carrot.cx, carrot.cy⟩ := by
  rw [findCarrot, if_neg (by decide), nearestIndex_eq, ok_bind]
  constructor
  · intro h
    obtain ⟨j, hj, h⟩ := bind_eq_ok.mp h
    obtain ⟨p, hp, h⟩ := bind_eq_ok.mp h
    obtain rfl := Checked.pure_eq_ok.mp h
    exact ⟨rfl, hj, p, Checked.read_eq_ok_iff.mp hp, rfl⟩
  · rintro ⟨hidx, hj, p, hp, hpos⟩
    rw [← hidx, hj, ok_bind, Checked.read_eq_ok_iff.mpr hp, ok_bind, hpos]
    rfl

theorem findCarrot_total {path : Path D} {c : Nat} (L : D) (pose : PoseStamped D)
    (hc : c < path.poses.length) : ∃ carrot, findCarrot path c L pose = .ok carrot := by
  have hnear := nearestFrom_bounds (r := pose.pose.position) hc
  obtain ⟨j, hj, -, hjn⟩ := walkForward_total (L := L) _ (lit 0) hnear.2
  exact ⟨⟨_, j, _, _⟩, findCarrot_eq_ok.mpr
    ⟨rfl, hj, path.poses[j], List.getElem?_eq_getElem hjn, rfl⟩⟩

/-! ## Only the positions of the waypoints matter -/

omit [CFloat D] in
theorem getElem_position {poses poses' : List (PoseStamped D)}
    (h : poses'.map (·.pose.position) = poses.map (·.pose.position)) {i : Nat}
    (hi : i < poses.length) (hi' : i < poses'.length) :
    poses'[i].pose.position = poses[i].pose.position := by
  have := List.getElem_of_eq h (i := i) (by simpa using hi')
  simpa using this

theorem nearestFrom_congr {poses poses' : List (PoseStamped D)}
    (h : poses'.map (·.pose.position) = poses.map (·.pose.position)) (r : Point D) (c : Nat) :
    nearestFrom poses' r c = nearestFrom poses r c := by
  have hlen : poses'.length = poses.length := by simpa using congrArg List.length h
  have hdist : waypointDist poses' r = waypointDist poses r := by
    funext i
    by_cases hi : i < poses.length
    · rw [waypointDist_of_lt hi, waypointDist_of_lt (hlen ▸ hi),
        getElem_position h hi (hlen ▸ hi)]
    · rw [waypointDist, waypointDist, List.getElem?_eq_none (by omega),
        List.getElem?_eq_none (by omega)]
  rw [nearestFrom, nearestFrom, hdist, hlen]

theorem walkForward_congr {poses poses' : List (PoseStamped D)}
    (h : poses'.map (·.pose.position) = poses.map (·.pose.position)) (L : D) (j : Nat) (acc : D) :
    walkForward poses' L j acc = walkForward poses L j acc := by
  have hlen : poses'.length = poses.length := by simpa using congrArg List.length h
  induction hn : poses.length - j generalizing j acc with
  | zero => rw [walkForward_halt (by omega), walkForward_halt (by omega)]
  | succ n ih =>
      by_cases hgo : j + 1 < poses.length ∧ CFloat.lt acc L = true
      · have hgo' : j + 1 < poses'.length := hlen ▸ hgo.1
        rw [walkForward_go hgo' hgo.2, walkForward_go hgo.1 hgo.2, ih (j + 1) _ (by omega),
          getElem_position h hgo.1 hgo', getElem_position h (Nat.lt_of_succ_lt hgo.1)]
      · rw [walkForward_halt (hlen ▸ hgo), walkForward_halt hgo]

theorem findCarrot_congr {path path' : Path D} {c : Nat} {L : D} {pose : PoseStamped D}
    {carrot : Carrot D}
    (h : path'.poses.map (·.pose.position) = path.poses.map (·.pose.position))
    (hcarrot : findCarrot path c L pose = .ok carrot) :
    findCarrot path' c L pose = .ok carrot := by
  obtain ⟨hidx, hwalk, p, hp, hpos⟩ := findCarrot_eq_ok.mp hcarrot
  obtain ⟨hj, rfl⟩ := List.getElem?_eq_some_iff.mp hp
  have hj' : carrot.j < path'.poses.length := by
    have hlen : path'.poses.length = path.poses.length := by simpa using congrArg List.length h
    omega
  refine findCarrot_eq_ok.mpr ⟨?_, ?_, path'.poses[carrot.j], List.getElem?_eq_getElem hj', ?_⟩
  · rw [nearestFrom_congr h, hidx]
  · rw [walkForward_congr h, hwalk]
  · rw [getElem_position h hj hj', hpos]

/-! ## Bounds -/

/-- The indices of a carrot. -/
theorem findCarrot_bounds {path : Path D} {c : Nat} {L : D} {pose : PoseStamped D}
    {carrot : Carrot D} (hc : c < path.poses.length)
    (h : findCarrot path c L pose = .ok carrot) :
    c ≤ carrot.carrotIdx ∧ carrot.carrotIdx ≤ carrot.j ∧ carrot.j < path.poses.length := by
  obtain ⟨hidx, hj, -⟩ := findCarrot_eq_ok.mp h
  have hnear := nearestFrom_bounds (r := pose.pose.position) hc
  rw [← hidx] at hnear
  obtain ⟨j, hj', hle, hlt⟩ := walkForward_total (L := L) carrot.carrotIdx (lit 0) hnear.2
  obtain rfl : carrot.j = j := by
    rw [hj] at hj'
    injection hj'
  exact ⟨hnear.1, hle, hlt⟩

end

end RLNav
