import RLNav.Safety

/-!
# The remembered nearest waypoint

Between two calls of `setPlan` the remembered index only moves forward.  A call
moves it to the first nearest waypoint of the rest of the path, in any format
with the IEEE comparison, so it agrees with a search of the whole path exactly
when the result of that search is not behind it (`nearest_ratchet`).
-/

namespace RLNav

open Checked (Fault)
open CFloat (lit)

section
variable {D : Type} [CFloat D]

/-! ## One search -/

/-- Every waypoint has a distance from the robot, below the largest number. -/
def InRange (path : Path D) (pose : PoseStamped D) : Prop :=
  ∀ i < path.poses.length,
    CFloat.lt (waypointDist path.poses pose.pose.position i) CFloat.maxValue = true

/-- Waypoint `i` is the first nearest one from waypoint `c` on. -/
def IsNearest (path : Path D) (pose : PoseStamped D) (c i : Nat) : Prop :=
  ArgMin.IsFirstMin CFloat.lt (waypointDist path.poses pose.pose.position) c path.poses.length i

/-- A pose with a coordinate that is not a number. -/
def NotANumber (pose : PoseStamped D) : Prop :=
  CFloat.isnan pose.pose.position.x = true ∨ CFloat.isnan pose.pose.position.y = true

variable [CFloat.IeeeLaws D]

/-- The comparison is a strict weak order on the numbers. -/
theorem strictWeak_lt : ArgMin.StrictWeak (CFloat.lt : D → D → Bool) (CFloat.isnan · = false) where
  irrefl := CFloat.IeeeLaws.lt_irrefl
  trans := CFloat.IeeeLaws.lt_trans
  cotrans b hb h := CFloat.IeeeLaws.lt_cotrans b h hb

/-- The search of the source finds the first nearest waypoint. -/
theorem nearestFrom_isNearest {path : Path D} {pose : PoseStamped D} {c : Nat}
    (hc : c < path.poses.length) (hrange : InRange path pose) :
    IsNearest path pose c (nearestFrom path.poses pose.pose.position c) := by
  obtain ⟨n, hn⟩ : ∃ n, path.poses.length = c + n + 1 := ⟨path.poses.length - c - 1, by omega⟩
  have hnum : ∀ k, c ≤ k → k < c + n + 1 →
      CFloat.isnan (waypointDist path.poses pose.pose.position k) = false ∧
        CFloat.lt (waypointDist path.poses pose.pose.position k) CFloat.maxValue = true := by
    intro k _ hk
    have hlt := hrange k (by omega)
    exact ⟨CFloat.IeeeLaws.not_nan_of_lt hlt, hlt⟩
  obtain ⟨i, hi, hmin⟩ := ArgMin.search_range' strictWeak_lt n hnum
  have hfrom : nearestFrom path.poses pose.pose.position c = i := by
    rw [nearestFrom, show path.poses.length - c = n + 1 by omega, hi]
  rw [IsNearest, hfrom, hn]
  exact hmin

/-- Nothing is nearer than a pose that is not a number. -/
theorem nearestFrom_notANumber {path : Path D} {pose : PoseStamped D} (c : Nat)
    (hnan : NotANumber pose) : nearestFrom path.poses pose.pose.position c = c := by
  rw [nearestFrom, ArgMin.search_eq_self]
  intro i hi
  have hlt : i < path.poses.length := by
    have := List.mem_range'_1.mp hi
    omega
  rw [waypointDist_of_lt hlt, distance]
  cases hnan with
  | inl hx => exact CFloat.IeeeLaws.hypot_nan_left (CFloat.IeeeLaws.sub_nan hx)
  | inr hy => exact CFloat.IeeeLaws.hypot_nan_right (CFloat.IeeeLaws.sub_nan hy)

/-- A search from where a search from `c` ended stays there. -/
theorem nearestFrom_idem {path : Path D} {pose : PoseStamped D} {c : Nat}
    (hc : c < path.poses.length) (hrange : InRange path pose) :
    nearestFrom path.poses pose.pose.position (nearestFrom path.poses pose.pose.position c) =
      nearestFrom path.poses pose.pose.position c := by
  have hfirst := nearestFrom_isNearest hc hrange
  have hsecond := nearestFrom_isNearest hfirst.upper hrange
  exact hsecond.unique (hfirst.tail hfirst.lower le_rfl)

end

section
variable {F D : Type} [CFloat F] [CFloat D] [FloatCast F D]

/-! ## Runs without a new plan -/

/-- An event other than a new plan. -/
def Event.KeepsPlan : Event F D → Prop
  | .setPlan _ => False
  | _ => True

omit [CFloat F] [FloatCast F D] in
theorem straightCalls_keepsPlan : ∀ e ∈ (straightCalls : List (Event F D)), e.KeepsPlan := by
  simp [straightCalls, smallCalls, Event.KeepsPlan]

/-- The step of the remembered index. -/
theorem step_carrotIdx {host : Host F} {st st' : RLController F D} {e : Event F D}
    {out : Output F D} (hst : WellFormed st) (he : e.KeepsPlan)
    (h : step host st e = .ok (st', out)) :
    st'.currentPath = st.currentPath ∧
      (st'.carrotIdx = st.carrotIdx ∨ ∃ pose velocity, e = .compute pose velocity ∧
        st.currentPath.poses ≠ [] ∧
        st'.carrotIdx = nearestFrom st.currentPath.poses pose.pose.position st.carrotIdx) := by
  obtain ⟨m, hm⟩ := hst.memory
  cases (step_eq_ok hm).mp h with
  | scan msg => exact ⟨rfl, Or.inl rfl⟩
  | setPlan path => exact he.elim
  | setParam value => exact ⟨rfl, Or.inl rfl⟩
  | lifecycle call => exact ⟨rfl, Or.inl rfl⟩
  | stop pose velocity hplan => exact ⟨rfl, Or.inl rfl⟩
  | drive pose velocity x carrot hplan hx hcarrot =>
      exact ⟨rfl, Or.inr ⟨pose, velocity, rfl, hplan, (findCarrot_eq_ok.mp hcarrot).1⟩⟩

/-- A call on a non-empty plan searches from the remembered index. -/
theorem compute_carrotIdx {host : Host F} {st st' : RLController F D} {pose : PoseStamped D}
    {velocity : Twist D} {out : Output F D} (hst : WellFormed st)
    (hplan : st.currentPath.poses ≠ [])
    (h : step host st (.compute pose velocity) = .ok (st', out)) :
    st'.carrotIdx = nearestFrom st.currentPath.poses pose.pose.position st.carrotIdx := by
  obtain ⟨m, hm⟩ := hst.memory
  obtain ⟨x, carrot, -, hcarrot, rfl, -⟩ := (compute_eq_ok hm hplan).mp h
  exact (findCarrot_eq_ok.mp hcarrot).1

/-- The plan stays and the remembered index does not fall. -/
theorem run_carrotIdx {host : Host F} {st st' : RLController F D} {evs : List (Event F D)}
    {os : List (Output F D)} (hst : WellFormed st) (hevs : ∀ e ∈ evs, e.KeepsPlan)
    (h : run host st evs = .ok (st', os)) :
    st'.currentPath = st.currentPath ∧ st.carrotIdx ≤ st'.carrotIdx := by
  have hkeep := Machine.run_invariant
    (fun s : RLController F D => WellFormed s ∧ s.currentPath = st.currentPath ∧
      st.carrotIdx ≤ s.carrotIdx) Event.KeepsPlan ?_ ⟨hst, rfl, le_rfl⟩ hevs h
  · exact hkeep.2
  · intro s e s' out hI he hstep
    obtain ⟨hs, hpath, hle⟩ := hI
    obtain ⟨hpath', hidx⟩ := step_carrotIdx hs he hstep
    refine ⟨step_wellFormed hs hstep, hpath'.trans hpath, ?_⟩
    cases hidx with
    | inl hsame => exact hle.trans hsame.ge
    | inr hcall =>
        obtain ⟨pose, velocity, -, hplan, hidx⟩ := hcall
        exact hle.trans (hidx ▸ (nearestFrom_bounds (hs.index hplan)).1)

/-- Calls at one pose leave the index where the first of them put it. -/
theorem run_same_pose {host : Host F} {st st' : RLController F D} {pose : PoseStamped D}
    {evs : List (Event F D)} {os : List (Output F D)} (hst : WellFormed st)
    (hfix : nearestFrom st.currentPath.poses pose.pose.position st.carrotIdx = st.carrotIdx)
    (hevs : ∀ e ∈ evs, e.KeepsPlan ∧ ∀ p v, e = .compute p v → p = pose)
    (h : run host st evs = .ok (st', os)) : st'.carrotIdx = st.carrotIdx := by
  have hkeep := Machine.run_invariant
    (fun s : RLController F D => WellFormed s ∧ s.currentPath = st.currentPath ∧
      s.carrotIdx = st.carrotIdx)
    (fun e => e.KeepsPlan ∧ ∀ p v, e = .compute p v → p = pose) ?_ ⟨hst, rfl, rfl⟩ hevs h
  · exact hkeep.2.2
  · intro s e s' out hI he hstep
    obtain ⟨hs, hpath, hidx⟩ := hI
    obtain ⟨hpath', hidx'⟩ := step_carrotIdx hs he.1 hstep
    refine ⟨step_wellFormed hs hstep, hpath'.trans hpath, ?_⟩
    cases hidx' with
    | inl hsame => exact hsame.trans hidx
    | inr hcall =>
        obtain ⟨p, v, heq, hplan, hidx'⟩ := hcall
        rw [hidx', he.2 p v heq, hpath, hidx, hfix]

/-! ## The ratchet -/

variable [CFloat.IeeeLaws D]

/-- After a call the index stays at or beyond its nearest waypoint. -/
theorem nearest_le_carrotIdx {host : Host F} {st₀ st : RLController F D} {pose : PoseStamped D}
    {velocity : Twist D} {post : List (Event F D)} {os : List (Output F D)} {g : Nat}
    (hst₀ : WellFormed st₀) (hne : st₀.currentPath.poses ≠ []) (hpost : ∀ e ∈ post, e.KeepsPlan)
    (h₀ : run host st₀ post = .ok (st, os)) (hmem : .compute pose velocity ∈ post)
    (hrange : InRange st₀.currentPath pose) (hg : IsNearest st₀.currentPath pose 0 g) :
    g ≤ st.carrotIdx := by
  obtain ⟨post₁, post₂, rfl⟩ := List.append_of_mem hmem
  obtain ⟨s, os₁, os₂, h₁, h₂, -⟩ := Machine.run_append_eq_ok.mp h₀
  obtain ⟨s', out, os₃, hstep, h₃, -⟩ := Machine.run_cons_eq_ok.mp h₂
  have hs := run_wellFormed hst₀ h₁
  have hpath : s.currentPath = st₀.currentPath :=
    (run_carrotIdx hst₀ (fun e he => hpost e (by simp [he])) h₁).1
  rw [← hpath] at hne hrange hg
  have hnear := nearestFrom_isNearest (hs.index hne) hrange
  rw [← compute_carrotIdx hs hne hstep] at hnear
  have hlast := run_carrotIdx (step_wellFormed hs hstep) (fun e he => hpost e (by simp [he])) h₃
  exact (hg.tail_compare hnear (Nat.zero_le _)).1.trans hlast.2

/-- The remembered search against the full search.  `st` is the state after
`setPlan path` and any events `post` that keep the plan.  The index is at least the
nearest waypoint of every pose since `setPlan`, it does not fall, and a call moves it
to the first nearest waypoint of the rest. -/
theorem nearest_ratchet {host : Host F} {s₀ st : RLController F D} {path : Path D}
    {post : List (Event F D)} {os : List (Output F D)} (hs₀ : Reachable host s₀)
    (hne : path.poses ≠ []) (hpost : ∀ e ∈ post, e.KeepsPlan)
    (h₀ : run host (setPlan s₀ path) post = .ok (st, os)) :
    (∀ pose velocity g, .compute pose velocity ∈ post → InRange path pose →
      IsNearest path pose 0 g → g ≤ st.carrotIdx) ∧
    (∀ evs st' os', (∀ e ∈ evs, e.KeepsPlan) → run host st evs = .ok (st', os') →
      st.carrotIdx ≤ st'.carrotIdx) ∧
    ∀ pose velocity st' out, step host st (.compute pose velocity) = .ok (st', out) →
      st.carrotIdx ≤ st'.carrotIdx ∧ st'.carrotIdx < path.poses.length ∧
      (NotANumber pose → st'.carrotIdx = st.carrotIdx) ∧
      (InRange path pose → IsNearest path pose st.carrotIdx st'.carrotIdx ∧
        (∃ g, IsNearest path pose 0 g ∧ g ≤ st'.carrotIdx ∧
          (st'.carrotIdx = g ↔ st.carrotIdx ≤ g)) ∧
        ∀ evs st'' os', (∀ e ∈ evs, e.KeepsPlan ∧ ∀ p v, e = .compute p v → p = pose) →
          run host st' evs = .ok (st'', os') → st''.carrotIdx = st'.carrotIdx) := by
  have hst₀ := hs₀.wellFormed.setPlan path
  have hst := run_wellFormed hst₀ h₀
  have hpath : st.currentPath = path := (run_carrotIdx hst₀ hpost h₀).1
  have hpos : 0 < path.poses.length := List.length_pos_iff.mpr hne
  refine ⟨?_, fun evs st' os' hevs h' => (run_carrotIdx hst hevs h').2, ?_⟩
  · intro pose velocity g hmem hrange hg
    exact nearest_le_carrotIdx hst₀ hne hpost h₀ hmem hrange hg
  · intro pose velocity st' out hstep
    have hidx := compute_carrotIdx hst (hpath ▸ hne) hstep
    have hlt := hst.index (hpath ▸ hne)
    have hst' := step_wellFormed hst hstep
    have hkeeps : (Event.compute pose velocity : Event F D).KeepsPlan := trivial
    have hpath' := (step_carrotIdx hst hkeeps hstep).1.trans hpath
    rw [hpath] at hidx hlt
    have hbounds := nearestFrom_bounds (r := pose.pose.position) hlt
    rw [← hidx] at hbounds
    refine ⟨hbounds.1, hbounds.2, fun hnan => ?_, fun hrange => ⟨?_, ?_, ?_⟩⟩
    · rw [hidx, nearestFrom_notANumber _ hnan]
    · rw [hidx]
      exact nearestFrom_isNearest hlt hrange
    · have hg := nearestFrom_isNearest hpos hrange
      have hnear := nearestFrom_isNearest hlt hrange
      rw [← hidx] at hnear
      exact ⟨_, hg, hg.tail_compare hnear (Nat.zero_le _)⟩
    · intro evs st'' os' hevs h'
      refine run_same_pose hst' ?_ hevs h'
      rw [hpath', hidx]
      exact nearestFrom_idem hlt hrange

end

/-! ## Along the straight plan -/

section
open Ieee (fin)

theorem straightPath_dist {i : Nat} (hi : i < 3) (x : ℚ) :
    waypointDist (straightPath : Path (Ieee ℝ)).poses ⟨lit x, lit 0⟩ i = fin |(i : ℝ) - x| := by
  obtain rfl | rfl | rfl : i = 0 ∨ i = 1 ∨ i = 2 := by omega
  all_goals simp [waypointDist, straightPath, poseAt, distance, Real.sqrt_sq_eq_abs]

theorem straightPath_inRange {k : Nat} (hk : k < 3) {x : ℚ} (hx : x = k) :
    InRange (straightPath : Path (Ieee ℝ)) (poseAt (lit x) (lit 0)) := by
  intro i hi
  have hi : i < 3 := hi
  have hle : |(i : ℝ) - k| ≤ 2 := by
    have hi' : (i : ℝ) ≤ 2 := by exact_mod_cast Nat.le_of_lt_succ hi
    have hk' : (k : ℝ) ≤ 2 := by exact_mod_cast Nat.le_of_lt_succ hk
    rw [abs_le]
    constructor <;> linarith [Nat.cast_nonneg (α := ℝ) i, Nat.cast_nonneg (α := ℝ) k]
  rw [poseAt, straightPath_dist hi, hx, Rat.cast_natCast, Ieee.maxValue_eq, Ieee.cfloat_lt,
    Ieee.lt_fin, decide_eq_true_eq]
  exact hle.trans_lt Ieee.two_lt_dblMax

/-- A waypoint is the nearest one to itself. -/
theorem straightPath_nearest {c k : Nat} (hk : k < 3) (hc : c ≤ k) {x : ℚ} (hx : x = k) :
    IsNearest (straightPath : Path (Ieee ℝ)) (poseAt (lit x) (lit 0)) c k where
  lower := hc
  upper := hk
  least i _ hi := by
    rw [poseAt, straightPath_dist hi, straightPath_dist hk, hx, Rat.cast_natCast, sub_self,
      abs_zero, Ieee.cfloat_lt, Ieee.lt_fin, decide_eq_false_iff_not, not_lt]
    exact abs_nonneg _
  first i _ hi := by
    have hne : (i : ℝ) - k ≠ 0 := sub_ne_zero.mpr (by exact_mod_cast hi.ne)
    rw [poseAt, straightPath_dist (hi.trans hk), straightPath_dist hk, hx, Rat.cast_natCast,
      sub_self, abs_zero, Ieee.cfloat_lt, Ieee.lt_fin, decide_eq_true_eq]
    exact abs_pos.mpr hne

end

/-- The robot drives to the last waypoint and is put back to the first.  The full search
goes back, and the remembered one does not. -/
theorem straightCalls_ratchet :
    ∃ st os st' out, run (stillHost : Host (Ieee ℝ))
        (setPlan (configure noTf (none : Option (Ieee ℝ))) straightPath) straightCalls =
          .ok (st, os) ∧
      step stillHost st (.compute (poseAt (lit 0) (lit 0)) still) = .ok (st', out) ∧
      st.carrotIdx = 2 ∧ st'.carrotIdx = 2 ∧
      IsNearest (straightPath : Path (Ieee ℝ)) (poseAt (lit 0) (lit 0)) 2 2 ∧
      IsNearest (straightPath : Path (Ieee ℝ)) (poseAt (lit 0) (lit 0)) 0 0 := by
  have hstart : Reachable (stillHost : Host (Ieee ℝ)) (configure noTf (none : Option (Ieee ℝ))) :=
    Reachable.configure stillHost noTf none
  obtain ⟨st', os', h', -⟩ := run_total stillHost
    (straightCalls ++ [.compute (poseAt (lit 0) (lit 0)) still])
    (hstart.wellFormed.setPlan straightPath) (fun s hs => by cases hs)
    (by simp [straightCalls, smallCalls, Event.Fits])
  obtain ⟨st, os, os₁, h, hlast, -⟩ := Machine.run_append_eq_ok.mp h'
  obtain ⟨out, hstep, -⟩ := Machine.run_singleton_eq_ok.mp hlast
  obtain ⟨hpast, -, hcall⟩ := nearest_ratchet hstart (by simp [straightPath])
    straightCalls_keepsPlan h
  obtain ⟨hle, hlt, -, hnumber⟩ := hcall _ _ st' out hstep
  have hreach : 2 ≤ st.carrotIdx :=
    hpast (poseAt (lit 2) (lit 0)) still 2 (by simp [straightCalls, smallCalls])
      (straightPath_inRange (by decide) rfl) (straightPath_nearest (by decide) (Nat.zero_le 2) rfl)
  have hend : st'.carrotIdx < 3 := hlt
  have hidx : st.carrotIdx = 2 := by omega
  have hidx' : st'.carrotIdx = 2 := by omega
  have hnear := (hnumber (straightPath_inRange (by decide) Nat.cast_zero.symm)).1
  rw [hidx, hidx'] at hnear
  exact ⟨st, os, st', out, h, hstep, hidx, hidx', hnear,
    straightPath_nearest (by decide) le_rfl Nat.cast_zero.symm⟩

end RLNav
