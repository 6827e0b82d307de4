import RLNav.Exact.CarrotOrder
import RLNav.Exact.Indices
import RLNav.Route
import RLNav.Tracker

/-!
# Replanning

A navigator plans again while the robot drives, and `setPlan` forgets the remembered
index.  If the new plan has the waypoints that were still ahead, this cannot be noticed:
the controller goes on with the same answers (`run_replanned`).

If the old plan is sent again from its start, the search may fall back behind the old
index.  It stays behind for some calls, with a carrot that is behind as well, and from
the first call at which it is not the controllers agree for good (`run_restarted`,
`run_restarted_carrot`).
-/

namespace RLNav

open Checked (Fault ok_bind bind_eq_ok)
open CFloat (lit)
open Ieee (fin)

/-! ## The rest of the plan -/

section
variable {F D : Type} [CFloat F] [CFloat D]

omit [CFloat D] in
/-- A well-formed controller is in the state of some tracker. -/
theorem WellFormed.tracks {host : Host F} {st : RLController F D} (hst : WellFormed st)
    (hheld : HeldFits st) : ∃ t : Tracker F D, Tracks host st t := by
  obtain ⟨m, hm⟩ := hst.memory
  obtain ⟨x, hx⟩ := sampleScan_total host hheld
  exact ⟨⟨st.lookaheadParam, x, st.currentPath.points.drop st.carrotIdx, m, st.lastAction⟩,
    rfl, hx, hst.index, rfl, hm, rfl⟩

omit [CFloat D] in
/-- A plan that has the waypoints ahead leaves the tracker where it is. -/
theorem Tracks.replan {host : Host F} {st : RLController F D} {t : Tracker F D}
    (h : Tracks host st t) {path : Path D}
    (hpath : path.points = st.currentPath.points.drop st.carrotIdx) :
    Tracks host (setPlan st path) t where
  lookahead := h.lookahead
  held := h.held
  inside := List.length_pos_iff.mpr
  ahead := hpath.trans h.ahead
  memory := h.memory
  lastAction := h.lastAction

variable [FloatCast F D]

/-- A plan that has the waypoints ahead changes no answer from then on. -/
theorem run_replanned {host : Host F} {st : RLController F D} (hst : Reachable host st)
    (hheld : HeldFits st) {path : Path D}
    (hpath : path.points = st.currentPath.points.drop st.carrotIdx) {evs : List (Event F D)}
    (hfits : ∀ e ∈ evs, e.Fits) :
    ∃ (st₁ st₂ : RLController F D) (os₁ os₂ : List (Output F D)),
      run host st evs = .ok (st₁, os₁) ∧ run host (setPlan st path) evs = .ok (st₂, os₂) ∧
      os₁.map Output.meaning = os₂.map Output.meaning := by
  obtain ⟨t, ht⟩ := hst.wellFormed.tracks hheld
  obtain ⟨is, hmeans⟩ := exists_means host hfits
  obtain ⟨st₁, os₁, h₁, -, hos₁⟩ := ht.run hmeans
  obtain ⟨st₂, os₂, h₂, -, hos₂⟩ := (ht.replan hpath).run hmeans
  exact ⟨st₁, st₂, os₁, os₂, h₁, h₂, hos₁.trans hos₂.symm⟩

end

/-! ## The same plan again -/

/-- Two lists related by `R` up to some point, and the same from there on. -/
inductive Meets {α : Type} (R : α → α → Prop) : List α → List α → Prop where
  | met (xs : List α) : Meets R xs xs
  | apart {x x' : α} {xs xs' : List α} : R x x' → Meets R xs xs' → Meets R (x :: xs) (x' :: xs')

section
variable {D : Type} [CFloat D] [CFloat.IeeeLaws D]

/-- A search from behind stays behind, or finds the same waypoint. -/
theorem nearestFrom_fallback (poses : List (PoseStamped D)) (r : Point D) {c c' : Nat}
    (hc : c < poses.length) (hle : c' ≤ c) :
    nearestFrom poses r c' < c ∨ nearestFrom poses r c' = nearestFrom poses r c := by
  obtain ⟨m, rfl⟩ := Nat.exists_eq_add_of_le hle
  have hsplit : List.range' c' (poses.length - c') =
      List.range' c' m ++ List.range' (c' + m) (poses.length - (c' + m)) := by
    rw [List.range'_append_1]
    congr 1
    omega
  have hfrom : nearestFrom poses r c' = (ArgMin.search CFloat.lt (waypointDist poses r)
      (ArgMin.search CFloat.lt (waypointDist poses r) (CFloat.maxValue, c') (List.range' c' m))
      (List.range' (c' + m) (poses.length - (c' + m)))).2 := by
    rw [nearestFrom, hsplit, ArgMin.search, List.foldl_append]
    rfl
  have hprefix := ArgMin.search_mem CFloat.lt (waypointDist poses r) (List.range' c' m)
    (CFloat.maxValue, c')
  have hleast := (ArgMin.search_least strictWeak_lt (waypointDist poses r) (List.range' c' m)
    (CFloat.maxValue, c')).1
  generalize ArgMin.search CFloat.lt (waypointDist poses r) (CFloat.maxValue, c')
    (List.range' c' m) = acc at hfrom hprefix hleast
  cases m with
  | zero => exact Or.inr rfl
  | succ m =>
      have hacc : acc.2 < c' + (m + 1) := by
        rcases hprefix with rfl | ⟨i, hi, rfl⟩
        · exact Nat.lt_add_of_pos_right (Nat.succ_pos m)
        · exact (List.mem_range'_1.mp hi).2
      have hle : ∀ x, CFloat.lt x acc.1 = true → CFloat.lt x CFloat.maxValue = true := by
        intro x hx
        by_contra hnot
        rw [hleast x (by simpa using hnot)] at hx
        cases hx
      rcases ArgMin.search_restart strictWeak_lt CFloat.IeeeLaws.not_nan_of_lt
        (waypointDist poses r) (List.range' (c' + (m + 1)) (poses.length - (c' + (m + 1)))) hle
        (c' + (m + 1)) with hstay | hsame
      · exact Or.inl (by rwa [hfrom, hstay])
      · exact Or.inr (by rw [hfrom, hsame, nearestFrom])

omit [CFloat.IeeeLaws D] in
/-- Searches that find the same waypoint have the same carrot. -/
theorem findCarrot_restart {path : Path D} {c c' : Nat} {L : D} {pose : PoseStamped D}
    (h : nearestFrom path.poses pose.pose.position c' =
      nearestFrom path.poses pose.pose.position c) :
    findCarrot path c' L pose = findCarrot path c L pose := by
  rw [findCarrot, findCarrot, if_neg (by decide), if_neg (by decide), nearestIndex_eq,
    nearestIndex_eq, h]

/-- Two carrots of one call, the second from a search that starts behind. -/
structure Fallback (path : Path D) (k k' : Carrot D) : Prop where
  call : ∃ (L : D) (pose : PoseStamped D) (c c' : Nat), c < path.poses.length ∧ c' ≤ c ∧
    findCarrot path c L pose = .ok k ∧ findCarrot path c' L pose = .ok k'
  behind : k'.carrotIdx < k.carrotIdx

/-- Calls that start the search behind have a nearest waypoint that is behind, until they
have the same carrot, and then they have the same carrots for good.  So they do from the
next plan on, which forgets both indices. -/
theorem tour_meets {F : Type} {path : Path D} {evs : List (Event F D)} {c c' : Nat}
    (hc : c < path.poses.length) (hle : c' ≤ c) {L : D} {ks ks' : List (Carrot D)}
    (h : tour path c L evs = .ok ks) (h' : tour path c' L evs = .ok ks') :
    Meets (Fallback path) ks ks' := by
  induction evs generalizing c c' L ks ks' with
  | nil =>
      cases h
      cases h'
      exact .met []
  | cons e evs ih =>
      cases e with
      | scan msg => exact ih hc hle h h'
      | setPlan path' =>
          obtain rfl : ks = ks' := Except.ok.inj (h.symm.trans h')
          exact .met _
      | setParam value => exact ih hc hle h h'
      | lifecycle call => exact ih hc hle h h'
      | compute pose velocity =>
          have hne : path.poses.isEmpty = false :=
            List.isEmpty_eq_false_iff.mpr (List.ne_nil_of_length_pos (by omega))
          rw [tour, hne] at h h'
          obtain ⟨k, hk, h⟩ := bind_eq_ok.mp h
          obtain ⟨rest, hrest, h⟩ := bind_eq_ok.mp h
          obtain ⟨k', hk', h'⟩ := bind_eq_ok.mp h'
          obtain ⟨rest', hrest', h'⟩ := bind_eq_ok.mp h'
          cases h
          cases h'
          have hbounds := findCarrot_bounds hc hk
          have hidx := (findCarrot_eq_ok.mp hk).1
          have hidx' := (findCarrot_eq_ok.mp hk').1
          rcases nearestFrom_fallback path.poses pose.pose.position hc hle with hlt | hsame
          · rw [← hidx'] at hlt
            have hbehind : k'.carrotIdx < k.carrotIdx := by omega
            exact .apart ⟨⟨L, pose, c, c', hc, hle, hk, hk'⟩, hbehind⟩
              (ih (by omega) hbehind.le hrest hrest')
          · rw [findCarrot_restart hsame, hk, Except.ok.injEq] at hk'
            rw [← hk', hrest, Except.ok.injEq] at hrest'
            rw [hk', hrest']
            exact .met _

end

section
variable {F D : Type} [CFloat F] [CFloat D] [FloatCast F D] [CFloat.IeeeLaws D]

/-- The remembered index of the controller that started behind stays behind. -/
theorem run_behind {host : Host F} {st₁ st₂ st₁' st₂' : RLController F D}
    {evs : List (Event F D)} {os₁ os₂ : List (Output F D)} (hst₁ : WellFormed st₁)
    (hst₂ : WellFormed st₂) (hpath : st₂.currentPath = st₁.currentPath)
    (hle : st₂.carrotIdx ≤ st₁.carrotIdx) (hne : st₁.currentPath.poses ≠ [])
    (hevs : ∀ e ∈ evs, e.KeepsPlan) (h₁ : run host st₁ evs = .ok (st₁', os₁))
    (h₂ : run host st₂ evs = .ok (st₂', os₂)) : st₂'.carrotIdx ≤ st₁'.carrotIdx := by
  induction evs generalizing st₁ st₂ os₁ os₂ with
  | nil =>
      obtain ⟨rfl, rfl⟩ := Machine.run_nil_eq_ok.mp h₁
      obtain ⟨rfl, rfl⟩ := Machine.run_nil_eq_ok.mp h₂
      exact hle
  | cons e evs ih =>
      obtain ⟨s₁, out₁, os₁', hstep₁, hrest₁, rfl⟩ := Machine.run_cons_eq_ok.mp h₁
      obtain ⟨s₂, out₂, os₂', hstep₂, hrest₂, rfl⟩ := Machine.run_cons_eq_ok.mp h₂
      have he := hevs e (List.mem_cons_self ..)
      obtain ⟨hpath₁, hidx₁⟩ := step_carrotIdx hst₁ he hstep₁
      obtain ⟨hpath₂, hidx₂⟩ := step_carrotIdx hst₂ he hstep₂
      refine ih (step_wellFormed hst₁ hstep₁) (step_wellFormed hst₂ hstep₂)
        (hpath₂.trans (hpath.trans hpath₁.symm)) ?_ (hpath₁ ▸ hne)
        (fun e' he' => hevs e' (List.mem_cons_of_mem _ he')) hrest₁ hrest₂
      have hcall : ∀ pose velocity, e = .compute pose velocity → s₂.carrotIdx ≤ s₁.carrotIdx := by
        rintro pose velocity rfl
        have hc := hst₁.index hne
        rw [compute_carrotIdx hst₁ hne hstep₁, compute_carrotIdx hst₂ (hpath ▸ hne) hstep₂, hpath]
        have hbounds := nearestFrom_bounds (r := pose.pose.position) hc
        rcases nearestFrom_fallback st₁.currentPath.poses pose.pose.position hc hle with hlt | hsame
        · omega
        · exact hsame.le
      rcases hidx₁ with hsame₁ | ⟨pose, velocity, heq, -⟩
      · rcases hidx₂ with hsame₂ | ⟨pose, velocity, heq, -⟩
        · rw [hsame₁, hsame₂]
          exact hle
        · exact hcall pose velocity heq
      · exact hcall pose velocity heq

/-- Searches from before the nearest waypoint find it. -/
theorem nearestFrom_of_le {path : Path D} {pose : PoseStamped D} {c g : Nat}
    (hrange : InRange path pose) (hg : IsNearest path pose 0 g) (hc : c ≤ g) :
    nearestFrom path.poses pose.pose.position c = g :=
  (nearestFrom_isNearest (hc.trans_lt hg.upper) hrange).unique (hg.tail (Nat.zero_le c) hc)

end

section
variable {F : Type} [CFloat F] [FloatCast F (Ieee ℝ)]

/-- What is below a short length is short. -/
theorem short_downward (L : Ieee ℝ) : ∀ x y, x ≤ y → short L y = true → short L x = true := by
  intro x y hxy hy
  cases L with
  | fin l => exact Ieee.lt_of_fin_le hxy hy (Ieee.Le_fin.mpr le_rfl)
  | posInf => rfl
  | negInf => cases hy
  | nan => cases hy

theorem Meets.imp {α : Type} {R S : α → α → Prop} (hRS : ∀ x x', R x x' → S x x') {xs xs' : List α}
    (h : Meets R xs xs') : Meets S xs xs' := by
  induction h with
  | met xs => exact .met xs
  | apart hx _ ih => exact .apart (hRS _ _ hx) ih

/-- The plan sent again from its start.  The carrots fall back, or are the same for good.
Until there is a new plan, a call whose nearest waypoint is not before the old index ends
the fallback. -/
theorem run_restarted {host : Host F} {s₀ st st' : RLController F (Ieee ℝ)}
    {post : List (Event F (Ieee ℝ))} {os os' : List (Output F (Ieee ℝ))}
    (hs₀ : Reachable host s₀) (hne : s₀.currentPath.poses ≠ []) (hfin : s₀.currentPath.IsFinite)
    (h : run host s₀ post = .ok (st, os))
    (h' : run host (setPlan s₀ s₀.currentPath) post = .ok (st', os')) :
    Meets (fun k k' => k'.carrotIdx < k.carrotIdx ∧ k'.j ≤ k.j) (carrots os) (carrots os') ∧
      ((∀ e ∈ post, e.KeepsPlan) → ∀ pose velocity s₁ s₁' out out' g, InRange s₀.currentPath pose →
        IsNearest s₀.currentPath pose 0 g → st.carrotIdx ≤ g →
        step host st (.compute pose velocity) = .ok (s₁, out) →
        step host st' (.compute pose velocity) = .ok (s₁', out') →
        s₁.carrotIdx = g ∧ s₁'.carrotIdx = g) := by
  have hst₀ := hs₀.wellFormed
  have hst₀' := hst₀.setPlan s₀.currentPath
  constructor
  · have htour := run_tour hst₀ h
    have htour' := run_tour hst₀' h'
    refine (tour_meets (hst₀.index hne) (Nat.zero_le _) htour htour').imp fun k k' hfall => ?_
    obtain ⟨⟨L, pose, c, c', hc, hle, hk, hk'⟩, hbehind⟩ := hfall
    have hcross := findCarrot_crossing hfin hc hk
    have hcross' := findCarrot_crossing hfin (hle.trans_lt hc) hk'
    exact ⟨hbehind, hcross'.mono (segment_nonneg hfin) hcross hbehind.le
      (short_downward L)⟩
  · intro hpost pose velocity s₁ s₁' out out' g hrange hg hidx hstep hstep'
    have hpath : st.currentPath = s₀.currentPath := (run_carrotIdx hst₀ hpost h).1
    have hpath' : st'.currentPath = s₀.currentPath := (run_carrotIdx hst₀' hpost h').1
    have hbehind := run_behind hst₀ hst₀' rfl (Nat.zero_le _) hne hpost h h'
    rw [compute_carrotIdx (run_wellFormed hst₀ h) (hpath ▸ hne) hstep,
      compute_carrotIdx (run_wellFormed hst₀' h') (hpath' ▸ hne) hstep', hpath, hpath']
    exact ⟨nearestFrom_of_le hrange hg hidx, nearestFrom_of_le hrange hg (hbehind.trans hidx)⟩

end

/-! ## Small runs -/

/-- A controller with a plan. -/
noncomputable def planned (path : Path (Ieee ℝ)) : RLController (Ieee ℝ) (Ieee ℝ) :=
  setPlan (configure noTf none) path

theorem planned_reachable (path : Path (Ieee ℝ)) : Reachable stillHost (planned path) :=
  ⟨Unit, noTf, none, [.setPlan path], [.silent], rfl⟩

/-- The rest of the straight plan, in another frame. -/
noncomputable def straightRest : Path (Ieee ℝ) :=
  { frameId := "odom", poses := [poseAt (lit 1) (lit 0), poseAt (lit 2) (lit 0)] }

/-- At the second waypoint of the straight plan the first one is left out, and the robot
goes on to the last one. -/
theorem straightPath_replanned :
    ∃ (st st₁ st₂ : RLController (Ieee ℝ) (Ieee ℝ)) (os₁ os₂ : List (Output (Ieee ℝ) (Ieee ℝ))),
      Reachable stillHost st ∧ st.currentPath = straightPath ∧ st.carrotIdx = 1 ∧
      run stillHost st [.compute (poseAt (lit 2) (lit 0)) still] = .ok (st₁, os₁) ∧
      run stillHost (setPlan st straightRest) [.compute (poseAt (lit 2) (lit 0)) still] =
        .ok (st₂, os₂) ∧
      os₁.map Output.meaning = os₂.map Output.meaning := by
  have hplanned := (planned_reachable straightPath).wellFormed
  obtain ⟨st, out, hstep⟩ := step_total stillHost (.compute (poseAt (lit 1) (lit 0)) still)
    hplanned (fun s hs => by cases hs)
  have hreach : Reachable stillHost st :=
    ⟨Unit, noTf, none, [.setPlan straightPath, .compute (poseAt (lit 1) (lit 0)) still],
      [.silent, out], Machine.run_cons_eq_ok.mpr ⟨_, _, _, rfl,
        Machine.run_singleton_eq_ok.mpr ⟨out, hstep, rfl⟩, rfl⟩⟩
  have hrun := Machine.run_singleton_eq_ok.mpr ⟨out, hstep, rfl⟩
  have hpath : st.currentPath = straightPath :=
    (run_carrotIdx hplanned (by simp [Event.KeepsPlan]) hrun).1
  have hidx : st.carrotIdx = 1 := by
    have hlt : 0 < (straightPath : Path (Ieee ℝ)).poses.length := by decide
    have hnear := nearestFrom_isNearest hlt
      (straightPath_inRange (k := 1) (by decide) Nat.cast_one.symm)
    rw [compute_carrotIdx hplanned (by simp [planned, setPlan, straightPath]) hstep]
    exact hnear.unique (straightPath_nearest (by decide) (Nat.zero_le 1) Nat.cast_one.symm)
  have hheld : HeldFits st := by
    refine step_heldFits hplanned (fun s hs => by cases hs) ?_ hstep
    simp [Event.Fits]
  have hpoints : straightRest.points = st.currentPath.points.drop st.carrotIdx := by
    rw [hpath, hidx]
    rfl
  have hfits : ∀ e ∈ [(.compute (poseAt (lit 2) (lit 0)) still : Event (Ieee ℝ) (Ieee ℝ))],
      e.Fits := by simp [Event.Fits]
  obtain ⟨st₁, st₂, os₁, os₂, h₁, h₂, hos⟩ := run_replanned hreach hheld hpoints hfits
  exact ⟨st, st₁, st₂, os₁, os₂, hreach, hpath, hidx, h₁, h₂, hos⟩

/-- The robot comes back to the start, and the plan is sent again there. -/
theorem thereAndBack_restarted :
    ∃ s₀ st st' os os',
      Reachable stillHost s₀ ∧ s₀.currentPath = thereAndBack ∧
      run (stillHost : Host (Ieee ℝ)) s₀ [.compute (poseAt (lit 0) (lit 0)) still] =
        .ok (st, os) ∧
      run stillHost (setPlan s₀ s₀.currentPath) [.compute (poseAt (lit 0) (lit 0)) still] =
        .ok (st', os') ∧
      Meets (fun k k' => k'.carrotIdx < k.carrotIdx ∧ k'.j ≤ k.j) (carrots os) (carrots os') := by
  let there : List (Event (Ieee ℝ) (Ieee ℝ)) := [.compute (poseAt (lit 1) (lit 0)) still]
  let back : List (Event (Ieee ℝ) (Ieee ℝ)) := [.compute (poseAt (lit 0) (lit 0)) still]
  have hplanned := (planned_reachable thereAndBack).wellFormed
  have hthere : ∀ e ∈ there, e.KeepsPlan := by simp [there, Event.KeepsPlan]
  obtain ⟨s, os, h, -⟩ := run_total stillHost (there ++ back) hplanned (fun s hs => by cases hs)
    (by simp [there, back, Event.Fits])
  obtain ⟨s', os', h', -⟩ := run_total stillHost (there ++ .setPlan thereAndBack :: back) hplanned
    (fun s hs => by cases hs) (by simp [there, back, Event.Fits])
  obtain ⟨s₀, os₁, os₂, h₁, h₂, -⟩ := Machine.run_append_eq_ok.mp h
  obtain ⟨s₀', os₁', os₂', h₁', h₂', -⟩ := Machine.run_append_eq_ok.mp h'
  obtain ⟨rfl, -⟩ : s₀ = s₀' ∧ os₁ = os₁' := Prod.mk.injEq .. ▸ Except.ok.inj (h₁.symm.trans h₁')
  obtain ⟨s₁, out, os₃, hset, hrest, -⟩ := Machine.run_cons_eq_ok.mp h₂'
  cases hset
  have hpath : s₀.currentPath = thereAndBack := (run_carrotIdx hplanned hthere h₁).1
  have hreach : Reachable stillHost s₀ :=
    ⟨Unit, noTf, none, .setPlan thereAndBack :: there, .silent :: os₁,
      Machine.run_cons_eq_ok.mpr ⟨_, _, _, rfl, h₁, rfl⟩⟩
  rw [← hpath] at hrest
  refine ⟨s₀, s, s', os₂, os₃, hreach, hpath, h₂, hrest, ?_⟩
  exact (run_restarted hreach (by simp [hpath, thereAndBack]) (hpath ▸ thereAndBack_isFinite)
    h₂ hrest).1

end RLNav
