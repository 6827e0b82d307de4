import RLNav.Nearest

/-!
# A robot on its plan

A plan may cross or revisit itself, so several waypoints can be equally near.
The nearest search keeps the earliest of them, and it never looks behind the
remembered index.  So a robot that stands on the waypoints of the plan in order
never has a stretch skipped: the remembered index is not ahead of the robot's
waypoint and is at the same place (`following`).  Moving on by at most one
waypoint at a time it is the start of the block of identical waypoints that the
robot is at.

This holds in any format with `DistanceLaws`.  `==` on coordinates stands for
equality, as the two zeros are one number.
-/

namespace RLNav

open Checked (Fault)
open CFloat (lit)

section
variable {D : Type} [CFloat D]

/-! ## Equal points -/

/-- Both coordinates are finite numbers. -/
def Point.Numeric (p : Point D) : Prop :=
  CFloat.isfinite p.x = true ∧ CFloat.isfinite p.y = true

/-- All coordinates of the waypoints are finite numbers. -/
def Path.Numeric (path : Path D) : Prop := ∀ p ∈ path.poses, p.pose.position.Numeric

/-- Equal coordinates. -/
def SamePoint (p q : Point D) : Prop := CFloat.eq p.x q.x = true ∧ CFloat.eq p.y q.y = true

/-- The robot is exactly at waypoint `m`. -/
def AtWaypoint (path : Path D) (pose : PoseStamped D) (m : Nat) : Prop :=
  ∃ p, path.poses[m]? = some p ∧ SamePoint p.pose.position pose.pose.position

/-- Waypoints `i` and `j` are identical. -/
def SameWaypoint (path : Path D) (i j : Nat) : Prop :=
  ∃ p q, path.poses[i]? = some p ∧ path.poses[j]? = some q ∧
    SamePoint p.pose.position q.pose.position

/-- `i` is the first index of the block of consecutive identical waypoints that
contains `m`. -/
structure IsBlockStart (path : Path D) (m i : Nat) : Prop where
  le : i ≤ m
  block : ∀ k, i ≤ k → k ≤ m → SameWaypoint path k m
  first : ∀ k, k + 1 = i → ¬ SameWaypoint path k m

variable [CFloat.DistanceLaws D]

theorem SamePoint.symm {p q : Point D} (h : SamePoint p q) : SamePoint q p :=
  ⟨CFloat.DistanceLaws.eq_symm h.1, CFloat.DistanceLaws.eq_symm h.2⟩

theorem SamePoint.trans {p q r : Point D} (h : SamePoint p q) (h' : SamePoint q r) :
    SamePoint p r :=
  ⟨CFloat.DistanceLaws.eq_trans h.1 h'.1, CFloat.DistanceLaws.eq_trans h.2 h'.2⟩

theorem SameWaypoint.symm {path : Path D} {i j : Nat} (h : SameWaypoint path i j) :
    SameWaypoint path j i := by
  obtain ⟨p, q, hp, hq, hpq⟩ := h
  exact ⟨q, p, hq, hp, hpq.symm⟩

theorem SameWaypoint.trans {path : Path D} {i j k : Nat} (h : SameWaypoint path i j)
    (h' : SameWaypoint path j k) : SameWaypoint path i k := by
  obtain ⟨p, q, hp, hq, hpq⟩ := h
  obtain ⟨q', r, hq', hr, hqr⟩ := h'
  rw [hq, Option.some.injEq] at hq'
  subst hq'
  exact ⟨p, r, hp, hr, hpq.trans hqr⟩

/-- Two waypoints at one robot are identical. -/
theorem AtWaypoint.same {path : Path D} {pose : PoseStamped D} {i j : Nat}
    (hi : AtWaypoint path pose i) (hj : AtWaypoint path pose j) : SameWaypoint path i j := by
  obtain ⟨p, hp, hpr⟩ := hi
  obtain ⟨q, hq, hqr⟩ := hj
  exact ⟨p, q, hp, hq, hpr.trans hqr.symm⟩

theorem AtWaypoint.of_same {path : Path D} {pose : PoseStamped D} {i j : Nat}
    (hj : AtWaypoint path pose j) (h : SameWaypoint path i j) : AtWaypoint path pose i := by
  obtain ⟨p, q, hp, hq, hpq⟩ := h
  obtain ⟨q', hq', hqr⟩ := hj
  rw [hq, Option.some.injEq] at hq'
  subst hq'
  exact ⟨p, hp, hpq.trans hqr⟩

omit [CFloat.DistanceLaws D] in
theorem AtWaypoint.lt {path : Path D} {pose : PoseStamped D} {m : Nat}
    (h : AtWaypoint path pose m) : m < path.poses.length := by
  obtain ⟨p, hp, -⟩ := h
  exact (List.getElem?_eq_some_iff.mp hp).1

/-! ## One search -/

/-- The distance to a waypoint at the robot is below the distance to every
waypoint that is not. -/
theorem waypointDist_apart {path : Path D} {pose : PoseStamped D} (hnum : path.Numeric) {i k : Nat}
    (hi : AtWaypoint path pose i) (hk : k < path.poses.length) (hne : ¬ AtWaypoint path pose k) :
    CFloat.lt (waypointDist path.poses pose.pose.position i)
      (waypointDist path.poses pose.pose.position k) = true := by
  obtain ⟨p, hp, hpr⟩ := hi
  have hpnum := hnum p (List.mem_of_getElem? hp)
  have hq := List.getElem?_eq_getElem hk
  have hqnum := hnum _ (List.getElem_mem hk)
  rw [waypointDist, hp, waypointDist, hq]
  exact CFloat.DistanceLaws.hypot_apart hpnum.1 hpnum.2 hqnum.1 hqnum.2 hpr.1 hpr.2
    fun hqr => hne ⟨_, hq, hqr⟩

/-- Nothing is nearer than a waypoint at the robot. -/
theorem waypointDist_least {path : Path D} {pose : PoseStamped D} (hnum : path.Numeric) {i k : Nat}
    (hi : AtWaypoint path pose i) (hk : k < path.poses.length) :
    CFloat.lt (waypointDist path.poses pose.pose.position k)
      (waypointDist path.poses pose.pose.position i) = false := by
  obtain ⟨p, hp, hpr⟩ := hi
  have hpnum := hnum p (List.mem_of_getElem? hp)
  rw [waypointDist_of_lt hk, waypointDist, hp]
  exact CFloat.DistanceLaws.hypot_least hpnum.1 hpnum.2 hpr.1 hpr.2

/-- A search finds the first waypoint at the robot. -/
theorem nearestFrom_first {path : Path D} {pose : PoseStamped D} (hnum : path.Numeric)
    {c i : Nat} (hci : c ≤ i) (hi : AtWaypoint path pose i)
    (hfirst : ∀ k, c ≤ k → k < i → ¬ AtWaypoint path pose k) :
    nearestFrom path.poses pose.pose.position c = i := by
  have hlt := hi.lt
  have hsplit : List.range' c (path.poses.length - c) =
      List.range' c (i - c) ++ i :: List.range' (i + 1) (path.poses.length - i - 1) := by
    have hend : c + (i - c) = i := by omega
    have happ := List.range'_append_1 (s := c) (m := i - c) (n := path.poses.length - i - 1 + 1)
    rw [hend, List.range'_succ] at happ
    rw [happ]
    congr 1
    omega
  rw [nearestFrom, hsplit, ArgMin.search_split]
  · obtain ⟨p, hp, hpr⟩ := hi
    have hpnum := hnum p (List.mem_of_getElem? hp)
    rw [waypointDist, hp]
    exact CFloat.DistanceLaws.hypot_lt_max hpnum.1 hpnum.2 hpr.1 hpr.2
  · intro k hk
    obtain ⟨hck, hki⟩ := List.mem_range'_1.mp hk
    exact waypointDist_apart hnum hi (by omega) (hfirst k hck (by omega))
  · intro k hk
    obtain ⟨-, hkn⟩ := List.mem_range'_1.mp hk
    exact waypointDist_least hnum hi (by omega)

/-- From behind the robot's waypoint `m`, a search ends at the first waypoint
identical to it. -/
theorem nearestFrom_atWaypoint {path : Path D} {pose : PoseStamped D} (hnum : path.Numeric)
    {c m : Nat} (hcm : c ≤ m) (hm : AtWaypoint path pose m) :
    ∃ i, nearestFrom path.poses pose.pose.position c = i ∧ c ≤ i ∧ i ≤ m ∧
      SameWaypoint path i m ∧ ∀ k, c ≤ k → k < i → ¬ SameWaypoint path k m := by
  classical
  have hex : ∃ i, c ≤ i ∧ AtWaypoint path pose i := ⟨m, hcm, hm⟩
  obtain ⟨hci, hi⟩ := Nat.find_spec hex
  have hfirst : ∀ k, c ≤ k → k < Nat.find hex → ¬ AtWaypoint path pose k :=
    fun k hck hk hat => Nat.find_min hex hk ⟨hck, hat⟩
  exact ⟨Nat.find hex, nearestFrom_first hnum hci hi hfirst, hci, Nat.find_min' hex ⟨hcm, hm⟩,
    hi.same hm, fun k hck hk hsame => hfirst k hck hk (hm.of_same hsame)⟩

end

/-! ## A sequence of searches -/

section
variable {D : Type} [CFloat D]

/-- The index after searches at `poses`, each from where the one before it
ended. -/
def indexAfter (path : Path D) (poses : List (PoseStamped D)) (c : Nat) : Nat :=
  poses.foldl (fun c pose => nearestFrom path.poses pose.pose.position c) c

/-- A relation `R` between waypoint and index that one search keeps while the
waypoint moves on by `S` is kept by a sequence of searches. -/
theorem indexAfter_follows {path : Path D} {R S : Nat → Nat → Prop}
    (keep : ∀ {c m m' : Nat} {pose : PoseStamped D}, R m c → S m m' → AtWaypoint path pose m' →
      R m' (nearestFrom path.poses pose.pose.position c))
    {poses : List (PoseStamped D)} {ms : List Nat}
    (hat : List.Forall₂ (AtWaypoint path) poses ms) :
    ∀ {c m : Nat}, R m c → (m :: ms).IsChain S →
      ∀ {last : Nat}, (m :: ms).getLast? = some last → R last (indexAfter path poses c) := by
  induction hat with
  | nil =>
      intro c m hR hchain last hlast
      cases hlast
      exact hR
  | @cons pose m' poses ms hpose hposes ih =>
      intro c m hR hchain last hlast
      obtain ⟨hS, hchain⟩ := List.isChain_cons_cons.mp hchain
      rw [List.getLast?_cons_cons] at hlast
      exact ih (keep hR hS hpose) hchain hlast

variable [CFloat.DistanceLaws D]

/-- One search keeps the index behind the robot and at its place. -/
theorem nearestFrom_behind {path : Path D} {pose : PoseStamped D} (hnum : path.Numeric)
    {c m m' : Nat} (hc : c ≤ m ∧ SameWaypoint path c m) (hle : m ≤ m')
    (hat : AtWaypoint path pose m') :
    nearestFrom path.poses pose.pose.position c ≤ m' ∧
      SameWaypoint path (nearestFrom path.poses pose.pose.position c) m' := by
  obtain ⟨i, hi, -, him, hsame, -⟩ := nearestFrom_atWaypoint hnum (hc.1.trans hle) hat
  rw [hi]
  exact ⟨him, hsame⟩

/-- One search keeps the index at the start of the block, if the robot stays at
its waypoint or moves to the next one.  Either the block goes on, and its start is the
first waypoint at the robot, or a new block starts, and no waypoint from the old start
up to it is at the same place. -/
theorem nearestFrom_blockStart {path : Path D} {pose : PoseStamped D} (hnum : path.Numeric)
    {c m m' : Nat} (hc : IsBlockStart path m c) (hle : m ≤ m' ∧ m' ≤ m + 1)
    (hat : AtWaypoint path pose m') :
    IsBlockStart path m' (nearestFrom path.poses pose.pose.position c) := by
  obtain ⟨i, hi, hci, him, hsame, hfirst⟩ := nearestFrom_atWaypoint hnum (hc.le.trans hle.1) hat
  rw [hi]
  by_cases hstay : SameWaypoint path m m'
  · obtain rfl : i = c := by
      by_contra hne
      exact hfirst c le_rfl (by omega) ((hc.block c le_rfl hc.le).trans hstay)
    refine ⟨him, fun k hik hkm => ?_, fun k hk hkm => hc.first k hk (hkm.trans hstay.symm)⟩
    cases Nat.lt_or_ge m k with
    | inl hlt =>
        obtain rfl : k = m' := by omega
        exact hat.same hat
    | inr hge => exact (hc.block k hik hge).trans hstay
  · have hnext : m' = m + 1 := by
      by_contra hne
      obtain rfl : m' = m := by omega
      exact hstay (hat.same hat)
    obtain rfl : i = m' := by
      by_contra hne
      exact hstay ((hc.block i hci (by omega)).symm.trans hsame)
    refine ⟨le_rfl, fun k hik hkm => ?_, fun k hk hkm => hstay ?_⟩
    · obtain rfl : k = i := by omega
      exact hat.same hat
    · obtain rfl : k = m := by omega
      exact hkm

end

section
variable {F D : Type} [CFloat F] [CFloat D] [FloatCast F D]

/-! ## Runs -/

/-- The poses of the calls. -/
def callPoses : List (Event F D) → List (PoseStamped D)
  | [] => []
  | e :: es =>
      match e with
      | .compute pose _ => pose :: callPoses es
      | _ => callPoses es

/-- A run searches at the poses of its calls. -/
theorem run_indexAfter {host : Host F} {st st' : RLController F D} {evs : List (Event F D)}
    {os : List (Output F D)} (hst : WellFormed st) (hevs : ∀ e ∈ evs, e.KeepsPlan)
    (h : run host st evs = .ok (st', os)) :
    st'.carrotIdx = indexAfter st.currentPath (callPoses evs) st.carrotIdx := by
  induction evs generalizing st os with
  | nil =>
      obtain ⟨rfl, rfl⟩ := Machine.run_nil_eq_ok.mp h
      rfl
  | cons e evs ih =>
      obtain ⟨st₁, out, os₁, h₁, h₂, rfl⟩ := Machine.run_cons_eq_ok.mp h
      have hrest : ∀ e' ∈ evs, e'.KeepsPlan := fun e' he' => hevs e' (List.mem_cons_of_mem _ he')
      have hst₁ := step_wellFormed hst h₁
      obtain ⟨m, hm⟩ := hst.memory
      cases (step_eq_ok hm).mp h₁ with
      | scan msg => exact @ih (scanCallback st msg) os₁ hst₁ hrest h₂
      | setPlan path => exact (hevs _ (List.mem_cons_self ..)).elim
      | setParam value => exact @ih (setParam st value) os₁ hst₁ hrest h₂
      | lifecycle call => exact @ih st os₁ hst₁ hrest h₂
      | stop pose velocity hplan =>
          rw [ih hst₁ hrest h₂, callPoses, indexAfter, indexAfter, List.foldl_cons]
          have hnone : nearestFrom st.currentPath.poses pose.pose.position st.carrotIdx =
              st.carrotIdx := by
            rw [hplan, nearestFrom, List.length_nil, Nat.zero_sub]
            rfl
          rw [hnone]
      | drive pose velocity x carrot hplan hx hcarrot =>
          rw [@ih _ os₁ hst₁ hrest h₂, callPoses, indexAfter, indexAfter, List.foldl_cons,
            ← (findCarrot_eq_ok.mp hcarrot).1]
          rfl

variable [CFloat.DistanceLaws D]

/-- A robot that stands on the waypoints `ms` of a plan in order, one at each call
since `setPlan`: after the last call the remembered index is not ahead of its
waypoint and at the same place.  If the robot started at the first waypoint and
moved on by at most one each time, the index is the start of the robot's block.
Every prefix of a run is a run, so this holds after every call. -/
theorem following {host : Host F} {s₀ st : RLController F D} {path : Path D}
    {post : List (Event F D)} {os : List (Output F D)} {ms : List Nat}
    (hs₀ : Reachable host s₀) (hnum : path.Numeric) (hpost : ∀ e ∈ post, e.KeepsPlan)
    (h : run host (setPlan s₀ path) post = .ok (st, os))
    (hat : List.Forall₂ (AtWaypoint path) (callPoses post) ms) (hmono : ms.Pairwise (· ≤ ·))
    {m : Nat} (hlast : ms.getLast? = some m) :
    (st.carrotIdx ≤ m ∧ SameWaypoint path st.carrotIdx m) ∧
      (ms.head? = some 0 → ms.IsChain (fun i j => j ≤ i + 1) →
        IsBlockStart path m st.carrotIdx) := by
  have hidx : st.carrotIdx = indexAfter path (callPoses post) 0 :=
    run_indexAfter (hs₀.wellFormed.setPlan path) hpost h
  have hlast₀ : (0 :: ms).getLast? = some m := by
    rw [List.getLast?_cons, hlast]
    rfl
  have hpos : 0 < path.poses.length := by
    generalize callPoses post = poses at hat
    cases hat with
    | nil => cases hlast
    | cons hpose _ => exact (Nat.zero_le _).trans_lt hpose.lt
  have hzero : SameWaypoint path 0 0 := by
    have hp := hnum _ (List.getElem_mem hpos)
    exact ⟨_, _, List.getElem?_eq_getElem hpos, List.getElem?_eq_getElem hpos,
      CFloat.DistanceLaws.eq_refl hp.1, CFloat.DistanceLaws.eq_refl hp.2⟩
  rw [hidx]
  constructor
  · refine indexAfter_follows (R := fun m c => c ≤ m ∧ SameWaypoint path c m) (S := (· ≤ ·))
      (fun hc hle hpose => nearestFrom_behind hnum hc hle hpose) hat ⟨le_rfl, hzero⟩ ?_ hlast₀
    exact (List.pairwise_cons.mpr ⟨fun j _ => Nat.zero_le j, hmono⟩).isChain
  · intro hhead hnext
    have hstart : IsBlockStart path 0 0 := by
      refine ⟨le_rfl, fun k _ hk => ?_, fun k hk => by omega⟩
      obtain rfl : k = 0 := by omega
      exact hzero
    refine indexAfter_follows (R := IsBlockStart path) (S := fun i j => i ≤ j ∧ j ≤ i + 1)
      (fun hc hle hpose => nearestFrom_blockStart hnum hc hle hpose) hat hstart ?_ hlast₀
    rw [List.isChain_cons]
    constructor
    · intro i hi
      rw [hhead] at hi
      cases hi
      exact ⟨le_rfl, Nat.zero_le _⟩
    · rw [List.isChain_iff_getElem] at hnext ⊢
      intro i hi
      exact ⟨hmono.isChain.getElem i hi, hnext i hi⟩

end

/-- A plan that comes back to its start. -/
noncomputable def thereAndBack : Path (Ieee ℝ) :=
  { frameId := "map"
    poses := [poseAt (lit 0) (lit 0), poseAt (lit 1) (lit 0), poseAt (lit 0) (lit 0)] }

/-- The first search from the start finds the start, and the last one, at the
same place, the end. -/
theorem thereAndBack_following :
    ∃ st os, run (stillHost : Host (Ieee ℝ))
        (setPlan (configure noTf (none : Option (Ieee ℝ))) thereAndBack)
        (thereAndBack.poses.map (.compute · still)) = .ok (st, os) ∧
      IsBlockStart thereAndBack 2 st.carrotIdx := by
  have hstart : Reachable (stillHost : Host (Ieee ℝ)) (configure noTf (none : Option (Ieee ℝ))) :=
    Reachable.configure stillHost noTf none
  obtain ⟨st, os, h, -⟩ := run_total stillHost (thereAndBack.poses.map (.compute · still))
    (hstart.wellFormed.setPlan thereAndBack) (fun s hs => by cases hs)
    (by simp [thereAndBack, Event.Fits])
  have hnum : thereAndBack.Numeric := by simp [thereAndBack, Path.Numeric, Point.Numeric, poseAt]
  have hat : List.Forall₂ (AtWaypoint thereAndBack) thereAndBack.poses [0, 1, 2] := by
    simp [thereAndBack, AtWaypoint, SamePoint, poseAt]
  refine ⟨st, os, h, (following hstart hnum (by simp [thereAndBack, Event.KeepsPlan]) h hat
    (by decide) rfl).2 rfl ?_⟩
  simp

end RLNav
