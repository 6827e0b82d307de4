import RLNav.Memory
import RLNav.Waypoints

/-!
# One call on a non-empty plan

`computeVelocityCommands` on a non-empty plan samples a scan, pushes it into the
lidar memory, finds a carrot and asks the network.  `drive` is the result of a
call that did so, and `compute_eq_ok` says that a call succeeds exactly when its
scan and its carrot do, with that result.  Every law about a cycle of the
controller starts from it.

`sampleScan` returns 90 readings whenever it returns, each of them the
normalized reading of one beam (`sampleRay_eq_ok`), or 90 times `1.0`.
-/

namespace RLNav

open Checked (Fault read readInt ok_bind bind_eq_ok pure_eq_ok)
open CFloat (lit)

section
variable {F : Type} [CFloat F]

/-! ## The sampled scan -/

/-- The answer of `sampleScan` without a usable message. -/
def placeholder : Scan F := fun _ => lit 1

/-- A ray of a usable message is the normalized reading of one beam. -/
theorem sampleRay_eq_ok {host : Host F} {s : LaserScan F} {i : Nat} {v : F} :
    sampleRay host s i = .ok v ↔
      ∃ (idx : Nat) (r : F), beamIndex host s i = .ok (idx : Int) ∧ s.ranges[idx]? = some r ∧
        v = normReading r := by
  rw [sampleRay, bind_eq_ok]
  constructor
  · rintro ⟨idx, hidx, h⟩
    obtain ⟨r, hr, h⟩ := bind_eq_ok.mp h
    rw [readInt] at hr
    split at hr
    · cases hr
    · next hnonneg =>
      refine ⟨idx.toNat, r, ?_, Checked.read_eq_ok_iff.mp hr, (pure_eq_ok.mp h).symm⟩
      rw [hidx, Int.toNat_of_nonneg (not_lt.mp hnonneg)]
  · rintro ⟨idx, r, hidx, hr, rfl⟩
    refine ⟨idx, hidx, ?_⟩
    rw [Checked.readInt_natCast, Checked.read_eq_ok_iff.mpr hr, ok_bind]
    rfl

theorem replicate_eq_placeholder :
    List.replicate nRays (lit 1 : F) = List.ofFn (placeholder : Scan F) :=
  (List.ofFn_const ..).symm

/-- `sampleScan` holds a usable message, or none. -/
theorem held_usable_or (held : Option (LaserScan F)) :
    (∃ s, held = some s ∧ s.usable = true) ∨ ∀ s, held = some s → s.usable = false := by
  cases held with
  | none => exact Or.inr fun s hs => by cases hs
  | some s =>
      cases hs : s.usable with
      | true => exact Or.inl ⟨s, rfl, hs⟩
      | false =>
          right
          intro s' hs'
          cases hs'
          exact hs

/-- A message that is missing or not usable is answered with the placeholder. -/
theorem sampleScan_unusable {host : Host F} {held : Option (LaserScan F)}
    (h : ∀ s, held = some s → s.usable = false) :
    sampleScan host held = .ok (List.ofFn placeholder) := by
  rw [← replicate_eq_placeholder]
  cases held with
  | none => rfl
  | some s => rw [sampleScan, if_neg (by simp [h s rfl])]

/-- A usable message is sampled ray by ray. -/
theorem sampleScan_usable {host : Host F} {s : LaserScan F} (hs : s.usable = true)
    {xs : List F} :
    sampleScan host (some s) = .ok xs ↔
      ∃ x : Scan F, xs = List.ofFn x ∧ ∀ i : Fin nRays, sampleRay host s i = .ok (x i) := by
  rw [sampleScan, if_pos hs]
  exact Checked.mapM_range_eq_ok_iff

/-- `sampleScan` returns 90 readings. -/
theorem sampleScan_ofFn {host : Host F} {held : Option (LaserScan F)} {xs : List F}
    (h : sampleScan host held = .ok xs) : ∃ x : Scan F, xs = List.ofFn x := by
  cases held_usable_or held with
  | inl hu =>
      obtain ⟨s, rfl, hs⟩ := hu
      obtain ⟨x, hx, -⟩ := (sampleScan_usable hs).mp h
      exact ⟨x, hx⟩
  | inr hnone =>
      rw [sampleScan_unusable hnone] at h
      injection h with h
      exact ⟨placeholder, h.symm⟩

end

section
variable {F D : Type} [CFloat F] [CFloat D] [FloatCast F D]

/-! ## The result of a call -/

/-- The observation of a call. -/
def observe (m : Memory F) (carrot : Carrot D) (pose : PoseStamped D) (velocity : Twist D)
    (lastAction : F × F) : List F :=
  m.features ++
    [goalDist pose carrot.cx carrot.cy, goalAngle pose carrot.cx carrot.cy,
      normVelocity velocity.linearX maxLin, normVelocity velocity.angularZ maxAng,
      lastAction.1, lastAction.2]

theorem observe_length (m : Memory F) (carrot : Carrot D) (pose : PoseStamped D)
    (velocity : Twist D) (lastAction : F × F) :
    (observe m carrot pose velocity lastAction).length = obsDim := by
  rw [observe, List.length_append, features_length]
  rfl

/-- The entries behind the lidar features. -/
theorem observe_tail (m : Memory F) (carrot : Carrot D) (pose : PoseStamped D)
    (velocity : Twist D) (lastAction : F × F) (i : Nat) :
    (observe m carrot pose velocity lastAction)[548 + i]? =
      [goalDist pose carrot.cx carrot.cy, goalAngle pose carrot.cx carrot.cy,
        normVelocity velocity.linearX maxLin, normVelocity velocity.angularZ maxAng,
        lastAction.1, lastAction.2][i]? := by
  rw [observe, List.getElem?_append_right (by rw [features_length]; omega), features_length,
    Nat.add_sub_cancel_left]

/-- The state and the cycle after a call that left the lidar memory `m` and
found `carrot`. -/
def drive (host : Host F) (st : RLController F D) (m : Memory F) (carrot : Carrot D)
    (pose : PoseStamped D) (velocity : Twist D) : RLController F D × Cycle F D :=
  let obs := observe m carrot pose velocity st.lastAction
  let lastAction := clampAction (host.session obs)
  ({ st with
      carrotIdx := carrot.carrotIdx
      carrotLookahead := st.lookaheadParam
      lidar := Memory.buffers (some m)
      lastAction },
    { lidar := Memory.buffers (some m)
      carrot
      goalDist := goalDist pose carrot.cx carrot.cy
      goalAngle := goalAngle pose carrot.cx carrot.cy
      obs := ⟨obs, obsDim⟩
      cmd := { frameId := "base_footprint", twist := actionToTwist lastAction } })

variable {host : Host F} {st st' : RLController F D} {pose : PoseStamped D}
  {velocity : Twist D} {out : Output F D}

/-- A call on an empty plan does nothing. -/
theorem compute_empty (hplan : st.currentPath.poses = []) :
    computeVelocityCommands host st pose velocity =
      .ok (st, .stop ⟨"base_footprint", lit 0, lit 0⟩) := by
  rw [computeVelocityCommands, hplan]
  rfl

/-- A call that reached the network had a plan. -/
theorem plan_ne_nil {c : Cycle F D}
    (h : computeVelocityCommands host st pose velocity = .ok (st', .drive c)) :
    st.currentPath.poses ≠ [] := by
  intro hnil
  rw [compute_empty hnil] at h
  cases h

/-- What a call on a non-empty plan does. -/
theorem compute_eq_ok {m : Option (Memory F)} (hm : st.lidar = Memory.buffers m)
    (hplan : st.currentPath.poses ≠ []) :
    computeVelocityCommands host st pose velocity = .ok (st', out) ↔
      ∃ (x : Scan F) (carrot : Carrot D),
        sampleScan host st.lastScan = .ok (List.ofFn x) ∧
        findCarrot st.currentPath st.carrotIdx st.lookaheadParam pose = .ok carrot ∧
        st' = (drive host st (Memory.next m x) carrot pose velocity).1 ∧
        out = .drive (drive host st (Memory.next m x) carrot pose velocity).2 := by
  have hne : st.currentPath.poses.isEmpty = false := by simpa using hplan
  rw [computeVelocityCommands, hne, if_neg Bool.false_ne_true]
  constructor
  · intro h
    obtain ⟨xs, hx, h⟩ := bind_eq_ok.mp h
    obtain ⟨x, rfl⟩ := sampleScan_ofFn hx
    rw [hm, updateLidarBuffers_eq, ok_bind] at h
    obtain ⟨carrot, hcarrot, h⟩ := bind_eq_ok.mp h
    simp only [assembleObs_eq, ok_bind, pure_eq_ok, Prod.mk.injEq] at h
    exact ⟨x, carrot, hx, hcarrot, h.1.symm, h.2.symm⟩
  · rintro ⟨x, carrot, hx, hcarrot, rfl, rfl⟩
    rw [hx, ok_bind, hm, updateLidarBuffers_eq, ok_bind, hcarrot, ok_bind]
    simp only [assembleObs_eq, ok_bind]
    rfl

/-- The entries of a call's observation behind the lidar features. -/
theorem compute_tail {m : Option (Memory F)} (hm : st.lidar = Memory.buffers m) {c : Cycle F D}
    (h : computeVelocityCommands host st pose velocity = .ok (st', .drive c)) (i : Nat) :
    c.obs.cells[548 + i]? =
      [goalDist pose c.carrot.cx c.carrot.cy, goalAngle pose c.carrot.cx c.carrot.cy,
        normVelocity velocity.linearX maxLin, normVelocity velocity.angularZ maxAng,
        st.lastAction.1, st.lastAction.2][i]? := by
  obtain ⟨x, carrot, -, -, -, hout⟩ := (compute_eq_ok hm (plan_ne_nil h)).mp h
  cases hout
  exact observe_tail ..

/-! ## What a step can do -/

/-- The step of a controller whose lidar vectors hold the memory `m`. -/
inductive Stepped (host : Host F) (st : RLController F D) (m : Option (Memory F)) :
    Event F D → RLController F D → Output F D → Prop where
  | scan (msg : LaserScan F) : Stepped host st m (.scan msg) (scanCallback st msg) .silent
  | setPlan (path : Path D) : Stepped host st m (.setPlan path) (setPlan st path) .silent
  | setParam (value : D) : Stepped host st m (.setParam value) (setParam st value) .silent
  | lifecycle (call : Lifecycle D) : Stepped host st m (.lifecycle call) st .silent
  | stop (pose : PoseStamped D) (velocity : Twist D) :
      st.currentPath.poses = [] →
      Stepped host st m (.compute pose velocity) st (.stop ⟨"base_footprint", lit 0, lit 0⟩)
  | drive (pose : PoseStamped D) (velocity : Twist D) (x : Scan F) (carrot : Carrot D) :
      st.currentPath.poses ≠ [] →
      sampleScan host st.lastScan = .ok (List.ofFn x) →
      findCarrot st.currentPath st.carrotIdx st.lookaheadParam pose = .ok carrot →
      Stepped host st m (.compute pose velocity)
        (RLNav.drive host st (Memory.next m x) carrot pose velocity).1
        (.drive (RLNav.drive host st (Memory.next m x) carrot pose velocity).2)

/-- `Stepped` is the step function. -/
theorem step_eq_ok {m : Option (Memory F)} (hm : st.lidar = Memory.buffers m) {e : Event F D} :
    step host st e = .ok (st', out) ↔ Stepped host st m e st' out := by
  constructor
  · intro h
    cases e with
    | scan msg => cases h; exact .scan msg
    | setPlan path => cases h; exact .setPlan path
    | setParam value => cases h; exact .setParam value
    | lifecycle call => cases call <;> cases h <;> exact .lifecycle _
    | compute pose velocity =>
        by_cases hplan : st.currentPath.poses = []
        · rw [step, compute_empty hplan] at h
          cases h
          exact .stop pose velocity hplan
        · obtain ⟨x, carrot, hx, hcarrot, rfl, rfl⟩ := (compute_eq_ok hm hplan).mp h
          exact .drive pose velocity x carrot hplan hx hcarrot
  · intro h
    cases h with
    | scan msg => rfl
    | setPlan path => rfl
    | setParam value => rfl
    | lifecycle call => cases call <;> rfl
    | stop pose velocity hplan => exact compute_empty hplan
    | drive pose velocity x carrot hplan hx hcarrot =>
        exact (compute_eq_ok hm hplan).mpr ⟨x, carrot, hx, hcarrot, rfl, rfl⟩

end

end RLNav
