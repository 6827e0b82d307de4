import RLNav.Model.Attempts
import RLNav.History

/-!
# What a call that throws leaves behind

A call that throws at the parameter leaves every member alone, and a call that throws
at the network leaves the members of a call that answered, but for the last action.
So the state after any run with throwing calls is that of a run without the former
ones and in which the latter ones answered, except for the last action, which is that
of the last call that did answer (`run_attempts`).  In particular a call that throws at
the network is not undone: it has pushed its scan and advanced the index, and a second
try pushes the same message again.
-/

namespace RLNav

open Checked (Fault ok_bind bind_eq_ok pure_eq_ok)
open CFloat (lit)

section
variable {F D : Type}

/-- A call that throws before it assigns a member, if it is on a plan. -/
def Untouched : Event F D × Fate → Bool
  | (.compute _ _, fate) => !fate.isDouble
  | _ => false

/-- The events without the calls that throw at the parameter. -/
def kept (es : List (Event F D × Fate)) : List (Event F D) :=
  (es.filter (!Untouched ·)).map Prod.fst

/-- The answers to the events that are kept. -/
def keptAnswers : List (Event F D × Fate) → List (Option (Output F D)) →
    List (Option (Output F D))
  | e :: es, o :: os => if Untouched e then keptAnswers es os else o :: keptAnswers es os
  | _, _ => []

/-- The answers that came. -/
def returned (os : List (Option (Output F D))) : List (Output F D) := os.filterMap id

/-- Two cycles that differ at most in the previous action and in the command. -/
structure Cycle.Agrees (c c' : Cycle F D) : Prop where
  lidar : c.lidar = c'.lidar
  carrot : c.carrot = c'.carrot
  goalDist : c.goalDist = c'.goalDist
  goalAngle : c.goalAngle = c'.goalAngle
  obs : c.obs.cells.take 552 = c'.obs.cells.take 552

/-- An answer, if it came, agrees with the answer of a call that did not throw. -/
inductive Agrees : Option (Output F D) → Output F D → Prop where
  | silent : Agrees (some .silent) .silent
  | stop (cmd : TwistStamped D) : Agrees (some (.stop cmd)) (.stop cmd)
  | drive {c c' : Cycle F D} : c.Agrees c' → Agrees (some (.drive c)) (.drive c')
  | threw (c : Cycle F D) : Agrees none (.drive c)

/-- The states differ at most in the last action. -/
structure Apart (st st' : RLController F D) : Prop where
  lookaheadParam : st.lookaheadParam = st'.lookaheadParam
  lastScan : st.lastScan = st'.lastScan
  currentPath : st.currentPath = st'.currentPath
  carrotIdx : st.carrotIdx = st'.carrotIdx
  carrotLookahead : st.carrotLookahead = st'.carrotLookahead
  lidar : st.lidar = st'.lidar

end

section
variable {F D : Type} [CFloat F] [CFloat D] [FloatCast F D] {host : Host F}
  {st st' : RLController F D}

/-! ## One call -/

theorem attempt_empty {fate : Fate} {pose : PoseStamped D} {velocity : Twist D}
    (hplan : st.currentPath.poses = []) :
    attempt host st (.compute pose velocity, fate) =
      .ok (st, some (.stop ⟨"base_footprint", lit 0, lit 0⟩)) := by
  rw [attempt, attemptVelocityCommands, hplan]
  rfl

/-- A call that throws at the parameter. -/
theorem attempt_untouched {e : Event F D × Fate} (he : Untouched e = true) :
    ∃ o, attempt host st e = .ok (st, o) ∧ o.bind Output.cycle? = none := by
  obtain ⟨e, fate⟩ := e
  cases e with
  | compute pose velocity =>
      by_cases hplan : st.currentPath.poses = []
      · exact ⟨_, attempt_empty hplan, rfl⟩
      · have hdouble : fate.isDouble = false := by simpa [Untouched] using he
        refine ⟨none, ?_, rfl⟩
        rw [attempt, attemptVelocityCommands, if_neg (by simpa using hplan), if_pos hdouble]
  | scan msg => cases he
  | setPlan path => cases he
  | setParam value => cases he
  | lifecycle call => cases he

/-- A call on a plan with a parameter that is a double. -/
theorem attempt_eq_ok {m : Option (Memory F)} (hm : st.lidar = Memory.buffers m)
    {pose : PoseStamped D} {velocity : Twist D} {fate : Fate} {x : Scan F} {carrot : Carrot D}
    (hplan : st.currentPath.poses ≠ []) (hdouble : fate.isDouble = true)
    (hx : sampleScan host st.lastScan = .ok (List.ofFn x))
    (hcarrot : findCarrot st.currentPath st.carrotIdx st.lookaheadParam pose = .ok carrot) :
    attempt host st (.compute pose velocity, fate) =
      .ok (if fate.answers then
          ((drive host st (Memory.next m x) carrot pose velocity).1,
            some (.drive (drive host st (Memory.next m x) carrot pose velocity).2))
        else ({ (drive host st (Memory.next m x) carrot pose velocity).1 with
                lastAction := st.lastAction }, none)) := by
  rw [attempt, attemptVelocityCommands, if_neg (by simpa using hplan), if_neg (by simp [hdouble]),
    hx, ok_bind, hm, updateLidarBuffers_eq, ok_bind, hcarrot, ok_bind]
  simp only [assembleObs_eq, ok_bind]
  cases fate.answers with
  | true => rfl
  | false => rfl

/-- The previous action is behind the rest of the observation. -/
theorem observe_take (m : Memory F) (carrot : Carrot D) (pose : PoseStamped D)
    (velocity : Twist D) (a a' : F × F) :
    (observe m carrot pose velocity a).take 552 = (observe m carrot pose velocity a').take 552 := by
  have hcut : ∀ a : F × F, observe m carrot pose velocity a = (m.features ++
      [goalDist pose carrot.cx carrot.cy, goalAngle pose carrot.cx carrot.cy,
        normVelocity velocity.linearX maxLin, normVelocity velocity.angularZ maxAng]) ++
      [a.1, a.2] := by
    intro a
    rw [observe, List.append_assoc]
    rfl
  have hlen : (m.features ++ [goalDist pose carrot.cx carrot.cy, goalAngle pose carrot.cx carrot.cy,
      normVelocity velocity.linearX maxLin, normVelocity velocity.angularZ maxAng]).length =
      552 := by
    rw [List.length_append, features_length]
    rfl
  rw [hcut, hcut, List.take_left' hlen, List.take_left' hlen]

/-- The last action after an answer, from the last action before it. -/
def Output.action (host : Host F) (a : F × F) (o : Option (Output F D)) : F × F :=
  match o.bind Output.cycle? with
  | none => a
  | some c => clampAction (answer host c)

/-- Whatever becomes of a call, it leaves the members of the call that answers, but for
the last action. -/
theorem Apart.attempt {e : Event F D} {fate : Fate} {s' : RLController F D} {out : Output F D}
    (h : Apart st st') (hst' : WellFormed st') (he : Untouched (e, fate) = false)
    (hstep : step host st' e = .ok (s', out)) :
    ∃ s o, attempt host st (e, fate) = .ok (s, o) ∧ Apart s s' ∧ Agrees o out ∧
      s.lastAction = Output.action host st.lastAction o := by
  obtain ⟨m, hm⟩ := hst'.memory
  cases (step_eq_ok hm).mp hstep with
  | scan msg => exact ⟨_, _, rfl, { h with lastScan := rfl }, .silent, rfl⟩
  | setPlan path => exact ⟨_, _, rfl, { h with currentPath := rfl, carrotIdx := rfl }, .silent, rfl⟩
  | setParam value => exact ⟨_, _, rfl, { h with lookaheadParam := rfl }, .silent, rfl⟩
  | lifecycle call => cases call <;> exact ⟨_, _, rfl, h, .silent, rfl⟩
  | stop pose velocity hplan =>
      exact ⟨_, _, attempt_empty (h.currentPath ▸ hplan), h, .stop _, rfl⟩
  | drive pose velocity x carrot hplan hx hcarrot =>
      have hdouble : fate.isDouble = true := by simpa [Untouched] using he
      have hcarrot' : findCarrot st.currentPath st.carrotIdx st.lookaheadParam pose =
          .ok carrot := by
        rw [h.currentPath, h.carrotIdx, h.lookaheadParam, hcarrot]
      have hplan' : st.currentPath.poses ≠ [] := h.currentPath ▸ hplan
      have hx' : sampleScan host st.lastScan = .ok (List.ofFn x) := h.lastScan ▸ hx
      refine ⟨_, _, attempt_eq_ok (h.lidar.trans hm) hplan' hdouble hx' hcarrot', ?_⟩
      cases fate.answers with
      | true => exact ⟨⟨h.lookaheadParam, h.lastScan, h.currentPath, rfl, h.lookaheadParam, rfl⟩,
          .drive ⟨rfl, rfl, rfl, rfl, observe_take ..⟩, rfl⟩
      | false => exact ⟨⟨h.lookaheadParam, h.lastScan, h.currentPath, rfl, h.lookaheadParam, rfl⟩,
          .threw _, rfl⟩

/-! ## Runs -/

omit [CFloat F] [CFloat D] [FloatCast F D] in
theorem kept_cons_of_untouched {e : Event F D × Fate} (he : Untouched e = true)
    (es : List (Event F D × Fate)) : kept (e :: es) = kept es := by
  simp [kept, he]

omit [CFloat F] [CFloat D] [FloatCast F D] in
theorem kept_cons_of_not {e : Event F D × Fate} (he : Untouched e = false)
    (es : List (Event F D × Fate)) : kept (e :: es) = e.1 :: kept es := by
  simp [kept, he]

omit [CFloat D] [FloatCast F D] in
/-- The answers that came decide the last action. -/
theorem foldl_action (host : Host F) (os : List (Option (Output F D))) :
    os.foldl (Output.action host) (lit 0, lit 0) = lastAnswer host (cycles (returned os)) := by
  induction os using List.reverseRecOn with
  | nil => rfl
  | append_singleton os o ih =>
      have hcat : returned (os ++ [o]) = returned os ++ returned [o] := List.filterMap_append
      rw [List.foldl_concat, ih, hcat, cycles_append]
      cases o with
      | none => exact congrArg (lastAnswer host) (List.append_nil _).symm
      | some out =>
          cases out with
          | silent => exact congrArg (lastAnswer host) (List.append_nil _).symm
          | stop cmd => exact congrArg (lastAnswer host) (List.append_nil _).symm
          | drive c => exact (lastAnswer_concat host _ c).symm

/-- The members follow the run on the events that are kept, and the last action the
answers. -/
theorem Apart.attempts {es : List (Event F D × Fate)} (h : Apart st st') (hst' : WellFormed st')
    (hheld : HeldFits st') (hfits : ∀ e ∈ es, e.1.Fits) :
    ∃ s os s' os', attempts host st es = .ok (s, os) ∧ run host st' (kept es) = .ok (s', os') ∧
      Apart s s' ∧ List.Forall₂ Agrees (keptAnswers es os) os' ∧
      s.lastAction = os.foldl (Output.action host) st.lastAction := by
  induction es generalizing st st' with
  | nil => exact ⟨st, [], st', [], rfl, rfl, h, .nil, rfl⟩
  | cons e es ih =>
      have hfit := hfits e (List.mem_cons_self ..)
      have hrest : ∀ e' ∈ es, e'.1.Fits := fun e' he' => hfits e' (List.mem_cons_of_mem _ he')
      cases he : Untouched e with
      | true =>
          obtain ⟨o, ho, hnone⟩ : ∃ o, RLNav.attempt host st e = .ok (st, o) ∧ _ :=
            attempt_untouched he
          obtain ⟨s, os, s', os', hrun, hrun', hapart, hagree, haction⟩ := ih h hst' hheld hrest
          refine ⟨s, o :: os, s', os', Machine.run_cons_eq_ok.mpr ⟨st, o, os, ho, hrun, rfl⟩, ?_,
            hapart, ?_, ?_⟩
          · rw [kept_cons_of_untouched he]
            exact hrun'
          · rw [keptAnswers, if_pos he]
            exact hagree
          · rw [List.foldl_cons, Output.action, hnone]
            exact haction
      | false =>
          obtain ⟨s₁', out, hstep⟩ := step_total host e.1 hst' hheld
          obtain ⟨s₁, o, ho, h₁, ho', haction₁⟩ := h.attempt hst' he hstep
          obtain ⟨s, os, s', os', hrun, hrun', hapart, hagree, haction⟩ := ih h₁
            (step_wellFormed hst' hstep) (step_heldFits hst' hheld hfit hstep) hrest
          refine ⟨s, o :: os, s', out :: os', Machine.run_cons_eq_ok.mpr ⟨s₁, o, os, ho, hrun, rfl⟩,
            ?_, hapart, ?_, ?_⟩
          · rw [kept_cons_of_not he]
            exact Machine.run_cons_eq_ok.mpr ⟨s₁', out, os', hstep, hrun', rfl⟩
          · rw [keptAnswers, if_neg (by simp [he])]
            exact .cons ho' hagree
          · rw [List.foldl_cons, ← haction₁]
            exact haction

/-- A run in which calls throw never faults.  But for the last action its state is that
of a run in which the calls that threw at the network have answered and the others that
threw are left out, and every call that answered agrees with the call there up to the
previous action.  The last action is that of the last call that answered. -/
theorem run_attempts {T : Type} (host : Host F) (tf : TfBuffer T) (override : Option D)
    {es : List (Event F D × Fate)} (hfits : ∀ e ∈ es, e.1.Fits) :
    ∃ s os s' os', attempts host (configure tf override) es = .ok (s, os) ∧
      run host (configure tf override) (kept es) = .ok (s', os') ∧ Apart s s' ∧
      List.Forall₂ Agrees (keptAnswers es os) os' ∧
      s.lastAction = lastAnswer host (cycles (returned os)) := by
  have hstart : Apart (configure tf override : RLController F D) (configure tf override) :=
    ⟨rfl, rfl, rfl, rfl, rfl, rfl⟩
  obtain ⟨s, os, s', os', hrun, hrun', hapart, hagree, haction⟩ :=
    hstart.attempts (configure_wellFormed tf override) (fun s hs => by cases hs) hfits
  exact ⟨s, os, s', os', hrun, hrun', hapart, hagree, haction.trans (foldl_action host os)⟩

/-- A call that throws at the network, one that throws at the parameter, and one that
answers. -/
def smallAttempts : List (Event F D × Fate) :=
  [(.setPlan smallPath, ⟨true, true⟩), (.compute (poseAt (lit 1) (lit 0)) still, ⟨true, false⟩),
    (.compute (poseAt (lit 1) (lit 0)) still, ⟨false, true⟩),
    (.compute (poseAt (lit 2) (lit 0)) still, ⟨true, true⟩)]

omit [CFloat F] [FloatCast F D] in
theorem smallAttempts_fits : ∀ e ∈ (smallAttempts : List (Event F D × Fate)), e.1.Fits := by
  simp [smallAttempts, Event.Fits]

end

theorem smallAttempts_run :
    ∃ (s : RLController (Ieee ℝ) (Ieee ℝ)) (os : List (Option (Output (Ieee ℝ) (Ieee ℝ))))
      (s' : RLController (Ieee ℝ) (Ieee ℝ)) (os' : List (Output (Ieee ℝ) (Ieee ℝ))),
      attempts stillHost (configure noTf none) smallAttempts = .ok (s, os) ∧
      run stillHost (configure noTf none) (kept smallAttempts) = .ok (s', os') ∧ Apart s s' ∧
      List.Forall₂ Agrees (keptAnswers smallAttempts os) os' ∧
      s.lastAction = lastAnswer stillHost (cycles (returned os)) :=
  run_attempts stillHost noTf none smallAttempts_fits

end RLNav
