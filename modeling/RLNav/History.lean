import RLNav.Safety

/-!
# The lidar memory is a function of the scan history

`heldScans` reads off an event list the message that was held at each call on a
non-empty plan.  After any run the lidar members hold the memory of exactly
those samples, and the lidar entries of the observations are the features of the
memories along the way (`run_lidar`).  Plans, poses, velocities, parameters and
network outputs play no part.
-/

namespace RLNav

open Checked (Fault)
open CFloat (lit)

section
variable {F D : Type}

/-- The messages held at the calls on a non-empty plan, from the message `last`
held at the start and with `planned` true if the plan is non-empty. -/
def heldScans : Option (LaserScan F) → Bool → List (Event F D) → List (Option (LaserScan F))
  | _, _, [] => []
  | last, planned, e :: es =>
      match e with
      | .scan msg => heldScans (some msg) planned es
      | .setPlan path => heldScans last (!path.poses.isEmpty) es
      | .setParam _ => heldScans last planned es
      | .lifecycle _ => heldScans last planned es
      | .compute _ _ => (if planned then [last] else []) ++ heldScans last planned es

theorem cycles_cons (out : Output F D) (os : List (Output F D)) :
    cycles (out :: os) = out.cycle?.toList ++ cycles os := by
  cases out with
  | silent => rfl
  | stop cmd => rfl
  | drive c => rfl

theorem cycles_append (os os' : List (Output F D)) :
    cycles (os ++ os') = cycles os ++ cycles os' :=
  List.filterMap_append

/-- Two events that are the same but for their scan messages, which `R` relates. -/
inductive Event.RelScan (R : LaserScan F → LaserScan F → Prop) : Event F D → Event F D → Prop where
  | scan {msg msg' : LaserScan F} : R msg msg' → RelScan R (.scan msg) (.scan msg')
  | setPlan (path : Path D) : RelScan R (.setPlan path) (.setPlan path)
  | setParam (value : D) : RelScan R (.setParam value) (.setParam value)
  | lifecycle (call : Lifecycle D) : RelScan R (.lifecycle call) (.lifecycle call)
  | compute (pose : PoseStamped D) (velocity : Twist D) :
      RelScan R (.compute pose velocity) (.compute pose velocity)

/-- The messages held at the calls are related. -/
theorem heldScans_rel {R : LaserScan F → LaserScan F → Prop} {evs evs' : List (Event F D)}
    (h : List.Forall₂ (Event.RelScan R) evs evs') {last last' : Option (LaserScan F)}
    (hlast : Option.Rel R last last') (planned : Bool) :
    List.Forall₂ (Option.Rel R) (heldScans last planned evs) (heldScans last' planned evs') := by
  induction h generalizing last last' planned with
  | nil => exact .nil
  | cons he hes ih =>
      cases he with
      | scan hmsg => exact ih (.some hmsg) planned
      | setPlan path => exact ih hlast _
      | setParam value => exact ih hlast planned
      | lifecycle call => exact ih hlast planned
      | compute pose velocity =>
          cases planned with
          | true => exact .cons hlast (ih hlast true)
          | false => exact ih hlast false

/-- The events without the calls on an empty plan. -/
def withoutIdle : Bool → List (Event F D) → List (Event F D)
  | _, [] => []
  | planned, e :: es =>
      match e with
      | .setPlan path => .setPlan path :: withoutIdle (!path.poses.isEmpty) es
      | .compute pose velocity =>
          (if planned then [.compute pose velocity] else []) ++ withoutIdle planned es
      | e => e :: withoutIdle planned es

end

section
variable {F D : Type} [CFloat F] [CFloat D] [FloatCast F D]

omit [FloatCast F D] in
theorem smallRun_held :
    heldScans none false (smallRun : List (Event F D)) =
      [some (oneBeam (lit 1)), some (oneBeam (lit 1))] := rfl

/-- The lidar entries of an observation. -/
def Cycle.features (c : Cycle F D) : List F := c.obs.cells.take 548

/-- `held` was sampled as `x`. -/
def SampledAs (host : Host F) (held : Option (LaserScan F)) (x : Scan F) : Prop :=
  sampleScan host held = .ok (List.ofFn x)

/-- A run remembers the samples of the messages held at its calls. -/
theorem run_lidar {host : Host F} {st st' : RLController F D} {m : Option (Memory F)}
    {evs : List (Event F D)} {os : List (Output F D)} (hm : st.lidar = Memory.buffers m)
    (h : run host st evs = .ok (st', os)) :
    ∃ xs : List (Scan F),
      List.Forall₂ (SampledAs host)
        (heldScans st.lastScan (!st.currentPath.poses.isEmpty) evs) xs ∧
      st'.lidar = Memory.buffers (Memory.remember m xs) ∧
      (cycles os).map Cycle.lidar = (Memory.trace m xs).map (Memory.buffers ∘ some) ∧
      (cycles os).map Cycle.features = (Memory.trace m xs).map Memory.features := by
  induction evs generalizing st m os with
  | nil =>
      obtain ⟨rfl, rfl⟩ := Machine.run_nil_eq_ok.mp h
      exact ⟨[], .nil, hm, rfl, rfl⟩
  | cons e evs ih =>
      obtain ⟨st₁, out, os', h₁, h₂, rfl⟩ := Machine.run_cons_eq_ok.mp h
      cases (step_eq_ok hm).mp h₁ with
      | scan msg => exact @ih (scanCallback st msg) m os' hm h₂
      | setPlan path => exact @ih (setPlan st path) m os' hm h₂
      | setParam value => exact @ih (setParam st value) m os' hm h₂
      | lifecycle call => exact @ih st m os' hm h₂
      | stop pose velocity hplan =>
          obtain ⟨xs, hxs, hrest⟩ := ih hm h₂
          refine ⟨xs, ?_, hrest⟩
          simpa [heldScans, hplan] using hxs
      | drive pose velocity x carrot hplan hx hcarrot =>
          obtain ⟨xs, hxs, hlidar, hcycles, hfeatures⟩ :=
            @ih _ (some (Memory.next m x)) os' rfl h₂
          have hne : (!st.currentPath.poses.isEmpty) = true := by simpa using hplan
          refine ⟨x :: xs, ?_, hlidar, ?_, ?_⟩
          · rw [heldScans, hne]
            exact .cons hx (hne ▸ hxs)
          · exact congrArg₂ List.cons rfl hcycles
          · refine congrArg₂ List.cons ?_ hfeatures
            show (observe _ _ _ _ _).take 548 = _
            rw [observe, List.take_left' (features_length _)]

/-- Calls on an empty plan leave no trace in a run. -/
theorem run_withoutIdle {host : Host F} {st st' : RLController F D} {evs : List (Event F D)}
    {os : List (Output F D)} (hst : WellFormed st) (h : run host st evs = .ok (st', os)) :
    ∃ os', run host st (withoutIdle (!st.currentPath.poses.isEmpty) evs) = .ok (st', os') ∧
      cycles os' = cycles os := by
  induction evs generalizing st os with
  | nil => exact ⟨os, h, rfl⟩
  | cons e evs ih =>
      obtain ⟨st₁, out, os₁, h₁, h₂, rfl⟩ := Machine.run_cons_eq_ok.mp h
      obtain ⟨os', h', hcycles⟩ := ih (step_wellFormed hst h₁) h₂
      obtain ⟨m, hm⟩ := hst.memory
      have hkeep : ∀ es', run host st₁ es' = .ok (st', os') →
          ∃ os'', run host st (e :: es') = .ok (st', os'') ∧
            cycles os'' = cycles (out :: os₁) := by
        intro es' h'
        refine ⟨out :: os', Machine.run_cons_eq_ok.mpr ⟨st₁, out, os', h₁, h', rfl⟩, ?_⟩
        rw [cycles_cons, cycles_cons, hcycles]
      cases (step_eq_ok hm).mp h₁ with
      | scan msg => exact hkeep _ h'
      | setPlan path => exact hkeep _ h'
      | setParam value => exact hkeep _ h'
      | lifecycle call => exact hkeep _ h'
      | stop pose velocity hplan =>
          refine ⟨os', ?_, hcycles⟩
          rw [hplan] at h' ⊢
          exact h'
      | drive pose velocity x carrot hplan hx hcarrot =>
          have hne : (!st.currentPath.poses.isEmpty) = true := by simpa using hplan
          rw [withoutIdle, hne]
          exact hkeep _ (hne ▸ h')

/-! ## The previous action -/

/-- What the network answered in a cycle. -/
def answer (host : Host F) (c : Cycle F D) : F × F := host.session c.obs.cells

/-- The action of the last of the cycles, or zero. -/
def lastAnswer (host : Host F) (cs : List (Cycle F D)) : F × F :=
  match cs.getLast? with
  | none => (lit 0, lit 0)
  | some c => clampAction (answer host c)

omit [CFloat D] [FloatCast F D] in
theorem lastAnswer_concat (host : Host F) (cs : List (Cycle F D)) (c : Cycle F D) :
    lastAnswer host (cs ++ [c]) = clampAction (answer host c) := by
  rw [lastAnswer, List.getLast?_concat]

/-- The controller remembers the action of its last cycle and no other. -/
theorem run_lastAction {T : Type} {host : Host F} {tf : TfBuffer T} {override : Option D}
    {evs : List (Event F D)} {st : RLController F D} {os : List (Output F D)}
    (h : run host (configure tf override) evs = .ok (st, os)) :
    st.lastAction = lastAnswer host (cycles os) := by
  have hrun := Machine.run_history
    (fun _ (s : RLController F D) os => WellFormed s ∧ s.lastAction = lastAnswer host (cycles os))
    ⟨configure_wellFormed tf override, rfl⟩ ?_ h
  · exact hrun.2
  · intro es s os e s' out hI hstep
    obtain ⟨hs, hlast⟩ := hI
    refine ⟨step_wellFormed hs hstep, ?_⟩
    obtain ⟨m, hm⟩ := hs.memory
    rw [cycles_append]
    cases (step_eq_ok hm).mp hstep with
    | scan msg => exact hlast.trans (congrArg _ (List.append_nil _).symm)
    | setPlan path => exact hlast.trans (congrArg _ (List.append_nil _).symm)
    | setParam value => exact hlast.trans (congrArg _ (List.append_nil _).symm)
    | lifecycle call => exact hlast.trans (congrArg _ (List.append_nil _).symm)
    | stop pose velocity hplan => exact hlast.trans (congrArg _ (List.append_nil _).symm)
    | drive pose velocity x carrot hplan hx hcarrot =>
        exact (lastAnswer_concat host (cycles os)
          (drive host s (Memory.next m x) carrot pose velocity).2).symm

end

end RLNav
