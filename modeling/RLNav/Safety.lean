import RLNav.Drive
import RLNav.Lib.IeeeReal

/-!
# Index safety

No run of the controller accesses anything out of bounds, as long as no scan
message has more than `2^30` beams.  The proof is at every float format, so scan
metadata of any kind is covered: a beam index is some 32-bit integer before it
is wrapped.

The invariant has three parts.  The remembered index is inside the current path
unless the path is empty, the lidar vectors hold a memory or are still to be
seeded, and the message held is not too long.  `step_total` is the step lemma.
-/

namespace RLNav

open Checked (Fault read ok_bind InInt32)
open CFloat (lit)

section
variable {F : Type} [CFloat F]

/-! ## The beam index -/

theorem lroundInt_inInt32 (host : Host F) (v : F) : InInt32 (lroundInt host v) := by
  have hjunk : InInt32 (host.unspecInt v).toInt :=
    ⟨(host.unspecInt v).le_toInt, (host.unspecInt v).toInt_lt⟩
  rw [lroundInt]
  split
  · split
    · assumption
    · exact hjunk
  · exact hjunk

/-- The wrapped index is the residue of the index, and nothing overflows. -/
theorem wrapIndex_eq_ok {idx : Int} {n : Nat} (hidx : InInt32 idx) (hn : 1 ≤ n)
    (hn' : n ≤ 2 ^ 30) : wrapIndex idx n = .ok (idx % n) :=
  Checked.wrap_eq_ok hidx (by omega) (by omega)

/-- A ray of a message that is not too long looks at a beam of the message. -/
theorem beamIndex_total (host : Host F) {s : LaserScan F} (i : Nat)
    (hne : s.ranges ≠ []) (hfit : s.ranges.length ≤ 2 ^ 30) :
    ∃ idx : Nat, beamIndex host s i = .ok (idx : Int) ∧ idx < s.ranges.length := by
  have hpos : 1 ≤ s.ranges.length := List.length_pos_iff.mpr hne
  have hcast : Int.bmod s.ranges.length (2 ^ 32) = s.ranges.length := by
    apply Int.bmod_eq_of_le <;> omega
  rw [beamIndex, hcast, wrapIndex_eq_ok (lroundInt_inInt32 ..) hpos hfit]
  generalize lroundInt host _ = z
  have hlo := Int.emod_nonneg z (b := s.ranges.length) (by omega)
  have hhi := Int.emod_lt_of_pos z (b := s.ranges.length) (by omega)
  exact ⟨(z % s.ranges.length).toNat, by rw [Int.toNat_of_nonneg hlo], by omega⟩

theorem usable_ne_nil {s : LaserScan F} (h : s.usable = true) : s.ranges ≠ [] := by
  intro hnil
  simp [LaserScan.usable, hnil] at h

/-- Sampling a message that is not too long never faults. -/
theorem sampleScan_total (host : Host F) {held : Option (LaserScan F)}
    (hfit : ∀ s, held = some s → s.ranges.length ≤ 2 ^ 30) :
    ∃ x : Scan F, sampleScan host held = .ok (List.ofFn x) := by
  cases held_usable_or held with
  | inl hu =>
      obtain ⟨s, rfl, hs⟩ := hu
      have hray : ∀ i : Fin nRays, ∃ v, sampleRay host s i = .ok v := by
        intro i
        obtain ⟨idx, hidx, hlt⟩ := beamIndex_total host i (usable_ne_nil hs) (hfit s rfl)
        exact ⟨_, sampleRay_eq_ok.mpr ⟨idx, _, hidx, List.getElem?_eq_getElem hlt, rfl⟩⟩
      choose x hx using hray
      exact ⟨x, (sampleScan_usable hs).mpr ⟨x, rfl, hx⟩⟩
  | inr hnone => exact ⟨placeholder, sampleScan_unusable hnone⟩

end

section
variable {F D : Type} [CFloat F] [CFloat D] [FloatCast F D]

/-! ## The invariant -/

/-- What every reachable state satisfies. -/
structure WellFormed (st : RLController F D) : Prop where
  index : st.currentPath.poses ≠ [] → st.carrotIdx < st.currentPath.poses.length
  memory : ∃ m, st.lidar = Memory.buffers m

/-- A scan message that is not too long for the index arithmetic. -/
def Event.Fits : Event F D → Prop
  | .scan msg => msg.ranges.length ≤ 2 ^ 30
  | _ => True

/-- The message held is not too long. -/
def HeldFits (st : RLController F D) : Prop :=
  ∀ s, st.lastScan = some s → s.ranges.length ≤ 2 ^ 30

omit [FloatCast F D] in
theorem configure_wellFormed {T : Type} (tf : TfBuffer T) (override : Option D) :
    WellFormed (configure tf override : RLController F D) where
  index h := absurd rfl h
  memory := ⟨none, rfl⟩

omit [CFloat F] [CFloat D] [FloatCast F D] in
theorem WellFormed.setPlan {st : RLController F D} (hst : WellFormed st) (path : Path D) :
    WellFormed (setPlan st path) where
  index hne := List.length_pos_iff.mpr hne
  memory := hst.memory

/-- Every step keeps the state well formed. -/
theorem step_wellFormed {host : Host F} {st st' : RLController F D} {e : Event F D}
    {out : Output F D} (hst : WellFormed st) (h : step host st e = .ok (st', out)) :
    WellFormed st' := by
  obtain ⟨m, hm⟩ := hst.memory
  cases (step_eq_ok hm).mp h with
  | scan msg => exact ⟨hst.index, hst.memory⟩
  | setPlan path => exact hst.setPlan path
  | setParam value => exact ⟨hst.index, hst.memory⟩
  | lifecycle call => exact hst
  | stop pose velocity hplan => exact hst
  | drive pose velocity x carrot hplan hx hcarrot =>
      have hbounds := findCarrot_bounds (hst.index hplan) hcarrot
      exact ⟨fun _ => hbounds.2.1.trans_lt hbounds.2.2, some (Memory.next m x), rfl⟩

/-- Only a scan message changes the message held. -/
theorem step_heldFits {host : Host F} {st st' : RLController F D} {e : Event F D}
    {out : Output F D} (hst : WellFormed st) (hheld : HeldFits st) (he : e.Fits)
    (h : step host st e = .ok (st', out)) : HeldFits st' := by
  obtain ⟨m, hm⟩ := hst.memory
  cases (step_eq_ok hm).mp h with
  | scan msg =>
      intro s hs
      cases hs
      exact he
  | setPlan path => exact hheld
  | setParam value => exact hheld
  | lifecycle call => exact hheld
  | stop pose velocity hplan => exact hheld
  | drive pose velocity x carrot hplan hx hcarrot => exact hheld

/-- The observation of a cycle is written up to its end. -/
theorem step_obs {host : Host F} {st st' : RLController F D} {e : Event F D}
    {out : Output F D} (hst : WellFormed st) (h : step host st e = .ok (st', out)) :
    ∀ c, out.cycle? = some c → c.obs.pos = obsDim ∧ c.obs.cells.length = obsDim := by
  obtain ⟨m, hm⟩ := hst.memory
  cases (step_eq_ok hm).mp h with
  | scan msg => intro c hc; cases hc
  | setPlan path => intro c hc; cases hc
  | setParam value => intro c hc; cases hc
  | lifecycle call => intro c hc; cases hc
  | stop pose velocity hplan => intro c hc; cases hc
  | drive pose velocity x carrot hplan hx hcarrot =>
      intro c hc
      cases hc
      exact ⟨rfl, observe_length ..⟩

/-- A step on a well-formed state whose message is not too long does not
fault. -/
theorem step_total (host : Host F) {st : RLController F D} (e : Event F D)
    (hst : WellFormed st) (hheld : HeldFits st) : ∃ st' out, step host st e = .ok (st', out) := by
  obtain ⟨m, hm⟩ := hst.memory
  cases e with
  | scan msg => exact ⟨_, _, rfl⟩
  | setPlan path => exact ⟨_, _, rfl⟩
  | setParam value => exact ⟨_, _, rfl⟩
  | lifecycle call => exact ⟨_, _, rfl⟩
  | compute pose velocity =>
      by_cases hplan : st.currentPath.poses = []
      · exact ⟨_, _, compute_empty hplan⟩
      · obtain ⟨x, hx⟩ := sampleScan_total host hheld
        obtain ⟨carrot, hcarrot⟩ := findCarrot_total st.lookaheadParam pose (hst.index hplan)
        exact ⟨_, _, (step_eq_ok hm).mpr (.drive pose velocity x carrot hplan hx hcarrot)⟩

/-- Every reachable state is well formed. -/
theorem run_wellFormed {host : Host F} {st st' : RLController F D} {evs : List (Event F D)}
    {os : List (Output F D)} (hst : WellFormed st) (h : run host st evs = .ok (st', os)) :
    WellFormed st' :=
  Machine.run_invariant WellFormed (fun _ => True)
    (fun _ _ _ _ hst _ h => step_wellFormed hst h) hst (fun _ _ => trivial) h

theorem Reachable.wellFormed {host : Host F} {st : RLController F D} (h : Reachable host st) :
    WellFormed st := by
  obtain ⟨T, tf, override, evs, os, h⟩ := h
  exact run_wellFormed (configure_wellFormed tf override) h

theorem Reachable.configure {T : Type} (host : Host F) (tf : TfBuffer T) (override : Option D) :
    Reachable host (configure tf override) :=
  ⟨T, tf, override, [], [], rfl⟩

/-- A run whose messages are not too long does not fault. -/
theorem run_total (host : Host F) {st : RLController F D} (evs : List (Event F D))
    (hst : WellFormed st) (hheld : HeldFits st) (hfits : ∀ e ∈ evs, e.Fits) :
    ∃ st' os, run host st evs = .ok (st', os) ∧
      ∀ c ∈ cycles os, c.obs.pos = obsDim ∧ c.obs.cells.length = obsDim := by
  obtain ⟨st', os, hrun, -, hos⟩ := Machine.run_total (step host)
    (fun st : RLController F D => WellFormed st ∧ HeldFits st) Event.Fits
    (fun out => ∀ c, out.cycle? = some c → c.obs.pos = obsDim ∧ c.obs.cells.length = obsDim)
    (fun st e hst he => by
      obtain ⟨st', out, h⟩ := step_total host e hst.1 hst.2
      exact ⟨st', out, h, ⟨step_wellFormed hst.1 h, step_heldFits hst.1 hst.2 he h⟩,
        step_obs hst.1 h⟩)
    ⟨hst, hheld⟩ hfits
  refine ⟨st', os, hrun, fun c hc => ?_⟩
  obtain ⟨out, hout, hcycle⟩ := List.mem_filterMap.mp hc
  exact hos out hout c hcycle

/-! ## Safety -/

/-- No run faults: no access is out of bounds and no index computation
overflows.  Every observation is written up to index 554 exactly. -/
theorem run_never_faults {T : Type} (host : Host F) (tf : TfBuffer T) (override : Option D)
    (evs : List (Event F D)) (hfits : ∀ e ∈ evs, e.Fits) :
    (∃ st os, run host (configure tf override) evs = .ok (st, os) ∧
      ∀ c ∈ cycles os, c.obs.pos = 554 ∧ c.obs.cells.length = 554) ∧
    ∀ (idx : Int32) (n : Nat), 1 ≤ n → n ≤ 2 ^ 30 →
      ∃ k, wrapIndex idx.toInt n = .ok k ∧ 0 ≤ k ∧ k < n := by
  constructor
  · exact run_total host evs (configure_wellFormed tf override) (fun s hs => by cases hs) hfits
  · intro idx n hn hn'
    refine ⟨_, wrapIndex_eq_ok ⟨idx.le_toInt, idx.toInt_lt⟩ hn hn', ?_, ?_⟩
    · exact Int.emod_nonneg _ (by omega)
    · exact Int.emod_lt_of_pos _ (by omega)

/-! ## A small run -/

/-- A network that answers with zeros. -/
def stillHost : Host F where
  session _ := (lit 0, lit 0)
  unspecInt _ := 0

def noTf : TfBuffer Unit where
  lookupTransform _ _ := ()

/-- A scan of one beam. -/
def oneBeam (r : F) : LaserScan F :=
  { angleMin := lit 0, angleIncrement := lit 1, ranges := [r] }

def poseAt (x y : D) : PoseStamped D :=
  { frameId := "odom"
    pose := { position := { x, y },
              orientation := { x := lit 0, y := lit 0, z := lit 0, w := lit 1 } } }

def still : Twist D := { linearX := lit 0, angularZ := lit 0 }

/-- A plan of one waypoint. -/
def smallPath : Path D := { frameId := "map", poses := [poseAt (lit 0) (lit 0)] }

/-- A plan of three waypoints in a row, a metre apart. -/
def straightPath : Path D :=
  { frameId := "map"
    poses := [poseAt (lit 0) (lit 0), poseAt (lit 1) (lit 0), poseAt (lit 2) (lit 0)] }

/-- Two calls, and the robot moved in between. -/
def smallCalls : List (Event F D) :=
  [.compute (poseAt (lit 1) (lit 0)) still, .compute (poseAt (lit 2) (lit 0)) still]

/-- A call at each waypoint of the straight plan. -/
def straightCalls : List (Event F D) := .compute (poseAt (lit 0) (lit 0)) still :: smallCalls

/-- A scan, a plan and two calls. -/
def smallRun : List (Event F D) := .scan (oneBeam (lit 1)) :: .setPlan smallPath :: smallCalls

omit [CFloat F] [FloatCast F D] in
theorem smallCalls_fits : ∀ e ∈ (smallCalls : List (Event F D)), e.Fits := by
  simp [smallCalls, Event.Fits]

omit [CFloat F] [FloatCast F D] in
theorem straightCalls_fits : ∀ e ∈ (straightCalls : List (Event F D)), e.Fits := by
  simp [straightCalls, smallCalls, Event.Fits]

omit [FloatCast F D] in
theorem smallRun_fits : ∀ e ∈ (smallRun : List (Event F D)), e.Fits := by
  simp [smallRun, smallCalls, Event.Fits, oneBeam]

theorem smallRun_total :
    ∃ st os, run (stillHost : Host F) (configure noTf (none : Option D)) smallRun =
      .ok (st, os) := by
  obtain ⟨st, os, h, -⟩ := run_total (stillHost : Host F) smallRun
    (configure_wellFormed noTf (none : Option D)) (fun s hs => by cases hs) smallRun_fits
  exact ⟨st, os, h⟩

end

theorem smallRun_never_faults :
    (∃ st os, run (stillHost : Host (Ieee ℝ)) (configure noTf (none : Option (Ieee ℝ)))
        smallRun = .ok (st, os) ∧
      ∀ c ∈ cycles os, c.obs.pos = 554 ∧ c.obs.cells.length = 554) ∧
    ∀ (idx : Int32) (n : Nat), 1 ≤ n → n ≤ 2 ^ 30 →
      ∃ k, wrapIndex idx.toInt n = .ok k ∧ 0 ≤ k ∧ k < n :=
  run_never_faults stillHost noTf none smallRun smallRun_fits

end RLNav
