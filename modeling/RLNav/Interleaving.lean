import RLNav.Model.Threads
import RLNav.Safety

/-!
# The threads are serializable

The controller is called on one thread while the executor of its node delivers
scan messages and parameter values on another.  The two accesses to the pointer
`last_scan_` are critical sections of `scan_mtx_`, so no schedule lets a call read
half of an assignment, and no schedule ends in a deadlock (`threads_safe`).

A call reads the parameter first and the pointer later.  A value that is set in
between is only seen by the next call, so it counts as set after the call, and the
scans that arrive in between count as received before it.  With this order every
schedule has the answers of a run in which the events are atomic
(`threads_serializable`), and the laws of `run` are laws of the two threads.
-/

namespace RLNav

open CFloat (lit)
open Lock (Begun Coarse CoarseReach Config Disciplined Guarded Reach State)

section
variable {F D : Type}

/-! ## The events of the threads -/

def Event.scan? : Event F D → Option (LaserScan F)
  | .scan msg => some msg
  | _ => none

def Event.param? : Event F D → Option D
  | .setParam value => some value
  | _ => none

def Event.request? : Event F D → Option (Request D)
  | .setPlan path => some (.setPlan path)
  | .lifecycle call => some (.lifecycle call)
  | .compute pose velocity => some (.compute pose velocity)
  | _ => none

def Callback.event : Callback F D → Event F D
  | .scan msg => .scan msg
  | .setParam value => .setParam value

def Request.event : Request D → Event F D
  | .setPlan path => .setPlan path
  | .lifecycle call => .lifecycle call
  | .compute pose velocity => .compute pose velocity

/-- What a call answers. -/
def Output.answer? : Output F D → Option (Output F D)
  | .silent => none
  | out => some out

/-- The events `evs`, answered with `os`, are the callbacks among `cs` and the
requests among `rs` that are not `pending`, `late` or `owed`, each kind in its
order, and the answers are `answered`. -/
structure Served (cs : List (Callback F D)) (rs : List (Request D)) (evs : List (Event F D))
    (os : List (Output F D)) (late : List D) (pending : List (Callback F D))
    (owed : List (Request D)) (answered : List (Output F D)) : Prop where
  scans : evs.filterMap Event.scan? ++ (pending.map Callback.event).filterMap Event.scan? =
    (cs.map Callback.event).filterMap Event.scan?
  params : evs.filterMap Event.param? ++ late ++
      (pending.map Callback.event).filterMap Event.param? =
    (cs.map Callback.event).filterMap Event.param?
  requests : evs.filterMap Event.request? ++ owed = rs
  answers : os.filterMap Output.answer? = answered

/-- The members as the threads hold them. -/
def controller (c : Config Thread (SharedPtr F) D (Local F D)) : RLController F D :=
  { (c.loc .control).members with lookaheadParam := c.atom, lastScan := c.val.ptr }

/-! ## The critical sections -/

def Executor.Inside : Executor F D → Prop
  | .idle _ => False
  | _ => True

def ControlPc.Inside : ControlPc F D → Prop
  | .locked _ _ => True
  | .pointed _ _ _ => True
  | .copied _ _ _ => True
  | _ => False

/-- A copy of the pointer owns its message, and the call has not faulted. -/
def ControlPc.Sound : ControlPc F D → Prop
  | .copied _ _ s => s.Whole
  | .sampled _ _ s => s.Whole
  | .faulted _ => False
  | _ => True

/-- The local states at which a thread is in a section of `scan_mtx_`. -/
def Inside : ∀ i : Thread, Local F D i → Prop
  | .executor, l => Executor.Inside l
  | .control, k => ControlPc.Inside k.pc

end

section
variable {F D : Type} [CFloat F] [CFloat D] [FloatCast F D] {host : Host F}

theorem Control.finish_outside (host : Host F) (k : Control F D) (pose : PoseStamped D)
    (velocity : Twist D) : ¬(k.finish host pose velocity).pc.Inside := by
  rw [Control.finish]
  split
  · exact fun h => h
  · exact fun h => h

theorem threads_disciplined (host : Host F) :
    Disciplined (threads host : Lock.Program Thread (SharedPtr F) D (Local F D)) Inside where
  keeps := by
    intro i l x h
    cases i with
    | executor =>
        cases l with
        | idle pending =>
            cases pending with
            | nil => cases h
            | cons c cs =>
                cases c with
                | scan msg => cases h; exact ⟨fun h => h, trivial⟩
                | setParam value => cases h; exact ⟨fun h => h, fun _ h => h⟩
        | locked msg cs => cases h; exact ⟨trivial, fun _ => trivial⟩
        | pointed msg cs => cases h; exact ⟨trivial, fun _ => trivial⟩
        | owned cs => cases h; exact ⟨trivial, fun h => h⟩
    | control =>
        obtain ⟨pc, members, requests, answers⟩ := l
        cases pc with
        | idle =>
            cases requests with
            | nil => cases h
            | cons r rs =>
                cases r with
                | setPlan path => cases h; exact Iff.rfl
                | lifecycle call => cases h; exact Iff.rfl
                | compute pose velocity =>
                    simp only [threads, controlProgram] at h
                    split at h
                    · cases h
                      exact iff_of_false (Control.finish_outside host _ pose velocity) fun h => h
                    · cases h
                      exact Iff.rfl
        | started pose velocity => cases h; exact ⟨fun h => h, fun _ h => h⟩
        | sampling pose velocity => cases h; exact ⟨fun h => h, trivial⟩
        | locked pose velocity => cases h; exact ⟨trivial, fun _ => trivial⟩
        | pointed pose velocity ptr => cases h; exact ⟨trivial, fun _ => trivial⟩
        | copied pose velocity s => cases h; exact ⟨trivial, fun h => h⟩
        | sampled pose velocity s =>
            cases h
            exact iff_of_false (Control.finish_outside host _ pose velocity) fun h => h
        | faulted f => cases h
  ends := by
    intro i l h
    cases i with
    | executor =>
        cases l with
        | idle pending => exact h.elim
        | _ => exact fun h => by cases h
    | control =>
        obtain ⟨pc, members, requests, answers⟩ := l
        cases pc with
        | locked pose velocity => exact fun h => by cases h
        | pointed pose velocity ptr => exact fun h => by cases h
        | copied pose velocity s => exact fun h => by cases h
        | _ => exact h.elim

omit [FloatCast F D] [CFloat F] [CFloat D] in
theorem launch_guarded (st : RLController F D) (cs : List (Callback F D))
    (rs : List (Request D)) : Guarded Inside (launch st cs rs) := by
  intro i
  cases i with
  | executor => exact iff_of_false (fun h => h) (by simp [launch])
  | control => exact iff_of_false (fun h => h) (by simp [launch])

/-- The section of the callback, which writes the two words. -/
theorem begun_executor {v₀ v : SharedPtr F} {l₀ l : Local F D .executor}
    (h : Begun (threads host) .executor v₀ l₀ v l) :
    ∃ msg cs, l₀ = .idle (.scan msg :: cs) ∧
      (l = .locked msg cs ∨ l = .pointed msg cs ∧ v.ptr = some msg ∨
        l = .owned cs ∧ v = ⟨some msg, some msg⟩) := by
  induction h with
  | @acquire l h =>
      cases l₀ with
      | idle pending =>
          cases pending with
          | nil => cases h
          | cons c cs =>
              cases c with
              | scan msg => cases h; exact ⟨msg, cs, rfl, Or.inl rfl⟩
              | setParam value => cases h
      | locked msg cs => cases h
      | pointed msg cs => cases h
      | owned cs => cases h
  | silent _ h ih =>
      obtain ⟨msg, cs, hl₀, rfl | ⟨rfl, -⟩ | ⟨rfl, -⟩⟩ := ih <;> cases h
  | access _ h ih =>
      obtain ⟨msg, cs, hl₀, rfl | ⟨rfl, hptr⟩ | ⟨rfl, -⟩⟩ := ih
      · cases h
        exact ⟨msg, cs, hl₀, Or.inr (Or.inl ⟨rfl, rfl⟩)⟩
      · cases h
        exact ⟨msg, cs, hl₀, Or.inr (Or.inr ⟨rfl, by simp [hptr]⟩)⟩
      · cases h

/-- The section of `sampleScan`, which reads the two words. -/
theorem begun_control {v₀ v : SharedPtr F} {k l : Local F D .control}
    (h : Begun (threads host) .control v₀ k v l) :
    ∃ pose velocity, k.pc = .sampling pose velocity ∧ v = v₀ ∧
      (l = { k with pc := .locked pose velocity } ∨
        l = { k with pc := .pointed pose velocity v₀.ptr } ∨
        l = { k with pc := .copied pose velocity v₀ }) := by
  induction h with
  | @acquire l h =>
      obtain ⟨pc, members, requests, answers⟩ := k
      cases pc with
      | idle =>
          cases requests with
          | nil => cases h
          | cons r rs =>
              cases r with
              | setPlan path => cases h
              | lifecycle call => cases h
              | compute pose velocity =>
                  simp only [threads, controlProgram] at h
                  split at h <;> cases h
      | sampling pose velocity => cases h; exact ⟨pose, velocity, rfl, rfl, Or.inl rfl⟩
      | _ => cases h
  | silent _ h ih =>
      obtain ⟨pose, velocity, hk, hv, rfl | rfl | rfl⟩ := ih <;> cases h
  | access _ h ih =>
      obtain ⟨pose, velocity, hk, rfl, rfl | rfl | rfl⟩ := ih
      · cases h
        exact ⟨pose, velocity, hk, rfl, Or.inr (Or.inl rfl)⟩
      · cases h
        exact ⟨pose, velocity, hk, rfl, Or.inr (Or.inr rfl)⟩
      · cases h

/-! ## The run behind a schedule -/

/-- The control thread at `k`, beside the pointer `val` and the parameter `atom`,
is where the atomic controller `st` is, once the values in `late` are set.  The
requests in `owed` are not yet answered, and those in `answered` are. -/
inductive Linked (host : Host F) (val : SharedPtr F) (atom : D) :
    Control F D → RLController F D → List D → List (Request D) → List (Output F D) → Prop where
  | idle {st : RLController F D} {rs : List (Request D)} {as : List (Output F D)} :
      Linked host val atom ⟨.idle, st, rs, as⟩
        { st with lookaheadParam := atom, lastScan := val.ptr } [] rs as
  | started {st : RLController F D} {rs : List (Request D)} {as : List (Output F D)}
      {pose : PoseStamped D} {velocity : Twist D} :
      Linked host val atom ⟨.started pose velocity, st, rs, as⟩
        { st with lookaheadParam := atom, lastScan := val.ptr } []
        (.compute pose velocity :: rs) as
  | sampling {st : RLController F D} {rs : List (Request D)} {as : List (Output F D)}
      {pose : PoseStamped D} {velocity : Twist D} {late : List D} :
      late.getLastD st.lookaheadParam = atom →
      Linked host val atom ⟨.sampling pose velocity, st, rs, as⟩ { st with lastScan := val.ptr }
        late (.compute pose velocity :: rs) as
  | sampled {st : RLController F D} {rs : List (Request D)} {as : List (Output F D)}
      {pose : PoseStamped D} {velocity : Twist D} {s : SharedPtr F} {out : Output F D}
      (st' : RLController F D) : s.Whole →
      computeVelocityCommands host { st with lastScan := s.ptr } pose velocity = .ok (st', out) →
      Linked host val atom ⟨.sampled pose velocity s, st, rs, as⟩
        { st' with lookaheadParam := atom, lastScan := val.ptr } [] rs (as ++ [out])

/-- A run of the atomic controller from `st₀` that has served what the threads have
and is where they are. -/
def Serial (host : Host F) (st₀ : RLController F D) (cs : List (Callback F D))
    (rs : List (Request D)) (c : Config Thread (SharedPtr F) D (Local F D)) : Prop :=
  ∃ (evs : List (Event F D)) (os : List (Output F D)) (st : RLController F D) (late : List D)
    (pending : List (Callback F D)) (owed : List (Request D)) (answered : List (Output F D)),
    run host st₀ evs = .ok (st, os) ∧ Served cs rs evs os late pending owed answered ∧
    c.loc .executor = .idle pending ∧ c.val.Whole ∧
    Linked host c.val c.atom (c.loc .control) st late owed answered

omit [FloatCast F D] [CFloat F] [CFloat D] in
theorem launch_served (cs : List (Callback F D)) (rs : List (Request D)) :
    Served cs rs [] [] [] cs rs [] where
  scans := rfl
  params := rfl
  requests := rfl
  answers := rfl

theorem launch_serial (host : Host F) (st : RLController F D) (cs : List (Callback F D))
    (rs : List (Request D)) : Serial host st cs rs (launch st cs rs).config :=
  ⟨[], [], st, [], cs, rs, [], rfl, launch_served cs rs, rfl, rfl, .idle⟩

/-- A run goes on by one event. -/
theorem run_concat {st st' st'' : RLController F D} {evs : List (Event F D)}
    {os : List (Output F D)} {e : Event F D} {out : Output F D}
    (h : run host st evs = .ok (st', os)) (hstep : step host st' e = .ok (st'', out)) :
    run host st (evs ++ [e]) = .ok (st'', os ++ [out]) :=
  Machine.run_append_eq_ok.mpr ⟨st', os, [out], h,
    Machine.run_singleton_eq_ok.mpr ⟨out, hstep, rfl⟩, rfl⟩

/-- Setting the parameter several times leaves the last value. -/
theorem run_late (host : Host F) (late : List D) :
    ∀ st : RLController F D, run host st (late.map .setParam) =
      .ok ({ st with lookaheadParam := late.getLastD st.lookaheadParam },
        late.map fun _ => .silent) := by
  induction late with
  | nil => exact fun st => rfl
  | cons value late ih =>
      intro st
      refine Machine.run_cons_eq_ok.mpr ⟨_, _, _, rfl, ih _, rfl⟩ |>.trans ?_
      rw [List.getLastD_cons]
      rfl

/-- A call leaves the parameter and the pointer alone, and answers. -/
theorem compute_frame {st st' : RLController F D} {pose : PoseStamped D} {velocity : Twist D}
    {out : Output F D} (hst : WellFormed st)
    (h : computeVelocityCommands host st pose velocity = .ok (st', out)) :
    st'.lookaheadParam = st.lookaheadParam ∧ st'.lastScan = st.lastScan ∧
      out.answer? = some out := by
  obtain ⟨m, hm⟩ := hst.memory
  cases (step_eq_ok (e := .compute pose velocity) hm).mp h with
  | stop _ _ hplan => exact ⟨rfl, rfl, rfl⟩
  | drive _ _ x carrot hplan hx hcarrot => exact ⟨rfl, rfl, rfl⟩

/-! ## The steps of the executor -/

section
variable {cs pending : List (Callback F D)} {rs owed : List (Request D)}
  {evs : List (Event F D)} {os answered : List (Output F D)} {late : List D}

omit [FloatCast F D] [CFloat F] [CFloat D] in
theorem Served.scan {msg : LaserScan F}
    (h : Served cs rs evs os late (.scan msg :: pending) owed answered) :
    Served cs rs (evs ++ [.scan msg]) (os ++ [.silent]) late pending owed answered where
  scans := by
    rw [← h.scans]
    simp [Callback.event, Event.scan?]
  params := by
    rw [← h.params]
    simp [Callback.event, Event.param?, List.filterMap_cons]
  requests := by
    rw [← h.requests]
    simp [Event.request?]
  answers := by
    rw [← h.answers]
    simp [Output.answer?]

omit [FloatCast F D] [CFloat F] [CFloat D] in
theorem Served.setParam {value : D}
    (h : Served cs rs evs os [] (.setParam value :: pending) owed answered) :
    Served cs rs (evs ++ [.setParam value]) (os ++ [.silent]) [] pending owed answered where
  scans := by
    rw [← h.scans]
    simp [Callback.event, Event.scan?, List.filterMap_cons]
  params := by
    rw [← h.params]
    simp [Callback.event, Event.param?]
  requests := by
    rw [← h.requests]
    simp [Event.request?]
  answers := by
    rw [← h.answers]
    simp [Output.answer?]

omit [FloatCast F D] [CFloat F] [CFloat D] in
/-- A value that comes too late for the call in progress. -/
theorem Served.delay {value : D}
    (h : Served cs rs evs os late (.setParam value :: pending) owed answered) :
    Served cs rs evs os (late ++ [value]) pending owed answered where
  scans := by
    rw [← h.scans]
    simp [Callback.event, Event.scan?, List.filterMap_cons]
  params := by
    rw [← h.params]
    simp [Callback.event, Event.param?]
  requests := h.requests
  answers := h.answers

omit [FloatCast F D] [CFloat F] [CFloat D] in
theorem Served.request {r : Request D} {out : Output F D}
    (h : Served cs rs evs os late pending (r :: owed) answered) :
    Served cs rs (evs ++ [r.event]) (os ++ [out]) late pending owed
      (answered ++ out.answer?.toList) where
  scans := by
    rw [← h.scans]
    cases r <;> simp [Request.event, Event.scan?]
  params := by
    rw [← h.params]
    cases r <;> simp [Request.event, Event.param?]
  requests := by
    rw [← h.requests]
    cases r <;> simp [Request.event, Event.request?]
  answers := by
    rw [← h.answers]
    cases out <;> simp [Output.answer?]

omit [FloatCast F D] [CFloat F] [CFloat D] in
/-- The late values are set after the call. -/
theorem Served.flush (h : Served cs rs evs os late pending owed answered) :
    Served cs rs (evs ++ late.map .setParam) (os ++ late.map fun _ => .silent) [] pending owed
      answered where
  scans := by
    rw [← h.scans]
    simp [List.filterMap_map, Function.comp_def, Event.scan?]
  params := by
    rw [← h.params]
    simp [List.filterMap_map, Function.comp_def, Event.param?]
  requests := by
    rw [← h.requests]
    simp [List.filterMap_map, Function.comp_def, Event.request?]
  answers := by
    rw [← h.answers]
    simp [Output.answer?]

end

section
variable {val : SharedPtr F} {atom : D} {k : Control F D} {st : RLController F D} {late : List D}
  {owed : List (Request D)} {answered : List (Output F D)}

/-- A message may arrive at any time. -/
theorem Linked.scan (msg : LaserScan F) (h : Linked host val atom k st late owed answered) :
    Linked host ⟨some msg, some msg⟩ atom k (scanCallback st msg) late owed answered := by
  cases h with
  | idle => exact .idle
  | started => exact .started
  | sampling hlate => exact .sampling hlate
  | sampled st' hwhole hcall => exact .sampled st' hwhole hcall

/-- So may a value of the parameter, which is late for a call that has read it and
not yet sampled. -/
theorem Linked.setParam (value : D) (h : Linked host val atom k st late owed answered) :
    (late = [] ∧ Linked host val value k (RLNav.setParam st value) [] owed answered) ∨
      Linked host val value k st (late ++ [value]) owed answered := by
  cases h with
  | idle => exact Or.inl ⟨rfl, .idle⟩
  | started => exact Or.inl ⟨rfl, .started⟩
  | sampling hlate => exact Or.inr (.sampling (by simp))
  | sampled st' hwhole hcall => exact Or.inl ⟨rfl, .sampled st' hwhole hcall⟩

/-! ## The steps of the control thread -/

/-- A step between the accesses goes on with the call, or serves a request. -/
theorem Linked.silent {k' : Control F D} (h : Linked host val atom k st late owed answered)
    (hk : controlProgram host k = some (.silent k')) :
    Linked host val atom k' st late owed answered ∨
      ∃ r owed' st' out, owed = r :: owed' ∧ step host st r.event = .ok (st', out) ∧
        Linked host val atom k' st' late owed' (answered ++ out.answer?.toList) := by
  cases h with
  | @idle members =>
      cases owed with
      | nil => cases hk
      | cons r rs =>
          cases r with
          | setPlan path =>
              cases hk
              refine Or.inr ⟨_, _, _, _, rfl, rfl, ?_⟩
              rw [Output.answer?, Option.toList_none, List.append_nil]
              exact .idle
          | lifecycle call =>
              cases hk
              refine Or.inr ⟨_, _, _, _, rfl, rfl, ?_⟩
              rw [Output.answer?, Option.toList_none, List.append_nil]
              cases call <;> exact .idle
          | compute pose velocity =>
              simp only [controlProgram] at hk
              split at hk
              next hplan =>
                cases hk
                have hnil : members.currentPath.poses = [] := List.isEmpty_iff.mp hplan
                refine Or.inr ⟨_, _, _, _, rfl, compute_empty hnil, ?_⟩
                rw [Control.finish, compute_empty hnil]
                exact .idle
              next =>
                cases hk
                exact Or.inl .started
  | started => cases hk
  | sampling hlate => cases hk
  | sampled st' hwhole hcall =>
      cases hk
      refine Or.inl ?_
      simp only [Control.finish, hcall]
      exact .idle

/-- The call reads the parameter. -/
theorem Linked.atomic {f : D → D × Control F D} (h : Linked host val atom k st late owed answered)
    (hk : controlProgram host k = some (.atomic f)) :
    Linked host val (f atom).1 (f atom).2 st late owed answered := by
  cases h with
  | @idle members =>
      cases owed with
      | nil => cases hk
      | cons r rs =>
          cases r with
          | setPlan path => cases hk
          | lifecycle call => cases hk
          | compute pose velocity =>
              simp only [controlProgram] at hk
              split at hk <;> cases hk
  | started =>
      cases hk
      exact .sampling rfl
  | sampling hlate => cases hk
  | sampled st' hwhole hcall => cases hk

/-- The call samples, which is where the run makes it. -/
theorem Linked.critical {pose : PoseStamped D} {velocity : Twist D} {s : SharedPtr F}
    (h : Linked host val atom k st late owed answered) (hst : WellFormed st) (hheld : HeldFits st)
    (hk : k.pc = .sampling pose velocity) (hs : s = val) (hwhole : val.Whole) :
    ∃ owed' st' out, owed = .compute pose velocity :: owed' ∧
      step host st (.compute pose velocity) = .ok (st', out) ∧
      Linked host val atom { k with pc := .sampled pose velocity s }
        { st' with lookaheadParam := late.getLastD st'.lookaheadParam } [] owed'
        (answered ++ out.answer?.toList) := by
  subst hs
  cases h with
  | idle => cases hk
  | started => cases hk
  | sampled st' hwhole hcall => cases hk
  | @sampling members rs as pose' velocity' late hlate =>
      cases hk
      obtain ⟨st', out, hcall⟩ := step_total host (.compute pose velocity) hst hheld
      obtain ⟨hparam, hscan, hanswer⟩ := compute_frame hst hcall
      refine ⟨rs, st', out, rfl, hcall, ?_⟩
      have hstate : ({ st' with lookaheadParam := late.getLastD st'.lookaheadParam } :
          RLController F D) = { st' with lookaheadParam := atom, lastScan := s.ptr } := by
        have hscan' : st'.lastScan = s.ptr := hscan
        rw [hparam, ← hlate, ← hscan']
      rw [hstate, hanswer]
      exact .sampled st' hwhole hcall

end

/-! ## Every schedule -/

omit [FloatCast F D] [CFloat F] [CFloat D] in
/-- The messages that the threads have served are among the callbacks. -/
theorem Served.fits {cs pending : List (Callback F D)} {rs owed : List (Request D)}
    {evs : List (Event F D)} {os answered : List (Output F D)} {late : List D}
    (h : Served cs rs evs os late pending owed answered)
    (hfits : ∀ c ∈ cs, c.event.Fits) : ∀ e ∈ evs, e.Fits := by
  intro e he
  cases e with
  | scan msg =>
      have hmem : msg ∈ (cs.map Callback.event).filterMap Event.scan? := by
        rw [← h.scans]
        exact List.mem_append_left _ (List.mem_filterMap.mpr ⟨.scan msg, he, rfl⟩)
      obtain ⟨e', he', hscan⟩ := List.mem_filterMap.mp hmem
      obtain ⟨c, hc, rfl⟩ := List.mem_map.mp he'
      cases c with
      | scan msg' =>
          cases hscan
          exact hfits _ hc
      | setParam value => cases hscan
  | _ => trivial

theorem run_heldFits {st st' : RLController F D} {evs : List (Event F D)}
    {os : List (Output F D)} (hst : WellFormed st) (hheld : HeldFits st)
    (hfits : ∀ e ∈ evs, e.Fits) (h : run host st evs = .ok (st', os)) :
    WellFormed st' ∧ HeldFits st' :=
  Machine.run_invariant (fun s : RLController F D => WellFormed s ∧ HeldFits s) Event.Fits
    (fun _ _ _ _ hI he h => ⟨step_wellFormed hI.1 h, step_heldFits hI.1 hI.2 he h⟩)
    ⟨hst, hheld⟩ hfits h

section
variable {st₀ : RLController F D} {cs : List (Callback F D)} {rs : List (Request D)}
  {c c' : Config Thread (SharedPtr F) D (Local F D)}

/-- Every coarse step goes on with the run. -/
theorem Serial.step (hst₀ : WellFormed st₀) (hheld₀ : HeldFits st₀)
    (hfits : ∀ c ∈ cs, c.event.Fits) (h : Serial host st₀ cs rs c)
    (hstep : Coarse (threads host) c c') : Serial host st₀ cs rs c' := by
  obtain ⟨evs, os, st, late, pending, owed, answered, hrun, hserved, hexec, hwhole, hlinked⟩ := h
  obtain ⟨hst, hheld⟩ := run_heldFits hst₀ hheld₀ (hserved.fits hfits) hrun
  have hne : Thread.control ≠ Thread.executor := by decide
  cases hstep with
  | @silent i l hi =>
      cases i with
      | executor =>
          rw [hexec] at hi
          cases pending with
          | nil => cases hi
          | cons cb _ => cases cb <;> cases hi
      | control =>
          have hexec' : (c.setLoc .control l).loc .executor = .idle pending :=
            (c.setLoc_of_ne l hne.symm).trans hexec
          cases hlinked.silent hi with
          | inl hgo =>
              refine ⟨evs, os, st, late, pending, owed, answered, hrun, hserved, hexec', hwhole, ?_⟩
              rw [Config.setLoc_self]
              exact hgo
          | inr hserve =>
              obtain ⟨r, owed', st', out, rfl, hr, hgo⟩ := hserve
              refine ⟨_, _, st', late, pending, owed', _, run_concat hrun hr, hserved.request,
                hexec', hwhole, ?_⟩
              rw [Config.setLoc_self]
              exact hgo
  | @atomic i f hi =>
      cases i with
      | executor =>
          rw [hexec] at hi
          cases pending with
          | nil => cases hi
          | cons cb pending =>
              cases cb with
              | scan msg => cases hi
              | setParam value =>
                  cases hi
                  cases hlinked.setParam value with
                  | inl hset =>
                      obtain ⟨rfl, hgo⟩ := hset
                      exact ⟨_, _, _, [], pending, owed, answered, run_concat hrun rfl,
                        hserved.setParam, Config.setLoc_self .., hwhole, hgo⟩
                  | inr hgo =>
                      exact ⟨evs, os, st, _, pending, owed, answered, hrun, hserved.delay,
                        Config.setLoc_self .., hwhole, hgo⟩
      | control =>
          refine ⟨evs, os, st, late, pending, owed, answered, hrun, hserved, ?_, hwhole, ?_⟩
          · exact (Config.setLoc_of_ne _ _ hne.symm).trans hexec
          · rw [Config.setLoc_self]
            exact hlinked.atomic hi
  | @critical i v l l' hbegun hi =>
      cases i with
      | executor =>
          rw [hexec] at hbegun
          obtain ⟨msg, cs', hidle, hend⟩ := begun_executor hbegun
          cases hidle
          rcases hend with rfl | ⟨rfl, -⟩ | ⟨rfl, rfl⟩
          · cases hi
          · cases hi
          · cases hi
            exact ⟨_, _, _, late, cs', owed, answered, run_concat hrun rfl, hserved.scan,
              Config.setLoc_self .., rfl, hlinked.scan msg⟩
      | control =>
          obtain ⟨pose, velocity, hk, rfl, hend⟩ := begun_control hbegun
          rcases hend with rfl | rfl | rfl
          · cases hi
          · cases hi
          · cases hi
            obtain ⟨owed', st', out, rfl, hcall, hgo⟩ := hlinked.critical hst hheld hk rfl hwhole
            have hanswer : Served cs rs _ (os ++ [out]) late pending owed' _ := hserved.request
            have hrun' := Machine.run_append_eq_ok.mpr
              ⟨st', _, _, run_concat hrun hcall, run_late host late st', rfl⟩
            refine ⟨_, _, _, [], pending, owed', _, hrun', hanswer.flush, ?_, hwhole, ?_⟩
            · exact (Config.setLoc_of_ne _ _ hne.symm).trans hexec
            · rw [Config.setLoc_self]
              exact hgo

/-- A schedule that leaves nobody in a section comes from a run. -/
theorem serial_of_reach (hst₀ : WellFormed st₀) (hheld₀ : HeldFits st₀)
    (hfits : ∀ c ∈ cs, c.event.Fits)
    (h : CoarseReach (threads host) (launch st₀ cs rs).config c) : Serial host st₀ cs rs c := by
  induction h with
  | refl => exact launch_serial host st₀ cs rs
  | tail _ hstep ih => exact ih.step hst₀ hheld₀ hfits hstep

/-- Outside of its section the control thread is where the run is. -/
theorem Linked.sound {val : SharedPtr F} {atom : D} {k : Control F D} {st : RLController F D}
    {late : List D} {owed : List (Request D)} {answered : List (Output F D)}
    (h : Linked host val atom k st late owed answered) : k.pc.Sound := by
  cases h with
  | idle => trivial
  | started => trivial
  | sampling hlate => trivial
  | sampled st' hwhole hcall => exact hwhole

/-- Under every schedule at most one thread is in a section of `scan_mtx_`, a call
owns the message that it samples and does not fault, and some thread can go on until
both are done. -/
theorem threads_safe {s : State Thread (SharedPtr F) D (Local F D)} (hst₀ : WellFormed st₀)
    (hheld₀ : HeldFits st₀) (hfits : ∀ c ∈ cs, c.event.Fits)
    (h : Reach (threads host) (launch st₀ cs rs) s) :
    ¬((s.config.loc .executor).Inside ∧ (s.config.loc .control).pc.Inside) ∧
    (s.config.loc .control).pc.Sound ∧
    ((∃ i, threads host i (s.config.loc i) ≠ none) → ∃ s', Lock.Step (threads host) s s') := by
  have hguard := Lock.reach_guarded (threads_disciplined host) (launch_guarded st₀ cs rs) h
  obtain ⟨c, hcoarse, hback⟩ := Lock.coarse_of_reach (threads_disciplined host)
    (launch_guarded st₀ cs rs) rfl h
  obtain ⟨evs, os, st, late, pending, owed, answered, -, -, hexec, hwhole, hlinked⟩ :=
    serial_of_reach hst₀ hheld₀ hfits hcoarse
  refine ⟨fun hboth => ?_, ?_, fun ⟨i, hi⟩ =>
    Lock.exists_step (threads_disciplined host) hguard hi⟩
  · have heq := hguard.exclusive (i := .executor) (j := .control) hboth.1 hboth.2
    cases heq
  · obtain ⟨d, o⟩ := s
    cases o with
    | none =>
        obtain rfl : c = d := hback
        exact hlinked.sound
    | some i =>
        obtain ⟨hbegun, -, hloc⟩ := hback
        cases i with
        | executor =>
            have hsame : c.loc .control = d.loc .control := hloc .control (by decide)
            exact hsame ▸ hlinked.sound
        | control =>
            obtain ⟨pose, velocity, -, -, hend⟩ := begun_control hbegun
            show (d.loc .control).pc.Sound
            rcases hend with hl | hl | hl <;> rw [hl]
            · trivial
            · trivial
            · exact hwhole

/-- Whenever the control thread is between two requests and nobody is in a section,
the members, the pointer and the parameter are those of a run of the atomic
controller on the events so far, each kind in its order, with the same answers. -/
theorem threads_serializable {s : State Thread (SharedPtr F) D (Local F D)}
    (hst₀ : WellFormed st₀) (hheld₀ : HeldFits st₀) (hfits : ∀ c ∈ cs, c.event.Fits)
    (h : Reach (threads host) (launch st₀ cs rs) s) (hfree : s.owner = none)
    (hidle : (s.config.loc .control).pc = .idle) :
    ∃ (evs : List (Event F D)) (os : List (Output F D)) (pending : List (Callback F D)),
      run host st₀ evs = .ok (controller s.config, os) ∧
      s.config.loc .executor = .idle pending ∧ s.config.val.Whole ∧
      Served cs rs evs os [] pending (s.config.loc .control).requests
        (s.config.loc .control).answers := by
  obtain ⟨c, hcoarse, hback⟩ := Lock.coarse_of_reach (threads_disciplined host)
    (launch_guarded st₀ cs rs) rfl h
  obtain ⟨d, o⟩ := s
  obtain rfl : o = none := hfree
  obtain rfl : c = d := hback
  obtain ⟨evs, os, st, late, pending, owed, answered, hrun, hserved, hexec, hwhole, hlinked⟩ :=
    serial_of_reach hst₀ hheld₀ hfits hcoarse
  refine ⟨evs, os, pending, ?_⟩
  rw [controller]
  generalize (c.loc .control) = k at hlinked hidle
  cases hlinked with
  | idle => exact ⟨hrun, hexec, hwhole, hserved⟩
  | started => cases hidle
  | sampling hlate => cases hidle
  | sampled st' hcopy hcall => cases hidle

end

/-! ## A small schedule -/

theorem Control.finish_idle {k : Control F D} {pose : PoseStamped D} {velocity : Twist D}
    (hst : WellFormed k.members) (hheld : HeldFits k.members) :
    (k.finish host pose velocity).pc = .idle := by
  obtain ⟨st', out, hcall⟩ := step_total host (.compute pose velocity) hst hheld
  have hcall : computeVelocityCommands host k.members pose velocity = .ok (st', out) := hcall
  rw [Control.finish, hcall]

/-- A message and a value of the parameter, and a call on the small plan. -/
def smallCallbacks : List (Callback F D) := [.setParam (lit 2), .scan (oneBeam (lit 1))]

def smallRequests : List (Request D) :=
  [.setPlan smallPath, .compute (poseAt (lit 1) (lit 0)) still]

omit [FloatCast F D] in
theorem smallCallbacks_fits : ∀ c ∈ (smallCallbacks : List (Callback F D)), c.event.Fits := by
  simp [smallCallbacks, Callback.event, Event.Fits, oneBeam]

/-- Both callbacks run between the two reads of the call: after the plan, the start of the
call and its read of the parameter, and before its copy of the message. -/
theorem smallSchedule :
    ∃ s, Reach (threads (stillHost : Host F)) (launch (configure noTf (none : Option D))
        smallCallbacks smallRequests) s ∧
      s.owner = none ∧ (s.config.loc .control).pc = .idle := by
  have hstart := Relation.ReflTransGen.refl (r := Lock.Step (threads (stillHost : Host F)))
    (a := launch (configure noTf (none : Option D)) smallCallbacks smallRequests)
  have hread := ((hstart.tail (.silent (i := .control) rfl)).tail
    (.silent (i := .control) rfl)).tail (.atomic (i := .control) rfl)
  have hcallbacks := (((((hread.tail (.atomic (i := .executor) rfl)).tail
    (.acquire (i := .executor) rfl)).tail (.access (i := .executor) rfl)).tail
    (.access (i := .executor) rfl)).tail (.release (i := .executor) rfl))
  have hcopy := ((((hcallbacks.tail (.acquire (i := .control) rfl)).tail
    (.access (i := .control) rfl)).tail (.access (i := .control) rfl)).tail
    (.release (i := .control) rfl)).tail (.silent (i := .control) rfl)
  refine ⟨_, hcopy, rfl, ?_⟩
  rw [Config.setLoc_self]
  refine Control.finish_idle ⟨fun _ => Nat.zero_lt_one, none, rfl⟩ fun s hs => ?_
  cases hs
  simp [oneBeam]

end

theorem smallSchedule_safe :
    ∃ s, Reach (threads (stillHost : Host (Ieee ℝ)))
        (launch (configure noTf (none : Option (Ieee ℝ))) smallCallbacks smallRequests) s ∧
      (s.config.loc .control).pc = .idle ∧ (s.config.loc .control).pc.Sound := by
  obtain ⟨s, h, -, hidle⟩ := smallSchedule (F := Ieee ℝ) (D := Ieee ℝ)
  exact ⟨s, h, hidle, (threads_safe (configure_wellFormed noTf none) (fun s hs => by cases hs)
    smallCallbacks_fits h).2.1⟩

theorem smallSchedule_serializable :
    ∃ (s : State Thread (SharedPtr (Ieee ℝ)) (Ieee ℝ) (Local (Ieee ℝ) (Ieee ℝ)))
      (evs : List (Event (Ieee ℝ) (Ieee ℝ))) (os : List (Output (Ieee ℝ) (Ieee ℝ))),
      run stillHost (configure noTf none) evs = .ok (controller s.config, os) ∧
      evs.filterMap Event.request? ++ (s.config.loc .control).requests = smallRequests ∧
      os.filterMap Output.answer? = (s.config.loc .control).answers := by
  obtain ⟨s, h, hfree, hidle⟩ := smallSchedule (F := Ieee ℝ) (D := Ieee ℝ)
  obtain ⟨evs, os, pending, hrun, -, -, hserved⟩ := threads_serializable
    (configure_wellFormed noTf none) (fun s hs => by cases hs) smallCallbacks_fits h hfree hidle
  exact ⟨s, evs, os, hrun, hserved.requests, hserved.answers⟩

end RLNav
