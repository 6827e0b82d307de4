import RLNav.Exact.Nearness

/-!
# Calls before the first scan

A call without a usable message samples the placeholder, and the first such call
seeds the lidar memory with it.  The first real scan is then pushed on top of a
stack of placeholders and differenced against one, where a controller without
early calls would have been seeded by the scan itself.

So early calls stay visible after the arrival of the scan, unless there are none,
no call follows, or the first scan sampled after the arrival is all far and looks
like the placeholder (`startup_entries_iff`).  A message that is not usable samples
the placeholder at any later call as well.  Together: the placeholder is never taken
for a measurement exactly if of any two successive calls both hold a usable message
or both see nothing near (`startup_iff`).
-/

namespace RLNav

open Ieee (fin nan posInf negInf)
open CFloat (lit)

/-! ## Histories in two parts -/

section
variable {F D : Type}

/-- The message held after the events. -/
def lastHeld : Option (LaserScan F) → List (Event F D) → Option (LaserScan F)
  | last, [] => last
  | last, e :: es =>
      match e with
      | .scan msg => lastHeld (some msg) es
      | _ => lastHeld last es

/-- Whether the plan after the events is non-empty. -/
def plannedAfter : Bool → List (Event F D) → Bool
  | planned, [] => planned
  | planned, e :: es =>
      match e with
      | .setPlan path => plannedAfter (!path.poses.isEmpty) es
      | _ => plannedAfter planned es

theorem heldScans_append (es' : List (Event F D)) :
    ∀ (last : Option (LaserScan F)) (planned : Bool) (es : List (Event F D)),
      heldScans last planned (es ++ es') =
        heldScans last planned es ++ heldScans (lastHeld last es) (plannedAfter planned es) es'
  | _, _, [] => rfl
  | _, planned, .scan msg :: es => heldScans_append es' (some msg) planned es
  | last, _, .setPlan path :: es => heldScans_append es' last (!path.poses.isEmpty) es
  | last, planned, .setParam _ :: es => heldScans_append es' last planned es
  | last, planned, .lifecycle _ :: es => heldScans_append es' last planned es
  | last, planned, .compute _ _ :: es => by
      rw [List.cons_append, heldScans, heldScans_append es' last planned es, heldScans,
        List.append_assoc]
      rfl

def Event.isCall : Event F D → Bool
  | .compute _ _ => true
  | _ => false

/-- The events without the calls. -/
def withoutCalls (es : List (Event F D)) : List (Event F D) := es.filter fun e => !e.isCall

/-- Without calls nothing is sampled. -/
theorem heldScans_withoutCalls :
    ∀ (last : Option (LaserScan F)) (planned : Bool) (es : List (Event F D)),
      heldScans last planned (withoutCalls es) = []
  | _, _, [] => rfl
  | _, planned, .scan msg :: es => heldScans_withoutCalls (some msg) planned es
  | last, _, .setPlan path :: es => heldScans_withoutCalls last (!path.poses.isEmpty) es
  | last, planned, .setParam _ :: es => heldScans_withoutCalls last planned es
  | last, planned, .lifecycle _ :: es => heldScans_withoutCalls last planned es
  | last, planned, .compute _ _ :: es => heldScans_withoutCalls last planned es

theorem plannedAfter_withoutCalls :
    ∀ (planned : Bool) (es : List (Event F D)),
      plannedAfter planned (withoutCalls es) = plannedAfter planned es
  | _, [] => rfl
  | planned, .scan _ :: es => plannedAfter_withoutCalls planned es
  | _, .setPlan path :: es => plannedAfter_withoutCalls (!path.poses.isEmpty) es
  | planned, .setParam _ :: es => plannedAfter_withoutCalls planned es
  | planned, .lifecycle _ :: es => plannedAfter_withoutCalls planned es
  | planned, .compute _ _ :: es => plannedAfter_withoutCalls planned es

variable [CFloat F]

/-- No usable message. -/
def Unusable (held : Option (LaserScan F)) : Prop := ∀ s, held = some s → s.usable = false

/-- Before the first usable message no call holds one. -/
theorem heldScans_unusable {es : List (Event F D)}
    (hes : ∀ msg, .scan msg ∈ es → msg.usable = false) {last : Option (LaserScan F)}
    (hlast : Unusable last) (planned : Bool) :
    ∀ held ∈ heldScans last planned es, Unusable held := by
  induction es generalizing last planned with
  | nil => simp [heldScans]
  | cons e es ih =>
      have hrest : ∀ msg, .scan msg ∈ es → msg.usable = false :=
        fun msg hmsg => hes msg (List.mem_cons_of_mem _ hmsg)
      cases e with
      | scan msg =>
          refine ih hrest (fun s hs => ?_) planned
          cases hs
          exact hes msg (List.mem_cons_self ..)
      | setPlan path => exact ih hrest hlast _
      | setParam value => exact ih hrest hlast planned
      | lifecycle call => exact ih hrest hlast planned
      | compute pose velocity =>
          intro held hheld
          rw [heldScans] at hheld
          cases List.mem_append.mp hheld with
          | inl hcall =>
              split at hcall
              · cases List.mem_singleton.mp hcall
                exact hlast
              · cases hcall
          | inr hmem => exact ih hrest hlast planned held hmem

end

/-! ## Memories seeded by the placeholder -/

/-- The placeholder. -/
def ones : RayScan := fun _ => 1

namespace ExactMemory

theorem trace_append (ys : List RayScan) :
    ∀ (m : Option ExactMemory) (xs : List RayScan),
      trace m (xs ++ ys) = trace m xs ++ trace (remember m xs) ys
  | _, [] => rfl
  | m, x :: xs => by
      rw [List.cons_append, trace, trace_append ys (some (next m x)) xs]
      rfl

theorem trace_length :
    ∀ (m : Option ExactMemory) (xs : List RayScan), (trace m xs).length = xs.length
  | _, [] => rfl
  | m, x :: xs => by rw [trace, List.length_cons, List.length_cons, trace_length]

theorem minDiff_self (x : RayScan) (s : Fin nSectors) : minDiff x x s = 0 :=
  minDiff_eq_of_sub (fun _ => sub_self _) s

/-- The scan of a memory is the last one of its history. -/
theorem trace_prevScan :
    ∀ (m : Option ExactMemory) (xs : List RayScan), (trace m xs).map prevScan = xs
  | _, [] => rfl
  | none, x :: xs => congrArg (x :: ·) (trace_prevScan (some (seed x)) xs)
  | some m, x :: xs => congrArg (x :: ·) (trace_prevScan (some (push m x)) xs)

/-- The seed repeats under its own scan. -/
theorem push_seed_self (x : RayScan) : push (seed x) x = seed x := by
  have hframes : (push (seed x) x).frames = (seed x).frames := by
    funext f
    show (if f.val = 0 then x else x) = x
    exact ite_self x
  have htemporal : (push (seed x) x).temporal = (seed x).temporal := by
    funext s
    show Ema.smooth 0.8 0 (77.8 * minDiff x x s) = 0
    rw [minDiff_self, Ema.smooth]
    ring
  exact ExactMemory.ext hframes rfl htemporal

theorem remember_ones {k : Nat} (hk : k ≠ 0) :
    remember none (List.replicate k ones) = some (seed ones) := by
  induction k with
  | zero => exact absurd rfl hk
  | succ k ih =>
      cases k with
      | zero => rfl
      | succ k =>
          have hstep := ih (Nat.succ_ne_zero k)
          rw [List.replicate_succ', remember, List.foldl_concat, ← remember, hstep]
          exact congrArg some (push_seed_self ones)

/-- The features of a memory. -/
noncomputable def features (m : ExactMemory) : List (Ieee ℝ) := m.toMemory.features

/-- Early placeholders do not show exactly when there are none, or the history
goes on with another one, or not at all. -/
theorem features_trace_iff (k : Nat) (ys : List RayScan) :
    (trace (remember none (List.replicate k ones)) ys).map features =
        (trace none ys).map features ↔
      k = 0 ∨ ∀ y, ys.head? = some y → y = ones := by
  by_cases hk : k = 0
  · subst hk
    exact ⟨fun _ => Or.inl rfl, fun _ => rfl⟩
  · rw [remember_ones hk]
    cases ys with
    | nil =>
        refine iff_of_true rfl (Or.inr fun y hy => ?_)
        cases hy
    | cons y ys =>
        constructor
        · intro h
          right
          intro y' hy'
          cases hy'
          have hhead : (next (some (seed ones)) y).toMemory.features =
              (next none y).toMemory.features := (List.cons.inj h).1
          funext j
          have hframe := features_frame (next (some (seed ones)) y).toMemory ⟨1, by decide⟩ j
          rw [hhead, features_frame] at hframe
          have hval : (fin (y j : ℝ) : Ieee ℝ) = fin (1 : ℝ) := Option.some.inj hframe
          exact Subtype.ext (Ieee.fin_inj.mp hval)
        · intro h
          have hy := h.resolve_left hk
          rw [hy y rfl]
          show List.map _ (push (seed ones) ones :: trace (some (push (seed ones) ones)) ys) = _
          rw [push_seed_self]
          rfl

end ExactMemory

/-! ## The first scan after the arrival -/

/-- Every ray that looks at a reading of the message finds it far. -/
def AllFar (host : Host (Ieee ℝ)) (held : Option (LaserScan (Ieee ℝ))) : Prop :=
  ∀ s, held = some s → s.usable = true → ∀ (i : Fin nRays) (idx : Nat) (r : Ieee ℝ),
    beamIndex host s i = .ok (idx : Int) → s.ranges[idx]? = some r →
    CFloat.isfinite r = false ∨ CFloat.le lidarCap r = true

theorem normReading_eq_one_iff (r : Ieee ℝ) :
    normReading r = fin 1 ↔ CFloat.isfinite r = false ∨ CFloat.le lidarCap r = true := by
  by_cases hfar : CFloat.isfinite r = false ∨ CFloat.le lidarCap r = true
  · refine iff_of_true ?_ hfar
    rw [normReading, if_pos (by simpa using hfar), Ieee.lit_eq, Rat.cast_one]
  · refine iff_of_false ?_ hfar
    obtain ⟨hfinite, hbelow⟩ := not_or.mp hfar
    obtain ⟨x, rfl⟩ := Ieee.isFinite_iff.mp (by simpa using hfinite : r.isFinite = true)
    rw [lidarCap_eq, Ieee.cfloat_le, Ieee.le_fin, decide_eq_true_eq, not_le] at hbelow
    rw [normReading_fin, Ieee.fin_inj, fraction_eq_one]
    exact not_le.mpr hbelow

/-- A message looks like the placeholder exactly when all of it is far. -/
theorem sampled_ones_iff {host : Host (Ieee ℝ)} {held : Option (LaserScan (Ieee ℝ))} {y : RayScan}
    (hy : SampledAs host held y.toScan) : y = ones ↔ AllFar host held := by
  cases held_usable_or held with
  | inl hu =>
      obtain ⟨s, rfl, hs⟩ := hu
      obtain ⟨x, hx, hray⟩ := (sampleScan_usable hs).mp hy
      obtain rfl := List.ofFn_injective hx
      constructor
      · intro hones s' hs' _ i idx r hidx hr
        cases hs'
        have hread := hray i
        rw [hones, sampleRay_eq_ok.mpr ⟨idx, r, hidx, hr, rfl⟩, Except.ok.injEq] at hread
        exact (normReading_eq_one_iff r).mp hread
      · intro hfar
        funext i
        obtain ⟨idx, r, hidx, hr, hval⟩ := sampleRay_eq_ok.mp (hray i)
        rw [(normReading_eq_one_iff r).mpr (hfar s rfl hs i idx r hidx hr)] at hval
        exact Subtype.ext (Ieee.fin_inj.mp hval)
  | inr hnone =>
      have hfar : AllFar host held := by
        intro s hs hu
        rw [hnone s hs] at hu
        cases hu
      exact iff_of_true (funext (sampled_placeholder hnone hy)) hfar

/-! ## Early calls -/

section
variable {D : Type} [CFloat D] [FloatCast (Ieee ℝ) D] {T : Type} {host : Host (Ieee ℝ)}
  {tf : TfBuffer T} {override : Option D} {pre post : List (Event (Ieee ℝ) D)}
  {s : LaserScan (Ieee ℝ)} {st : RLController (Ieee ℝ) D} {os : List (Output (Ieee ℝ) D)}

/-- The lidar entries of a run are the features along its samples. -/
theorem run_features {evs : List (Event (Ieee ℝ) D)}
    (h : run host (configure tf override) evs = .ok (st, os)) :
    ∃ xs : List RayScan,
      List.Forall₂ (fun held x => SampledAs host held (RayScan.toScan x))
        (heldScans none false evs) xs ∧
      (cycles os).map Cycle.features =
        (ExactMemory.trace none xs).map ExactMemory.features := by
  obtain ⟨xs, hxs, -, -, hfeatures⟩ := run_configured h
  exact ⟨xs, hxs, hfeatures⟩

/-- A sample is determined by the message. -/
theorem sampled_rightUnique : Relator.RightUnique
    (fun held x => SampledAs host held (RayScan.toScan x)) := by
  intro held x y hx hy
  rw [SampledAs] at hx hy
  rw [hx, Except.ok.injEq] at hy
  exact RayScan.toScan_injective (List.ofFn_injective hy)

/-- Messages that are not usable are sampled as the placeholder. -/
theorem sampled_unusable {helds : List (Option (LaserScan (Ieee ℝ)))} {xs : List RayScan}
    (hxs : List.Forall₂ (fun held x => SampledAs host held (RayScan.toScan x)) helds xs)
    (hhelds : ∀ held ∈ helds, Unusable held) : xs = List.replicate helds.length ones := by
  induction hxs with
  | nil => rfl
  | cons hx _ ih =>
      have hhead := hhelds _ (List.mem_cons_self ..)
      have hx : _ = ones := (sampled_ones_iff hx).mpr fun s hs hu => by
        rw [hhead s hs] at hu
        cases hu
      rw [hx, ih fun held hheld => hhelds held (List.mem_cons_of_mem _ hheld)]
      rfl

/-- The lidar entries after the arrival of a scan, with and without the early
calls. -/
theorem startup_features {st' : RLController (Ieee ℝ) D} {os' : List (Output (Ieee ℝ) D)}
    (hpre : ∀ msg, .scan msg ∈ pre → msg.usable = false)
    (h : run host (configure tf override) (pre ++ .scan s :: post) = .ok (st, os))
    (h' : run host (configure tf override) (withoutCalls pre ++ .scan s :: post) =
      .ok (st', os')) :
    ∃ ys : List RayScan,
      List.Forall₂ (fun held x => SampledAs host held (RayScan.toScan x))
        (heldScans (some s) (plannedAfter false pre) post) ys ∧
      ((cycles os).drop (heldScans none false pre).length).map Cycle.features =
        (ExactMemory.trace (ExactMemory.remember none
          (List.replicate (heldScans none false pre).length ones)) ys).map ExactMemory.features ∧
      (cycles os').map Cycle.features = (ExactMemory.trace none ys).map ExactMemory.features := by
  obtain ⟨xs, hxs, hfeatures⟩ := run_features h
  obtain ⟨ys, hys, hfeatures'⟩ := run_features h'
  rw [heldScans_append, heldScans_withoutCalls, plannedAfter_withoutCalls, List.nil_append] at hys
  rw [heldScans_append] at hxs
  have hearly := List.forall₂_take (heldScans none false pre).length hxs
  rw [List.take_left' rfl] at hearly
  have hlate := List.forall₂_drop (heldScans none false pre).length hxs
  rw [List.drop_left' rfl] at hlate
  have hsplit := List.take_append_drop (heldScans none false pre).length xs
  rw [List.right_unique_forall₂' sampled_rightUnique hlate hys, sampled_unusable hearly
    (heldScans_unusable hpre (fun s hs => by cases hs) false)] at hsplit
  refine ⟨ys, hys, ?_, hfeatures'⟩
  rw [List.map_drop, hfeatures, ← hsplit, ExactMemory.trace_append, List.map_append,
    List.drop_left' (by rw [List.length_map, ExactMemory.trace_length, List.length_replicate])]

/-- The lidar entries after the arrival of a scan are those of the run without
the calls before it exactly when there are no such calls, no call follows, or
the first message sampled after the arrival is all far.  `pre` holds no usable
message. -/
theorem startup_entries_iff {st' : RLController (Ieee ℝ) D} {os' : List (Output (Ieee ℝ) D)}
    (hpre : ∀ msg, .scan msg ∈ pre → msg.usable = false)
    (h : run host (configure tf override) (pre ++ .scan s :: post) = .ok (st, os))
    (h' : run host (configure tf override) (withoutCalls pre ++ .scan s :: post) =
      .ok (st', os')) :
    ((cycles os).drop (heldScans none false pre).length).map Cycle.features =
        (cycles os').map Cycle.features ↔
      (heldScans none false pre).length = 0 ∨
        ∀ held, (heldScans (some s) (plannedAfter false pre) post).head? = some held →
          AllFar host held := by
  obtain ⟨ys, hys, hearly, hlate⟩ := startup_features hpre h h'
  rw [hearly, hlate, ExactMemory.features_trace_iff]
  refine or_congr Iff.rfl ?_
  generalize heldScans (some s) (plannedAfter false pre) post = helds at hys
  cases hys with
  | nil => simp
  | cons hy _ =>
      simp only [List.head?_cons, Option.some.injEq, forall_eq']
      exact sampled_ones_iff hy

/-! ## Differences with a placeholder -/

/-- A usable message was received. -/
def Received (held : Option (LaserScan (Ieee ℝ))) : Prop := ∃ s, held = some s ∧ s.usable = true

/-- Of the messages held at two successive calls, both are usable, or both look like the
placeholder. -/
def Comparable (host : Host (Ieee ℝ)) (held held' : Option (LaserScan (Ieee ℝ))) : Prop :=
  (Received held ∧ Received held') ∨ (AllFar host held ∧ AllFar host held')

/-- `temporal_` takes in only differences of two scans that were really received.  What a
call takes in is how its scan, which it leaves as `prev_scan_`, differs from the one that
the call before left. -/
def TakesInReceived (helds : List (Option (LaserScan (Ieee ℝ)))) (cs : List (Cycle (Ieee ℝ) D)) :
    Prop :=
  ∀ t held held' c c', helds[t]? = some held → helds[t + 1]? = some held' → cs[t]? = some c →
    cs[t + 1]? = some c' → c.lidar.prevScan ≠ c'.lidar.prevScan → Received held ∧ Received held'

theorem received_or_allFar (host : Host (Ieee ℝ)) (held : Option (LaserScan (Ieee ℝ))) :
    Received held ∨ AllFar host held := by
  cases held_usable_or held with
  | inl hu => exact Or.inl hu
  | inr hnone =>
      right
      intro s hs hu
      rw [hnone s hs] at hu
      cases hu

/-- Two samples that differ are those of received messages, or one of them is the
placeholder and the other is not all far. -/
theorem comparable_iff {held held' : Option (LaserScan (Ieee ℝ))} {x x' : RayScan}
    (hx : SampledAs host held x.toScan) (hx' : SampledAs host held' x'.toScan) :
    (x ≠ x' → Received held ∧ Received held') ↔ Comparable host held held' := by
  constructor
  · intro h
    by_cases hboth : Received held ∧ Received held'
    · exact Or.inl hboth
    · have hsame : x = x' := by
        by_contra hne
        exact hboth (h hne)
      have hones : x = ones := by
        rcases not_and_or.mp hboth with hlast | hnext
        · exact (sampled_ones_iff hx).mpr ((received_or_allFar host held).resolve_left hlast)
        · exact hsame.trans ((sampled_ones_iff hx').mpr
            ((received_or_allFar host held').resolve_left hnext))
      exact Or.inr ⟨(sampled_ones_iff hx).mp hones, (sampled_ones_iff hx').mp (hsame ▸ hones)⟩
  · rintro (hboth | ⟨hfar, hfar'⟩) hne
    · exact hboth
    · exact absurd (((sampled_ones_iff hx).mpr hfar).trans
        ((sampled_ones_iff hx').mpr hfar').symm) hne

/-- Each cycle leaves the scan that it sampled. -/
theorem run_prevScan {evs : List (Event (Ieee ℝ) D)}
    (h : run host (configure tf override) evs = .ok (st, os)) :
    ∃ xs : List RayScan,
      List.Forall₂ (fun held x => SampledAs host held (RayScan.toScan x))
        (heldScans none false evs) xs ∧
      (cycles os).map (·.lidar.prevScan) = xs.map fun x => List.ofFn x.toScan := by
  obtain ⟨xs, hxs, -, hlidar, -⟩ := run_configured h
  refine ⟨xs, hxs, ?_⟩
  calc (cycles os).map (·.lidar.prevScan)
      = ((cycles os).map Cycle.lidar).map LidarBuffers.prevScan := List.map_map.symm
    _ = ((ExactMemory.trace none xs).map ExactMemory.prevScan).map
          fun x => List.ofFn x.toScan := by
        rw [hlidar, List.map_map, List.map_map]
        rfl
    _ = xs.map fun x => List.ofFn x.toScan := by rw [ExactMemory.trace_prevScan]

/-- A run takes in only received differences exactly if successive messages are
comparable. -/
theorem takesInReceived_iff {evs : List (Event (Ieee ℝ) D)}
    (h : run host (configure tf override) evs = .ok (st, os)) :
    TakesInReceived (heldScans none false evs) (cycles os) ↔
      (heldScans none false evs).IsChain (Comparable host) := by
  obtain ⟨xs, hxs, hprev⟩ := run_prevScan h
  generalize heldScans none false evs = helds at hxs
  generalize cycles os = cs at hprev
  have hlen := hxs.length_eq
  have hlen' : cs.length = xs.length := by simpa using congrArg List.length hprev
  have hscan : ∀ t (ht : t < cs.length) (ht' : t < xs.length),
      cs[t].lidar.prevScan = List.ofFn xs[t].toScan := by
    intro t ht ht'
    have hget := congrArg (·[t]?) hprev
    simpa [List.getElem?_map, ht, ht'] using hget
  have hsample : ∀ t (ht : t < helds.length) (ht' : t < xs.length),
      SampledAs host helds[t] xs[t].toScan := (List.forall₂_iff_get.mp hxs).2
  have hpair : ∀ t (ht : t + 1 < helds.length) (ht' : t + 1 < cs.length),
      (cs[t].lidar.prevScan ≠ cs[t + 1].lidar.prevScan →
        Received helds[t] ∧ Received helds[t + 1]) ↔ Comparable host helds[t] helds[t + 1] := by
    intro t ht ht'
    have hne : cs[t].lidar.prevScan ≠ cs[t + 1].lidar.prevScan ↔ xs[t] ≠ xs[t + 1] := by
      rw [hscan t (by omega) (by omega), hscan (t + 1) ht' (by omega)]
      exact not_congr ⟨fun heq => RayScan.toScan_injective (List.ofFn_injective heq),
        fun heq => by rw [heq]⟩
    rw [hne]
    exact comparable_iff (hsample t (by omega) (by omega))
      (hsample (t + 1) (by omega) (by omega))
  rw [List.isChain_iff_getElem]
  constructor
  · intro htakes t ht
    exact (hpair t ht (by omega)).mp (htakes t _ _ _ _ (List.getElem?_eq_getElem (by omega))
      (List.getElem?_eq_getElem ht) (List.getElem?_eq_getElem (by omega))
      (List.getElem?_eq_getElem (by omega)))
  · intro hchain t held held' c c' hheld hheld' hc hc'
    obtain ⟨_, rfl⟩ := List.getElem?_eq_some_iff.mp hheld
    obtain ⟨ht, rfl⟩ := List.getElem?_eq_some_iff.mp hheld'
    obtain ⟨_, rfl⟩ := List.getElem?_eq_some_iff.mp hc
    obtain ⟨ht', rfl⟩ := List.getElem?_eq_some_iff.mp hc'
    exact (hpair t ht ht').mpr (hchain t ht)

/-- The calls before the first usable message do not show, and only differences of
received scans are taken in, exactly if of the messages held at any two successive calls
both are usable or both look like the placeholder.  `pre` holds no usable message. -/
theorem startup_iff {st' : RLController (Ieee ℝ) D} {os' : List (Output (Ieee ℝ) D)}
    (hpre : ∀ msg, .scan msg ∈ pre → msg.usable = false)
    (h : run host (configure tf override) (pre ++ .scan s :: post) = .ok (st, os))
    (h' : run host (configure tf override) (withoutCalls pre ++ .scan s :: post) =
      .ok (st', os')) :
    (((cycles os).drop (heldScans none false pre).length).map Cycle.features =
        (cycles os').map Cycle.features ∧
      TakesInReceived (heldScans none false (pre ++ .scan s :: post)) (cycles os)) ↔
      (heldScans none false (pre ++ .scan s :: post)).IsChain (Comparable host) := by
  rw [takesInReceived_iff h, startup_entries_iff hpre h h']
  refine and_iff_right_of_imp fun hchain => ?_
  by_cases hnone : (heldScans none false pre).length = 0
  · exact Or.inl hnone
  · right
    intro held hheld
    obtain ⟨early, hearly⟩ : ∃ early, (heldScans none false pre).getLast? = some early :=
      ⟨_, List.getLast?_eq_some_getLast (List.ne_nil_of_length_pos (by omega))⟩
    have hunusable := heldScans_unusable hpre (fun s hs => by cases hs) false early
      (List.mem_of_getLast? hearly)
    rw [heldScans_append, List.isChain_append] at hchain
    rcases hchain.2.2 early hearly held hheld with ⟨⟨s', hs', hu⟩, -⟩ | ⟨-, hfar⟩
    · rw [hunusable s' hs'] at hu
      cases hu
    · exact hfar

end

/-! ## One early call -/

/-- A plan and a call before the first scan, and a call after it. -/
noncomputable def earlyCall (r : Ieee ℝ) : List (Event (Ieee ℝ) (Ieee ℝ)) :=
  [.setPlan smallPath, .compute (poseAt (lit 1) (lit 0)) still] ++
    .scan (oneBeam r) :: [.compute (poseAt (lit 1) (lit 0)) still]

noncomputable def withoutEarlyCall (r : Ieee ℝ) : List (Event (Ieee ℝ) (Ieee ℝ)) :=
  withoutCalls [.setPlan smallPath, .compute (poseAt (lit 1) (lit 0)) still] ++
    .scan (oneBeam r) :: [.compute (poseAt (lit 1) (lit 0)) still]

theorem earlyCall_runs (r : Ieee ℝ) :
    (∃ st os, run stillHost (configure noTf none) (earlyCall r) = .ok (st, os)) ∧
      ∃ st os, run stillHost (configure noTf none) (withoutEarlyCall r) = .ok (st, os) := by
  have hfits : ∀ e ∈ earlyCall r, e.Fits := by
    simp [earlyCall, Event.Fits, oneBeam]
  have hfits' : ∀ e ∈ withoutEarlyCall r, e.Fits := by
    simp [withoutEarlyCall, withoutCalls, Event.isCall, Event.Fits, oneBeam]
  obtain ⟨st, os, h, -⟩ := run_total (stillHost : Host (Ieee ℝ)) (earlyCall r)
    (configure_wellFormed noTf none) (fun s hs => by cases hs) hfits
  obtain ⟨st', os', h', -⟩ := run_total (stillHost : Host (Ieee ℝ)) (withoutEarlyCall r)
    (configure_wellFormed noTf none) (fun s hs => by cases hs) hfits'
  exact ⟨⟨st, os, h⟩, st', os', h'⟩

/-- The one beam of a scan decides whether it is far. -/
theorem oneBeam_allFar_iff (r : Ieee ℝ) :
    AllFar stillHost (some (oneBeam r)) ↔
      CFloat.isfinite r = false ∨ CFloat.le lidarCap r = true := by
  have hbeam : ∀ i, ∃ idx : Nat, beamIndex (stillHost : Host (Ieee ℝ)) (oneBeam r) i =
      .ok (idx : Int) ∧ idx = 0 := by
    intro i
    obtain ⟨idx, hidx, hlt⟩ := beamIndex_total (stillHost : Host (Ieee ℝ)) (s := oneBeam r) i
      (by simp [oneBeam]) (by simp [oneBeam])
    exact ⟨idx, hidx, by simpa [oneBeam] using hlt⟩
  constructor
  · intro h
    obtain ⟨idx, hidx, rfl⟩ := hbeam 0
    exact h (oneBeam r) rfl (by simp [LaserScan.usable, oneBeam]) ⟨0, by decide⟩ 0 r hidx rfl
  · intro h s hs _ i idx r' hidx hr'
    cases hs
    obtain ⟨idx', hidx', rfl⟩ := hbeam i
    rw [hidx', Except.ok.injEq, Nat.cast_inj] at hidx
    subst hidx
    cases hr'
    exact h

/-- An object at the robot is not far. -/
theorem oneBeam_not_allFar : ¬AllFar stillHost (some (oneBeam (fin 0))) := by
  rw [oneBeam_allFar_iff]
  rintro (hinf | hge)
  · cases hinf
  · rw [lidarCap_eq, Ieee.cfloat_le, Ieee.le_fin, decide_eq_true_eq] at hge
    norm_num at hge

theorem oneBeam_usable (r : Ieee ℝ) : (oneBeam r).usable = true := by
  simp [LaserScan.usable, oneBeam]

/-- A message without a beam. -/
noncomputable def noBeam : LaserScan (Ieee ℝ) :=
  { angleMin := lit 0, angleIncrement := lit 1, ranges := [] }

theorem not_received_noBeam : ¬Received (some noBeam) := by
  rintro ⟨s, hs, hu⟩
  cases hs
  cases hu

/-- An object at the robot, and a message without a beam. -/
noncomputable def dropout : List (Event (Ieee ℝ) (Ieee ℝ)) :=
  [.setPlan smallPath, .scan (oneBeam (fin 0)), .compute (poseAt (lit 1) (lit 0)) still,
    .scan noBeam, .compute (poseAt (lit 1) (lit 0)) still]

/-- A scan without a return looks like the placeholder. -/
theorem earlyCall_noReturn :
    ∃ st os st' os', run stillHost (configure noTf none) (earlyCall posInf) = .ok (st, os) ∧
      run stillHost (configure noTf none) (withoutEarlyCall posInf) = .ok (st', os') ∧
      ((cycles os).drop 1).map Cycle.features = (cycles os').map Cycle.features ∧
      TakesInReceived (heldScans none false (earlyCall posInf)) (cycles os) := by
  obtain ⟨⟨st, os, h⟩, st', os', h'⟩ := earlyCall_runs posInf
  have hchain : (heldScans none false (earlyCall posInf)).IsChain (Comparable stillHost) := by
    refine List.isChain_pair.mpr (Or.inr ⟨(fun s hs => by cases hs), ?_⟩)
    exact (oneBeam_allFar_iff posInf).mpr (Or.inl rfl)
  obtain ⟨hfeatures, htakes⟩ := (startup_iff (by simp) h h').mpr hchain
  exact ⟨st, os, st', os', h, h', hfeatures, htakes⟩

/-- After one early call a scan of an object at the robot shows five frames of
the placeholder.  Without one, a message without a beam lets the object jump away. -/
theorem earlyCall_visible :
    (∃ st os st' os', run stillHost (configure noTf none) (earlyCall (fin 0)) = .ok (st, os) ∧
      run stillHost (configure noTf none) (withoutEarlyCall (fin 0)) = .ok (st', os') ∧
      (oneBeam (fin 0 : Ieee ℝ)).usable = true ∧
      ((cycles os).drop 1).map Cycle.features ≠ (cycles os').map Cycle.features) ∧
    ∃ st os, run stillHost (configure noTf (none : Option (Ieee ℝ))) dropout = .ok (st, os) ∧
      ¬TakesInReceived (heldScans none false dropout) (cycles os) := by
  refine ⟨?_, ?_⟩
  · obtain ⟨⟨st, os, h⟩, st', os', h'⟩ := earlyCall_runs (fin 0)
    refine ⟨st, os, st', os', h, h', oneBeam_usable _, fun heq => ?_⟩
    obtain ⟨ys, hys, hearly, hlate⟩ := startup_features (by simp) h h'
    have htrace := (hearly.symm.trans heq).trans hlate
    cases (ExactMemory.features_trace_iff 1 ys).mp htrace with
    | inl hone => cases hone
    | inr hys' =>
        cases hys with
        | cons hy _ => exact oneBeam_not_allFar ((sampled_ones_iff hy).mp (hys' _ rfl))
  · obtain ⟨st, os, h, -⟩ := run_total stillHost dropout
      (configure_wellFormed noTf (none : Option (Ieee ℝ))) (fun s hs => by cases hs)
      (by simp [dropout, Event.Fits, oneBeam, noBeam])
    refine ⟨st, os, h, fun htakes => ?_⟩
    rcases List.isChain_pair.mp ((takesInReceived_iff h).mp htakes) with ⟨-, hlost⟩ | ⟨hfar, -⟩
    · exact not_received_noBeam hlost
    · exact oneBeam_not_allFar hfar

end RLNav
