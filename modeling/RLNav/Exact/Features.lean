import RLNav.Exact.LidarMemory

/-!
# The lidar features in exact arithmetic

Two readings of the same refinement.  The temporal features of every reachable
state keep the bounds that `ExactMemory` carries (`temporal_bounds`).  And the
lidar entries of every observation are a closed form in the scans sampled so far
(`features_of_history`): the newest six scans, the first one filling the stack
before there are six, and a geometrically weighted sum of the least range
differences per sector.
-/

namespace RLNav

open Ieee (fin)
open CFloat (lit)

/-! ## Reading a memory's features -/

section
variable {F : Type} [CFloat F]

theorem features_frame (m : Memory F) (f : Fin nFrames) (k : Fin nRays) :
    m.features[90 * f.val + k.val]? = some (m.frames f k) := by
  have hflat := Blocks.getElem?_flatten_ofFn m.frames f k
  rw [Memory.features, List.getElem?_append_left]
  · exact hflat
  · exact (List.getElem?_eq_some_iff.mp hflat).1

theorem features_sector (m : Memory F) (s : Fin nSectors) :
    m.features[540 + s.val]? =
      some (CFloat.clamp (m.temporal s / temporalOut) (lit (-1.0)) (lit 1.0)) := by
  have hlen : (List.ofFn fun f => List.ofFn (m.frames f)).flatten.length = 540 := by
    have := features_length m
    rw [Memory.features, List.length_append, List.length_ofFn] at this
    exact Nat.add_right_cancel this
  rw [Memory.features, List.getElem?_append_right (by omega), hlen, Nat.add_sub_cancel_left,
    List.getElem?_ofFn, dif_pos s.isLt]

end

/-- The clamp of a temporal feature, on finite values. -/
theorem clamp_temporal (t : ℝ) :
    CFloat.clamp (fin t / temporalOut : Ieee ℝ) (lit (-1.0)) (lit 1.0) =
      fin (max (-1) (min (t / 0.05) 1)) := by
  have hout : (temporalOut : Ieee ℝ) = fin 0.05 := by
    rw [temporalOut, Ieee.lit_eq]
    norm_num
  rw [hout, Ieee.lit_neg_one, Ieee.lit_one, Ieee.div_fin _ (by norm_num),
    Ieee.clamp_fin _ _ _ (by norm_num)]

/-! ## The bounds of the temporal features -/

section
variable {D : Type} [CFloat D] [FloatCast (Ieee ℝ) D] {T : Type}

/-- The lidar members of every reachable state hold an exact memory, or none. -/
theorem run_configured {host : Host (Ieee ℝ)} {tf : TfBuffer T} {override : Option D}
    {evs : List (Event (Ieee ℝ) D)} {st : RLController (Ieee ℝ) D}
    {os : List (Output (Ieee ℝ) D)} (h : run host (configure tf override) evs = .ok (st, os)) :
    ∃ xs : List RayScan,
      List.Forall₂ (fun held x => SampledAs host held (RayScan.toScan x))
        (heldScans none false evs) xs ∧
      st.lidar = Memory.buffers ((ExactMemory.remember none xs).map ExactMemory.toMemory) ∧
      (cycles os).map Cycle.lidar =
        (ExactMemory.trace none xs).map (Memory.buffers ∘ some ∘ ExactMemory.toMemory) ∧
      (cycles os).map Cycle.features =
        (ExactMemory.trace none xs).map (Memory.features ∘ ExactMemory.toMemory) :=
  run_exactLidar (m := none) rfl h

/-- A controller that has sampled a scan has seeded its buffers. -/
theorem run_ready {host : Host (Ieee ℝ)} {tf : TfBuffer T} {override : Option D}
    {evs : List (Event (Ieee ℝ) D)} {st : RLController (Ieee ℝ) D}
    {os : List (Output (Ieee ℝ) D)} (h : run host (configure tf override) evs = .ok (st, os))
    (hheld : heldScans none false evs ≠ []) : st.lidar.buffersReady = true := by
  obtain ⟨xs, hxs, hlidar, -⟩ := run_configured h
  generalize heldScans none false evs = helds at hxs hheld
  cases hxs with
  | nil => exact absurd rfl hheld
  | @cons held x helds xs hx hxs =>
      have hsome : ∀ (xs : List RayScan) (m : ExactMemory),
          ∃ m', ExactMemory.remember (some m) xs = some m' := by
        intro xs
        induction xs with
        | nil => exact fun m => ⟨m, rfl⟩
        | cons x xs ih => exact fun m => ih _
      obtain ⟨m', hm'⟩ := hsome xs (ExactMemory.seed x)
      have hmem : ExactMemory.remember none (x :: xs) = some m' := hm'
      rw [hlidar, hmem]
      rfl

/-- The temporal feature of a sector lies strictly above `-77.8` and at most at
`15.56` times the least reading of the previous scan in the sector. -/
theorem temporal_bounds {host : Host (Ieee ℝ)} {tf : TfBuffer T} {override : Option D}
    {evs : List (Event (Ieee ℝ) D)} {st : RLController (Ieee ℝ) D}
    {os : List (Output (Ieee ℝ) D)} (h : run host (configure tf override) evs = .ok (st, os))
    (hready : st.lidar.buffersReady = true) (s : Fin nSectors) :
    ∃ τ μ : ℝ, st.lidar.temporal[s.val]? = some (fin τ) ∧
      IsLeast {r : ℝ | ∃ k ∈ sector s, st.lidar.prevScan[k.val]? = some (fin r)} μ ∧
      -77.8 < τ ∧ τ ≤ 15.56 * μ ∧ τ ≤ 15.56 ∧ (μ = 0 → τ ≤ 0) := by
  obtain ⟨xs, -, hlidar, -⟩ := run_configured h
  cases hmem : ExactMemory.remember none xs with
  | none =>
      rw [hlidar, hmem] at hready
      cases hready
  | some m =>
      rw [hmem] at hlidar
      have hprev : ∀ k : Fin nRays,
          st.lidar.prevScan[k.val]? = some (fin (m.prevScan k : ℝ)) := by
        intro k
        rw [hlidar]
        simp [Memory.buffers, ExactMemory.toMemory, RayScan.toScan]
      obtain ⟨k, hk, hmin⟩ := Finset.exists_min_image (sector s).toFinset
        (fun k => (m.prevScan k : ℝ)) (sector_nonempty s)
      have hk : k ∈ sector s := List.mem_toFinset.mp hk
      have hupper := m.upper s k hk
      have hone := (m.prevScan k).2.2
      refine ⟨m.temporal s, m.prevScan k, ?_, ⟨⟨k, hk, hprev k⟩, ?_⟩, m.lower s, hupper, ?_, ?_⟩
      · rw [hlidar]
        simp [Memory.buffers, ExactMemory.toMemory]
      · rintro r ⟨j, hj, hr⟩
        rw [hprev j, Option.some.injEq, Ieee.fin_inj] at hr
        exact hr ▸ hmin j (List.mem_toFinset.mpr hj)
      · linarith
      · intro hzero
        rw [hzero, mul_zero] at hupper
        exact hupper

end

theorem smallRun_temporal_bounds :
    ∃ st os, run (stillHost : Host (Ieee ℝ)) (configure noTf (none : Option (Ieee ℝ))) smallRun =
        .ok (st, os) ∧ st.lidar.buffersReady = true ∧ ∀ s : Fin nSectors,
      ∃ τ μ : ℝ, st.lidar.temporal[s.val]? = some (fin τ) ∧
        IsLeast {r : ℝ | ∃ k ∈ sector s, st.lidar.prevScan[k.val]? = some (fin r)} μ ∧
        -77.8 < τ ∧ τ ≤ 15.56 * μ ∧ τ ≤ 15.56 ∧ (μ = 0 → τ ≤ 0) := by
  obtain ⟨st, os, h⟩ := smallRun_total (F := Ieee ℝ) (D := Ieee ℝ)
  have hready := run_ready h (by rw [smallRun_held]; simp)
  exact ⟨st, os, h, hready, temporal_bounds h hready⟩

/-! ## The observation is a function of the scan history -/

namespace ExactMemory

/-- The memory after the scans `x 1, …, x (t + 1)`. -/
noncomputable def after (x : Nat → RayScan) : Nat → ExactMemory
  | 0 => seed (x 1)
  | t + 1 => push (after x t) (x (t + 2))

theorem trace_after (x : Nat → RayScan) :
    ∀ (ys : List RayScan) (n : Nat), (∀ i y, ys[i]? = some y → x (n + 2 + i) = y) →
      trace (some (after x n)) ys = (List.range' (n + 1) ys.length).map (after x)
  | [], _, _ => rfl
  | y :: ys, n, h => by
      have hy : y = x (n + 2) := (h 0 y rfl).symm
      have htail : ∀ i z, ys[i]? = some z → x (n + 1 + 2 + i) = z := by
        intro i z hz
        rw [← h (i + 1) z hz]
        congr 1
        omega
      rw [trace, List.length_cons, List.range'_succ, List.map_cons, hy]
      exact congrArg _ (trace_after x ys (n + 1) htail)

/-- The memories along a history. -/
theorem trace_eq_map {x : Nat → RayScan} {ys : List RayScan}
    (h : ∀ i y, ys[i]? = some y → x (i + 1) = y) :
    trace none ys = (List.range ys.length).map (after x) := by
  cases ys with
  | nil => rfl
  | cons y ys =>
      have hy : y = x 1 := (h 0 y rfl).symm
      have htail : ∀ i z, ys[i]? = some z → x (0 + 2 + i) = z := by
        intro i z hz
        rw [← h (i + 1) z hz]
        congr 1
        omega
      rw [trace, List.length_cons, List.range_eq_range', List.range'_succ, List.map_cons, hy]
      exact congrArg _ (trace_after x ys 0 htail)

/-- Frame `f` is the scan `f` calls ago, or the first one. -/
theorem after_frames (x : Nat → RayScan) (t : Nat) (f : Fin nFrames) :
    (after x t).frames f = x (max (t + 1 - f) 1) := by
  induction t generalizing f with
  | zero =>
      show x 1 = _
      congr 1
      omega
  | succ t ih =>
      show (if f.val = 0 then x (t + 2) else (after x t).frames (newer f)) = _
      split
      · congr 1
        omega
      · rw [ih]
        show x (max (t + 1 - (f.val - 1)) 1) = _
        congr 1
        omega

theorem after_prevScan (x : Nat → RayScan) (t : Nat) : (after x t).prevScan = x (t + 1) := by
  cases t with
  | zero => rfl
  | succ t => rfl

/-- The sector difference is an average of the least range differences. -/
theorem after_temporal (x : Nat → RayScan) (t : Nat) (s : Fin nSectors) :
    (after x t).temporal s =
      Ema.average 0.8 (fun i => 77.8 * minDiff (x (i + 2)) (x (i + 1)) s) t := by
  induction t with
  | zero => rfl
  | succ t ih =>
      show Ema.smooth 0.8 ((after x t).temporal s)
        (77.8 * minDiff (x (t + 2)) (after x t).prevScan s) = _
      rw [ih, after_prevScan]
      rfl

end ExactMemory

/-- The sector difference at the `t`-th call with the scans `x 1, …, x t`. -/
noncomputable def historyDiff (x : Nat → RayScan) (s : Fin nSectors) (t : Nat) : ℝ :=
  77.8 * 0.2 * ∑ i ∈ Finset.Icc 2 t, 0.8 ^ (t - i) * minDiff (x i) (x (i - 1)) s

theorem historyDiff_eq (x : Nat → RayScan) (s : Fin nSectors) (t : Nat) :
    (ExactMemory.after x t).temporal s = historyDiff x s (t + 1) := by
  have hshift : ∑ i ∈ Finset.Icc 2 (t + 1), (0.8 : ℝ) ^ (t + 1 - i) * minDiff (x i) (x (i - 1)) s =
      ∑ i ∈ Finset.range t, 0.8 ^ (t - 1 - i) * minDiff (x (i + 2)) (x (i + 1)) s := by
    rw [Finset.range_eq_Ico, ← Finset.Ico_add_one_right_eq_Icc, show t + 1 + 1 = t + 2 from rfl,
      ← Finset.sum_Ico_add' (fun i => (0.8 : ℝ) ^ (t + 1 - i) * minDiff (x i) (x (i - 1)) s) 0 t 2]
    refine Finset.sum_congr rfl fun i _ => ?_
    rw [show t + 1 - (i + 2) = t - 1 - i by omega]
    rfl
  rw [ExactMemory.after_temporal, Ema.average_eq_sum, historyDiff, hshift, mul_assoc,
    Finset.mul_sum, Finset.mul_sum, Finset.mul_sum]
  refine Finset.sum_congr rfl fun i _ => ?_
  ring

/-- The lidar entries of an observation in terms of the scans sampled so far. -/
structure HistoryFeatures (x : Nat → RayScan) (t : Nat) {D : Type} (c : Cycle (Ieee ℝ) D) :
    Prop where
  frames : ∀ (f : Fin nFrames) (k : Fin nRays),
    c.obs.cells[90 * f.val + k.val]? = some (fin (x (max (t - f) 1) k : ℝ))
  temporal : ∀ s : Fin nSectors, c.lidar.temporal[s.val]? = some (fin (historyDiff x s t))
  sectors : ∀ s : Fin nSectors, c.obs.cells[540 + s.val]? =
    some (fin (max (-1) (min (historyDiff x s t / 0.05) 1)))

/-- A cycle that shows the memory after `t + 1` scans. -/
theorem historyFeatures_of_after {D : Type} {x : Nat → RayScan} {t : Nat}
    {c : Cycle (Ieee ℝ) D}
    (hlidar : c.lidar = Memory.buffers (some (ExactMemory.after x t).toMemory))
    (hfeatures : c.features = (ExactMemory.after x t).toMemory.features) :
    HistoryFeatures x (t + 1) c := by
  have hobs : ∀ i < 548, c.obs.cells[i]? = (ExactMemory.after x t).toMemory.features[i]? := by
    intro i hi
    rw [← hfeatures, Cycle.features, List.getElem?_take_of_lt hi]
  refine ⟨fun f k => ?_, fun s => ?_, fun s => ?_⟩
  · have hlt : 90 * f.val + k.val < 548 := by
      have hf : f.val < 6 := f.isLt
      have hk : k.val < 90 := k.isLt
      omega
    rw [hobs _ hlt, features_frame]
    show some (((ExactMemory.after x t).frames f).toScan k) = _
    rw [ExactMemory.after_frames]
    rfl
  · rw [hlidar, ← historyDiff_eq]
    simp [Memory.buffers, ExactMemory.toMemory]
  · have hlt : 540 + s.val < 548 := Nat.add_lt_add_left s.isLt 540
    rw [hobs _ hlt, features_sector, ← historyDiff_eq]
    exact congrArg some (clamp_temporal _)

/-- The sectors partition the rays in order, and the first ones are one ray
longer. -/
theorem sector_partition :
    (List.ofFn sector).flatten = List.finRange nRays ∧
      (∀ s, (sector s).length = nRays / nSectors + if s.val < nRays % nSectors then 1 else 0) ∧
      ∀ k, ∃! s, k ∈ sector s := by
  refine ⟨Blocks.flatten_block nRays nSectors (by decide), fun s => List.length_ofFn, fun k => ?_⟩
  obtain ⟨s, ⟨hs, hk⟩, huniq⟩ :=
    Blocks.existsUnique_block nRays nSectors k.isLt (by decide : 0 < nSectors)
  refine ⟨⟨s, hs⟩, Blocks.mem_block nRays nSectors |>.mpr hk, fun t ht => Fin.ext ?_⟩
  exact huniq t ⟨t.isLt, Blocks.mem_block nRays nSectors |>.mp ht⟩

section
variable {D : Type} [CFloat D] [FloatCast (Ieee ℝ) D] {T : Type}

/-- The memories along a run, with the sampled scans counted from one. -/
theorem run_history {host : Host (Ieee ℝ)} {tf : TfBuffer T} {override : Option D}
    {evs : List (Event (Ieee ℝ) D)} {st : RLController (Ieee ℝ) D}
    {os : List (Output (Ieee ℝ) D)} (h : run host (configure tf override) evs = .ok (st, os)) :
    ∃ x : Nat → RayScan,
      (∀ (i : Nat) (held : Option (LaserScan (Ieee ℝ))),
        (heldScans none false evs)[i]? = some held → SampledAs host held (x (i + 1)).toScan) ∧
      (cycles os).length = (heldScans none false evs).length ∧
      ∀ (t : Nat) (c : Cycle (Ieee ℝ) D), (cycles os)[t]? = some c →
        HistoryFeatures x (t + 1) c := by
  obtain ⟨xs, hxs, -, hcycles, hfeatures⟩ := run_configured h
  let x : Nat → RayScan := fun i => xs.getD (i - 1) fun _ => 1
  have hx : ∀ i y, xs[i]? = some y → x (i + 1) = y := by
    intro i y hy
    simp [x, List.getD, hy]
  rw [ExactMemory.trace_eq_map hx, List.map_map] at hcycles hfeatures
  have hlen : (cycles os).length = xs.length := by
    have := congrArg List.length hcycles
    simpa using this
  refine ⟨x, fun i held hheld => ?_, by rw [hlen, hxs.length_eq], fun t c hc => ?_⟩
  · obtain ⟨hi, rfl⟩ := List.getElem?_eq_some_iff.mp hheld
    have hi' : i < xs.length := hxs.length_eq ▸ hi
    rw [hx i xs[i] (List.getElem?_eq_getElem hi')]
    exact (List.forall₂_iff_get.mp hxs).2 i hi hi'
  · have ht : t < xs.length := by
      rw [← hlen]
      exact (List.getElem?_eq_some_iff.mp hc).1
    refine historyFeatures_of_after ?_ ?_
    · have := congrArg (fun l => l[t]?) hcycles
      simpa [hc, ht] using this
    · have := congrArg (fun l => l[t]?) hfeatures
      simpa [hc, ht] using this

/-- The lidar entries of the observation are the documented function of the
scans sampled at the calls on a non-empty plan.  The buffers do not change
elsewhere, and calls on an empty plan can be removed from a run. -/
theorem features_of_history {host : Host (Ieee ℝ)} {tf : TfBuffer T} {override : Option D}
    {evs : List (Event (Ieee ℝ) D)} {st : RLController (Ieee ℝ) D}
    {os : List (Output (Ieee ℝ) D)} (h : run host (configure tf override) evs = .ok (st, os)) :
    (∃ x : Nat → RayScan,
      (∀ (i : Nat) (held : Option (LaserScan (Ieee ℝ))),
        (heldScans none false evs)[i]? = some held → SampledAs host held (x (i + 1)).toScan) ∧
      (cycles os).length = (heldScans none false evs).length ∧
      ∀ (t : Nat) (c : Cycle (Ieee ℝ) D), (cycles os)[t]? = some c →
        HistoryFeatures x (t + 1) c) ∧
    ((List.ofFn sector).flatten = List.finRange nRays ∧
      (∀ s, (sector s).length = nRays / nSectors + if s.val < nRays % nSectors then 1 else 0) ∧
      ∀ k, ∃! s, k ∈ sector s) ∧
    (∀ path : Path D, (setPlan st path).lidar = st.lidar) ∧
    (st.currentPath.poses = [] → ∀ pose velocity, ∃ cmd,
      computeVelocityCommands host st pose velocity = .ok (st, .stop cmd)) ∧
    ∃ os', run host (configure tf override) (withoutIdle false evs) = .ok (st, os') ∧
      cycles os' = cycles os := by
  refine ⟨run_history h, sector_partition, fun path => rfl, fun hplan pose velocity => ?_, ?_⟩
  · exact ⟨_, compute_empty hplan⟩
  · exact run_withoutIdle (configure_wellFormed tf override) h

end

theorem smallRun_features :
    ∃ st os, run (stillHost : Host (Ieee ℝ)) (configure noTf (none : Option (Ieee ℝ))) smallRun =
        .ok (st, os) ∧
      ∃ x : Nat → RayScan, (cycles os).length = 2 ∧
        ∀ (t : Nat) (c : Cycle (Ieee ℝ) (Ieee ℝ)), (cycles os)[t]? = some c →
          HistoryFeatures x (t + 1) c := by
  obtain ⟨st, os, h⟩ := smallRun_total (F := Ieee ℝ) (D := Ieee ℝ)
  obtain ⟨⟨x, -, hlen, hx⟩, -⟩ := features_of_history h
  rw [smallRun_held] at hlen
  exact ⟨st, os, h, x, hlen, hx⟩

end RLNav
