import RLNav.Exact.Features

/-!
# Fading memory

No operation of the controller resets the lidar members, so a new plan starts
with what the last one left.  It does not last.  A scan overwrites the newest
frame and the previous scan, so after six common scans two controllers agree in
both, and every further common scan contracts the difference of their sector
differences by `0.8`.  Before that the difference is within the range of a
sector difference, which is `93.36` (`fading_memory`).
-/

namespace RLNav

open Ieee (fin)
open CFloat (lit)

namespace ExactMemory

/-! ## Two memories under common scans -/

/-- Two memories that took the same last `n + 1` scans. -/
structure Agree (n : Nat) (m m' : ExactMemory) : Prop where
  frames : ∀ f : Fin nFrames, f.val ≤ n → m.frames f = m'.frames f
  prevScan : m.prevScan = m'.prevScan
  temporal : ∀ s, |m.temporal s - m'.temporal s| ≤ 0.8 ^ n * 93.36

theorem temporal_le (m : ExactMemory) (s : Fin nSectors) : m.temporal s ≤ 15.56 := by
  obtain ⟨k, hk⟩ := sector_nonempty s
  have hupper := m.upper s k (List.mem_toFinset.mp hk)
  have hone := (m.prevScan k).2.2
  linarith

theorem next_frames_zero (m : Option ExactMemory) (x : RayScan) {f : Fin nFrames}
    (hf : f.val = 0) : (next m x).frames f = x := by
  cases m with
  | none => rfl
  | some m => exact if_pos hf

theorem next_prevScan (m : Option ExactMemory) (x : RayScan) : (next m x).prevScan = x := by
  cases m with
  | none => rfl
  | some m => rfl

/-- The first common scan, from any two pasts. -/
theorem agree_first (m m' : Option ExactMemory) (x : RayScan) :
    Agree 0 (next m x) (next m' x) where
  frames f hf := by
    have hzero : f.val = 0 := Nat.le_zero.mp hf
    rw [next_frames_zero m x hzero, next_frames_zero m' x hzero]
  prevScan := by rw [next_prevScan, next_prevScan]
  temporal s := by
    have hlower := (next m x).lower s
    have hlower' := (next m' x).lower s
    have hupper := (next m x).temporal_le s
    have hupper' := (next m' x).temporal_le s
    rw [pow_zero, one_mul, abs_sub_le_iff]
    exact ⟨by linarith, by linarith⟩

/-- One more common scan. -/
theorem Agree.push {n : Nat} {m m' : ExactMemory} (h : Agree n m m') (x : RayScan) :
    Agree (n + 1) (push m x) (push m' x) where
  frames f hf := by
    show (if f.val = 0 then x else m.frames (newer f)) =
      if f.val = 0 then x else m'.frames (newer f)
    split
    · rfl
    · refine h.frames (newer f) ?_
      show f.val - 1 ≤ n
      omega
  prevScan := rfl
  temporal s := by
    show |Ema.smooth 0.8 (m.temporal s) (77.8 * minDiff x m.prevScan s) -
      Ema.smooth 0.8 (m'.temporal s) (77.8 * minDiff x m'.prevScan s)| ≤ _
    have hdiff := h.temporal s
    rw [h.prevScan, Ema.abs_smooth_sub (by norm_num), pow_succ']
    linarith

theorem Agree.remember {n : Nat} {m m' : ExactMemory} (h : Agree n m m') (xs : List RayScan) :
    ∃ r r', remember (some m) xs = some r ∧ remember (some m') xs = some r' ∧
      Agree (n + xs.length) r r' := by
  induction xs generalizing n m m' with
  | nil => exact ⟨m, m', rfl, rfl, h⟩
  | cons x xs ih =>
      obtain ⟨r, r', hr, hr', hagree⟩ := ih (h.push x)
      refine ⟨r, r', hr, hr', ?_⟩
      rwa [List.length_cons, Nat.add_comm xs.length, ← Nat.add_assoc]

/-- Two histories with a common end. -/
theorem agree_of_common (past past' : List RayScan) (x : RayScan) (xs : List RayScan) :
    ∃ r r', remember none (past ++ x :: xs) = some r ∧
      remember none (past' ++ x :: xs) = some r' ∧ Agree xs.length r r' := by
  obtain ⟨r, r', hr, hr', hagree⟩ :=
    (agree_first (remember none past) (remember none past') x).remember xs
  rw [Nat.zero_add] at hagree
  refine ⟨r, r', ?_, ?_, hagree⟩
  · rw [remember, List.foldl_append]
    exact hr
  · rw [remember, List.foldl_append]
    exact hr'

end ExactMemory

/-! ## Two runs -/

section
variable {D : Type} [CFloat D] [FloatCast (Ieee ℝ) D] {T T' : Type}

/-- The scans sampled by the calls of a run on a non-empty plan. -/
noncomputable def samples (host : Host (Ieee ℝ)) (evs : List (Event (Ieee ℝ) D)) :
    List (Except Checked.Fault (List (Ieee ℝ))) :=
  (heldScans none false evs).map (sampleScan host)

/-- The lidar members of a run, from its samples. -/
theorem run_samples {host : Host (Ieee ℝ)} {tf : TfBuffer T} {override : Option D}
    {evs : List (Event (Ieee ℝ) D)} {st : RLController (Ieee ℝ) D}
    {os : List (Output (Ieee ℝ) D)} (h : run host (configure tf override) evs = .ok (st, os)) :
    ∃ ys : List RayScan, samples host evs = ys.map (fun y => .ok (List.ofFn y.toScan)) ∧
      st.lidar = Memory.buffers ((ExactMemory.remember none ys).map ExactMemory.toMemory) := by
  obtain ⟨ys, hys, hlidar, -⟩ := run_configured h
  refine ⟨ys, ?_, hlidar⟩
  have heq : List.Forall₂ Eq ((heldScans none false evs).map (sampleScan host))
      (ys.map fun y => .ok (List.ofFn y.toScan)) :=
    List.forall₂_map_left_iff.mpr (List.forall₂_map_right_iff.mpr hys)
  rwa [List.forall₂_eq_eq_eq] at heq

theorem sample_injective {y y' : RayScan}
    (h : (.ok (List.ofFn y.toScan) : Except Checked.Fault (List (Ieee ℝ))) =
      .ok (List.ofFn y'.toScan)) : y = y' :=
  RayScan.toScan_injective (List.ofFn_injective (Except.ok.inj h))

/-- Two runs whose last calls on a non-empty plan sampled the same scans, six or
more, hold the same frames, and sector differences that differ by a term that
vanishes geometrically. -/
theorem fading_memory {host host' : Host (Ieee ℝ)} {tf : TfBuffer T} {tf' : TfBuffer T'}
    {override override' : Option D} {evs evs' : List (Event (Ieee ℝ) D)}
    {st st' : RLController (Ieee ℝ) D} {os os' : List (Output (Ieee ℝ) D)}
    (h : run host (configure tf override) evs = .ok (st, os))
    (h' : run host' (configure tf' override') evs' = .ok (st', os'))
    {common : List (Except Checked.Fault (List (Ieee ℝ)))} (hsix : 6 ≤ common.length)
    (hlast : common <:+ samples host evs) (hlast' : common <:+ samples host' evs') :
    st.lidar.frames = st'.lidar.frames ∧ st.lidar.prevScan = st'.lidar.prevScan ∧
      ∀ s : Fin nSectors, ∃ τ τ' : ℝ, st.lidar.temporal[s.val]? = some (fin τ) ∧
        st'.lidar.temporal[s.val]? = some (fin τ') ∧
        |τ - τ'| ≤ 0.8 ^ (common.length - 1) * 93.36 := by
  obtain ⟨ys, hys, hlidar⟩ := run_samples h
  obtain ⟨ys', hys', hlidar'⟩ := run_samples h'
  rw [hys, List.suffix_map_iff] at hlast
  rw [hys', List.suffix_map_iff] at hlast'
  obtain ⟨zs, ⟨past, rfl⟩, hzs⟩ := hlast
  obtain ⟨zs', ⟨past', rfl⟩, hzs'⟩ := hlast'
  obtain rfl : zs = zs' :=
    List.map_injective_iff.mpr (fun _ _ => sample_injective) (hzs.symm.trans hzs')
  have hlen : common.length = zs.length := by rw [hzs, List.length_map]
  cases zs with
  | nil => rw [hlen] at hsix; cases hsix
  | cons x xs =>
      obtain ⟨r, r', hr, hr', hagree⟩ := ExactMemory.agree_of_common past past' x xs
      rw [hlidar, hlidar', hr, hr']
      rw [List.length_cons] at hlen
      have hframes : r.frames = r'.frames := by
        funext f
        refine hagree.frames f ?_
        have hf : f.val < 6 := f.isLt
        omega
      refine ⟨?_, ?_, fun s => ⟨r.temporal s, r'.temporal s, ?_, ?_, ?_⟩⟩
      · simp [Memory.buffers, ExactMemory.toMemory, hframes]
      · simp [Memory.buffers, ExactMemory.toMemory, hagree.prevScan]
      · simp [Memory.buffers, ExactMemory.toMemory]
      · simp [Memory.buffers, ExactMemory.toMemory]
      · rw [hlen, Nat.add_sub_cancel]
        exact hagree.temporal s

end

/-! ## A late start -/

/-- Six calls at one pose. -/
noncomputable def sixCalls : List (Event (Ieee ℝ) (Ieee ℝ)) :=
  List.replicate 6 (.compute (poseAt (lit 1) (lit 0)) still)

/-- A run that waits for the scan. -/
noncomputable def waitingRun : List (Event (Ieee ℝ) (Ieee ℝ)) :=
  [.setPlan smallPath, .scan (oneBeam (lit 1))] ++ sixCalls

/-- A run that called once before the scan arrived. -/
noncomputable def eagerRun : List (Event (Ieee ℝ) (Ieee ℝ)) :=
  [.setPlan smallPath, .compute (poseAt (lit 2) (lit 0)) still, .setPlan smallPath,
    .scan (oneBeam (lit 1))] ++ sixCalls

theorem waitingRun_eagerRun :
    ∃ st os st' os',
      run stillHost (configure noTf (none : Option (Ieee ℝ))) waitingRun = .ok (st, os) ∧
      run stillHost (configure noTf (none : Option (Ieee ℝ))) eagerRun = .ok (st', os') ∧
      st.lidar.frames = st'.lidar.frames ∧
      ∀ s : Fin nSectors, ∃ τ τ' : ℝ, st.lidar.temporal[s.val]? = some (fin τ) ∧
        st'.lidar.temporal[s.val]? = some (fin τ') ∧ |τ - τ'| ≤ 0.8 ^ 5 * 93.36 := by
  obtain ⟨st, os, h, -⟩ := run_total stillHost waitingRun
    (configure_wellFormed noTf (none : Option (Ieee ℝ))) (fun s hs => by cases hs)
    (by simp [waitingRun, sixCalls, Event.Fits, oneBeam])
  obtain ⟨st', os', h', -⟩ := run_total stillHost eagerRun
    (configure_wellFormed noTf (none : Option (Ieee ℝ))) (fun s hs => by cases hs)
    (by simp [eagerRun, sixCalls, Event.Fits, oneBeam])
  have hlast : List.replicate 6 (sampleScan stillHost (some (oneBeam (lit 1)))) <:+
      samples stillHost waitingRun := List.suffix_refl _
  have hlast' : List.replicate 6 (sampleScan stillHost (some (oneBeam (lit 1)))) <:+
      samples stillHost eagerRun := ⟨[sampleScan stillHost none], rfl⟩
  obtain ⟨hframes, -, htemporal⟩ := fading_memory h h' (by simp) hlast hlast'
  exact ⟨st, os, st', os', h, h', hframes, by simpa using htemporal⟩

end RLNav
