import RLNav.Exact.Features

/-!
# Nearer readings

Two scans of one lidar, each reading of the first at most the reading of the
second.  Sampling divides by the cap and clamps, a sector takes a minimum and the
smoothing weighs with positive weights, so frames and sector differences follow
the order of the readings.

The exception is `-∞`, the reading of an object closer than the lidar can
measure: `sampleScan` takes every value that is not finite as far, so `-∞` comes
out as `1.0`.  The order holds exactly when no ray looks at a reading of `-∞`
whose counterpart is finite and below the cap (`nearer_iff`).
-/

namespace RLNav

open Ieee (fin nan posInf negInf)
open CFloat (lit)
open Checked (Fault ok_bind bind_eq_ok)

/-! ## Readings -/

/-- A reading of `-∞` beside a finite one below the cap. -/
def TooClose (r r' : Ieee ℝ) : Prop := r = negInf ∧ ∃ x : ℝ, x < 3.5 ∧ r' = fin x

/-- Sampling keeps the order of two readings except when the nearer one is too
close to be measured. -/
theorem normReading_le_iff {r r' : Ieee ℝ} {a a' : ℝ} (hle : Ieee.Le r r')
    (ha : normReading r = fin a) (ha' : normReading r' = fin a') :
    a ≤ a' ↔ ¬ TooClose r r' := by
  have hunit : ∀ {r : Ieee ℝ} {a : ℝ}, normReading r = fin a → a ≤ 1 := by
    intro r a ha
    obtain ⟨v, hv⟩ := normReading_exact r
    rw [hv, Ieee.fin_inj] at ha
    exact ha ▸ v.2.2
  cases r' with
  | fin x' =>
      rw [normReading_fin, Ieee.fin_inj] at ha'
      rcases hle.fin_cases with rfl | ⟨x, rfl, hx⟩
      · rw [normReading_of_not_finite rfl, Ieee.fin_inj] at ha
        subst ha ha'
        rw [one_le_fraction]
        constructor
        · rintro hge ⟨-, y, hy, hxy⟩
          obtain rfl := Ieee.fin_inj.mp hxy
          exact absurd hge (not_le.mpr hy)
        · intro h
          exact not_lt.mp fun hlt => h ⟨rfl, x', hlt, rfl⟩
      · rw [normReading_fin, Ieee.fin_inj] at ha
        subst ha ha'
        constructor
        · rintro - ⟨h, -⟩
          cases h
        · intro _
          exact max_le_max le_rfl (min_le_min (by gcongr) le_rfl)
  | posInf =>
      rw [normReading_of_not_finite rfl, Ieee.fin_inj] at ha'
      subst ha'
      constructor
      · rintro - ⟨-, x, -, h⟩
        cases h
      · intro _
        exact hunit ha
  | negInf =>
      rw [normReading_of_not_finite rfl, Ieee.fin_inj] at ha'
      subst ha'
      constructor
      · rintro - ⟨-, x, -, h⟩
        cases h
      · intro _
        exact hunit ha
  | nan => cases r <;> simp [Ieee.Le, Ieee.le, Ieee.lt, Ieee.eq] at hle

/-! ## Scans -/

/-- Scans of one geometry, the readings of the first at most those of the
second.  A NaN is in no such pair. -/
structure Nearer (s s' : LaserScan (Ieee ℝ)) : Prop where
  angleMin : s.angleMin = s'.angleMin
  angleIncrement : s.angleIncrement = s'.angleIncrement
  ranges : List.Forall₂ Ieee.Le s.ranges s'.ranges

/-- No ray looks at a reading of `-∞` whose counterpart is finite and below the
cap. -/
def NoneTooClose (host : Host (Ieee ℝ)) (s s' : LaserScan (Ieee ℝ)) : Prop :=
  s.usable = true → ∀ (i : Fin nRays) (idx : Nat), beamIndex host s i = .ok (idx : Int) →
    ∀ r r', s.ranges[idx]? = some r → s'.ranges[idx]? = some r' → ¬ TooClose r r'

/-- One geometry, one beam for each ray. -/
theorem Nearer.beamIndex {s s' : LaserScan (Ieee ℝ)} (h : Nearer s s') (host : Host (Ieee ℝ))
    (i : Nat) : beamIndex host s' i = beamIndex host s i := by
  rw [RLNav.beamIndex, RLNav.beamIndex, h.angleMin, h.angleIncrement, h.ranges.length_eq]

theorem Nearer.usable {s s' : LaserScan (Ieee ℝ)} (h : Nearer s s') : s'.usable = s.usable := by
  have hempty : s'.ranges.isEmpty = s.ranges.isEmpty := by
    rw [Bool.eq_iff_iff, List.isEmpty_iff_length_eq_zero, List.isEmpty_iff_length_eq_zero,
      h.ranges.length_eq]
  rw [LaserScan.usable, LaserScan.usable, h.angleIncrement, hempty]

/-- The samples of two scans are ordered exactly when none is too close: each ray looks
at one beam of both scans. -/
theorem sample_le_iff {host : Host (Ieee ℝ)} {s s' : LaserScan (Ieee ℝ)} {y y' : RayScan}
    (h : Nearer s s') (hy : SampledAs host (some s) y.toScan)
    (hy' : SampledAs host (some s') y'.toScan) :
    (∀ k, (y k : ℝ) ≤ y' k) ↔ NoneTooClose host s s' := by
  by_cases hs : s.usable = true
  · obtain ⟨x, hx, hray⟩ := (sampleScan_usable hs).mp hy
    obtain ⟨x', hx', hray'⟩ := (sampleScan_usable (h.usable.trans hs)).mp hy'
    obtain rfl := List.ofFn_injective hx
    obtain rfl := List.ofFn_injective hx'
    have hbeam : ∀ (i : Fin nRays) (idx : Nat) (r r' : Ieee ℝ),
        RLNav.beamIndex host s i = .ok (idx : Int) → s.ranges[idx]? = some r →
        s'.ranges[idx]? = some r' → ((y i : ℝ) ≤ y' i ↔ ¬ TooClose r r') := by
      intro i idx r r' hidx hr hr'
      have hidx' := (h.beamIndex host i).trans hidx
      have hread := hray i
      rw [sampleRay_eq_ok.mpr ⟨idx, r, hidx, hr, rfl⟩, Except.ok.injEq] at hread
      have hread' := hray' i
      rw [sampleRay_eq_ok.mpr ⟨idx, r', hidx', hr', rfl⟩, Except.ok.injEq] at hread'
      obtain ⟨hi, rfl⟩ := List.getElem?_eq_some_iff.mp hr
      obtain ⟨hi', rfl⟩ := List.getElem?_eq_some_iff.mp hr'
      exact normReading_le_iff ((List.forall₂_iff_get.mp h.ranges).2 idx hi hi') hread hread'
    constructor
    · intro hle _ i idx hidx r r' hr hr'
      exact (hbeam i idx r r' hidx hr hr').mp (hle i)
    · intro hnone i
      obtain ⟨idx, r, hidx, hr, -⟩ := sampleRay_eq_ok.mp (hray i)
      obtain ⟨idx', r', hidx', hr', -⟩ := sampleRay_eq_ok.mp (hray' i)
      rw [h.beamIndex, hidx, Except.ok.injEq, Nat.cast_inj] at hidx'
      subst hidx'
      exact (hbeam i idx r r' hidx hr hr').mpr (hnone hs i idx hidx r r' hr hr')
  · have hs₀ : s.usable = false := by simpa using hs
    have hone := sampled_placeholder (fun t ht => by cases ht; exact hs₀) hy
    have hone' := sampled_placeholder (fun t ht => by cases ht; exact h.usable.trans hs₀) hy'
    constructor
    · intro _ hu
      exact absurd hu hs
    · intro _ k
      rw [hone k, hone' k]

/-! ## Memories -/

/-- The order of the frames and of the sector differences. -/
def BuffersLe (b b' : LidarBuffers (Ieee ℝ)) : Prop :=
  List.Forall₂ (List.Forall₂ Ieee.Le) b.frames b'.frames ∧
    List.Forall₂ Ieee.Le b.temporal b'.temporal

theorem forall₂_ofFn {α β : Type} {R : α → β → Prop} {n : Nat} (a : Fin n → α) (b : Fin n → β) :
    List.Forall₂ R (List.ofFn a) (List.ofFn b) ↔ ∀ i, R (a i) (b i) := by
  rw [List.forall₂_iff_get]
  constructor
  · rintro ⟨-, h⟩ i
    simpa using h i (by simp) (by simp)
  · intro h
    exact ⟨by simp, fun i hi _ => by simpa using h ⟨i, by simpa using hi⟩⟩

theorem buffersLe_iff (m m' : ExactMemory) :
    BuffersLe (Memory.buffers (some m.toMemory)) (Memory.buffers (some m'.toMemory)) ↔
      (∀ f k, (m.frames f k : ℝ) ≤ m'.frames f k) ∧ ∀ s, m.temporal s ≤ m'.temporal s := by
  simp only [BuffersLe, Memory.buffers, forall₂_ofFn, ExactMemory.toMemory, RayScan.toScan,
    Ieee.Le_fin]

/-- A sector difference grows with the scan. -/
theorem minDiff_mono {y y' p : RayScan} (h : ∀ k, (y k : ℝ) ≤ y' k) (s : Fin nSectors) :
    minDiff y p s ≤ minDiff y' p s := by
  refine Finset.le_inf' _ _ fun k hk => ?_
  have hdiff := minDiff_le (x := y) (p := p) (List.mem_toFinset.mp hk)
  linarith [h k]

/-- One update, from the same memory, keeps the order of the scans and shows it
in the newest frame. -/
theorem next_le_iff (m : Option ExactMemory) (y y' : RayScan) :
    BuffersLe (Memory.buffers (some (ExactMemory.next m y).toMemory))
      (Memory.buffers (some (ExactMemory.next m y').toMemory)) ↔ ∀ k, (y k : ℝ) ≤ y' k := by
  rw [buffersLe_iff]
  have hnewest : ∀ y : RayScan, (ExactMemory.next m y).frames ⟨0, by decide⟩ = y := by
    intro y
    cases m with
    | none => rfl
    | some m => rfl
  constructor
  · rintro ⟨hframes, -⟩ k
    have h := hframes ⟨0, by decide⟩ k
    rwa [hnewest, hnewest] at h
  · intro h
    cases m with
    | none => exact ⟨fun _ k => h k, fun _ => le_rfl⟩
    | some m =>
        constructor
        · intro f k
          show ((if f.val = 0 then y else m.frames (newer f)) k : ℝ) ≤
            (if f.val = 0 then y' else m.frames (newer f)) k
          split
          · exact h k
          · exact le_rfl
        · intro s
          have hdiff := minDiff_mono (p := m.prevScan) h s
          exact Ema.smooth_mono (by norm_num) (by norm_num) le_rfl
            (mul_le_mul_of_nonneg_left hdiff (by norm_num))

/-! ## The update -/

section
variable {D : Type} [CFloat D] [FloatCast (Ieee ℝ) D]

/-- `sampleScan` on the message `s`, then `updateLidarBuffers`. -/
noncomputable def scanUpdate (host : Host (Ieee ℝ)) (st : RLController (Ieee ℝ) D)
    (s : LaserScan (Ieee ℝ)) : Except Fault (LidarBuffers (Ieee ℝ)) := do
  let scan ← sampleScan host (some s)
  updateLidarBuffers st.lidar scan

/-- From every reachable state, the nearer of two scans gives the lesser frames
and sector differences exactly when none of its readings is too close. -/
theorem nearer_iff {host : Host (Ieee ℝ)} {st : RLController (Ieee ℝ) D}
    {s s' : LaserScan (Ieee ℝ)} {b b' : LidarBuffers (Ieee ℝ)} (hst : Reachable host st)
    (hnear : Nearer s s') (h : scanUpdate host st s = .ok b)
    (h' : scanUpdate host st s' = .ok b') :
    BuffersLe b b' ↔ NoneTooClose host s s' := by
  obtain ⟨T, tf, override, evs, os, hrun⟩ := hst
  obtain ⟨xs, -, hlidar, -⟩ := run_configured hrun
  have hupdate : ∀ {s : LaserScan (Ieee ℝ)} {b : LidarBuffers (Ieee ℝ)},
      scanUpdate host st s = .ok b → ∃ y : RayScan, SampledAs host (some s) y.toScan ∧
        b = Memory.buffers (some (ExactMemory.next (ExactMemory.remember none xs) y).toMemory) := by
    intro s b h
    obtain ⟨scan, hscan, hb⟩ := bind_eq_ok.mp h
    obtain ⟨x, rfl⟩ := sampleScan_ofFn hscan
    obtain ⟨y, rfl⟩ := sampleScan_exact hscan
    rw [hlidar, updateLidarBuffers_eq, ExactMemory.next_toMemory, Except.ok.injEq] at hb
    exact ⟨y, hscan, hb.symm⟩
  obtain ⟨y, hy, rfl⟩ := hupdate h
  obtain ⟨y', hy', rfl⟩ := hupdate h'
  rw [next_le_iff, sample_le_iff hnear hy hy']

end

/-! ## An object at the robot -/

/-- One beam that reads `-∞` against one that reads a metre. -/
theorem oneBeam_nearer : Nearer (oneBeam negInf) (oneBeam (fin 1)) where
  angleMin := rfl
  angleIncrement := rfl
  ranges := .cons rfl .nil

/-- The first update of a controller, by a scan of one beam. -/
theorem oneBeam_update (r : Ieee ℝ) :
    ∃ y : RayScan, SampledAs stillHost (some (oneBeam r)) y.toScan ∧
      scanUpdate stillHost (configure noTf (none : Option (Ieee ℝ))) (oneBeam r) =
        .ok (Memory.buffers (some (ExactMemory.next none y).toMemory)) := by
  have hfits : ∀ s, some (oneBeam r) = some s → s.ranges.length ≤ 2 ^ 30 := by
    intro s hs
    cases hs
    simp [oneBeam]
  obtain ⟨x, hx⟩ := sampleScan_total (stillHost : Host (Ieee ℝ)) hfits
  obtain ⟨y, rfl⟩ := sampleScan_exact hx
  have hnext : Memory.next none y.toScan = (ExactMemory.next none y).toMemory :=
    ExactMemory.next_toMemory none y
  exact ⟨y, hx, bind_eq_ok.mpr ⟨_, hx, hnext ▸ updateLidarBuffers_eq none y.toScan⟩⟩

/-- An infinite reading above the other one keeps the order. -/
theorem oneBeam_posInf :
    ∃ b b', scanUpdate stillHost (configure noTf (none : Option (Ieee ℝ))) (oneBeam (fin 1)) =
        .ok b ∧
      scanUpdate stillHost (configure noTf (none : Option (Ieee ℝ))) (oneBeam posInf) = .ok b' ∧
      BuffersLe b b' := by
  obtain ⟨y, -, hb⟩ := oneBeam_update (fin 1)
  obtain ⟨y', -, hb'⟩ := oneBeam_update posInf
  have hnear : Nearer (oneBeam (fin 1)) (oneBeam (posInf : Ieee ℝ)) := ⟨rfl, rfl, .cons rfl .nil⟩
  refine ⟨_, _, hb, hb', (nearer_iff (Reachable.configure stillHost noTf none) hnear hb hb').mpr ?_⟩
  rintro - i idx - r r' hr hr' ⟨rfl, x, -, rfl⟩
  have hmem := List.mem_of_getElem? hr
  simp [oneBeam] at hmem

/-- An object closer than the lidar can measure comes out farther than one at a
metre. -/
theorem negInf_looks_far :
    ∃ b b', Nearer (oneBeam negInf) (oneBeam (fin 1)) ∧
      scanUpdate stillHost (configure noTf (none : Option (Ieee ℝ))) (oneBeam negInf) = .ok b ∧
      scanUpdate stillHost (configure noTf (none : Option (Ieee ℝ))) (oneBeam (fin 1)) = .ok b' ∧
      ¬ BuffersLe b b' := by
  obtain ⟨y, hy, hb⟩ := oneBeam_update negInf
  obtain ⟨y', hy', hb'⟩ := oneBeam_update (fin 1)
  refine ⟨_, _, oneBeam_nearer, hb, hb', ?_⟩
  rw [next_le_iff, sample_le_iff oneBeam_nearer hy hy']
  intro h
  obtain ⟨idx, hidx, hlt⟩ := beamIndex_total (stillHost : Host (Ieee ℝ)) (s := oneBeam negInf) 0
    (by simp [oneBeam]) (by simp [oneBeam])
  obtain rfl : idx = 0 := by simpa [oneBeam] using hlt
  exact h (by simp [LaserScan.usable, oneBeam]) ⟨0, by decide⟩ 0 hidx negInf (fin 1) rfl rfl
    ⟨rfl, 1, by norm_num, rfl⟩

end RLNav
