import RLNav.History
import RLNav.Lib.Ema
import RLNav.Lib.IeeeReal
import Mathlib.Topology.UnitInterval

/-!
# The lidar memory in exact arithmetic

In exact arithmetic a sampled reading is a real number in the unit interval,
whatever the message holds (`sampleScan_exact`), so a scan is a point of
`RayScan`.  An `ExactMemory` is a memory of such scans whose sector differences
are real numbers between the two bounds that every reachable controller keeps.
The bounds are fields: a push re-establishes them, and the invariant that carries
the upper one ties a sector difference to the previous scan of its own sector.

`Memory.next` on memories of this kind is `ExactMemory.next` (`next_toMemory`).
-/

namespace RLNav

open Ieee (fin posInf)
open CFloat (lit)

/-- A resampled scan in exact arithmetic. -/
abbrev RayScan := Fin nRays → unitInterval

/-- The floats of a scan. -/
def RayScan.toScan (x : RayScan) : Scan (Ieee ℝ) := fun k => fin (x k)

theorem RayScan.toScan_injective {x y : RayScan} (h : x.toScan = y.toScan) : x = y := by
  funext k
  exact Subtype.ext (Ieee.fin_inj.mp (congrFun h k))

theorem sector_nonempty (s : Fin nSectors) : (sector s).toFinset.Nonempty :=
  List.toFinset_nonempty_iff _ |>.mpr (Blocks.block_ne_nil nRays nSectors (by decide))

/-- The least range difference over the rays of a sector. -/
noncomputable def minDiff (x p : RayScan) (s : Fin nSectors) : ℝ :=
  (sector s).toFinset.inf' (sector_nonempty s) fun k => (x k : ℝ) - p k

theorem minDiff_le {x p : RayScan} {s : Fin nSectors} {k : Fin nRays} (hk : k ∈ sector s) :
    minDiff x p s ≤ x k - p k :=
  Finset.inf'_le _ (List.mem_toFinset.mpr hk)

theorem minDiff_eq_of_sub {x p : RayScan} {d : ℝ} (h : ∀ k, (x k : ℝ) - p k = d)
    (s : Fin nSectors) : minDiff x p s = d := by
  simp only [minDiff, h, Finset.inf'_const]

theorem neg_one_le_minDiff (x p : RayScan) (s : Fin nSectors) : -1 ≤ minDiff x p s :=
  Finset.le_inf' _ _ fun k _ => by
    have hx := (x k).2.1
    have hp := (p k).2.2
    linarith

theorem sectorDiff_toScan (x p : RayScan) (s : Fin nSectors) :
    Memory.sectorDiff x.toScan p.toScan s = fin (minDiff x p s) :=
  Ieee.foldl_min_eq (fun k => (x k : ℝ) - p k) (sector_nonempty s)

/-- The smoothing of the source, on finite values. -/
theorem smooth_fin (t d : ℝ) :
    smooth (fin t : Ieee ℝ) (fin d) = fin (Ema.smooth 0.8 t (77.8 * d)) := by
  simp only [smooth, temporalEma, temporalScale, Ieee.lit_eq, Ieee.mul_fin, Ieee.sub_fin,
    Ieee.add_fin, Ieee.fin_inj, Ema.smooth]
  push_cast
  ring

/-! ## Memories -/

/-- A lidar memory with real entries, inside the bounds of every reachable
one. -/
@[ext]
structure ExactMemory where
  frames : Fin nFrames → RayScan
  prevScan : RayScan
  temporal : Fin nSectors → ℝ
  lower : ∀ s, -77.8 < temporal s
  upper : ∀ s, ∀ k ∈ sector s, temporal s ≤ 15.56 * prevScan k

namespace ExactMemory

/-- The lower bound is kept since no range drops by more than one. -/
theorem lower_step {t : ℝ} (ht : -77.8 < t) (x p : RayScan) (s : Fin nSectors) :
    -77.8 < Ema.smooth 0.8 t (77.8 * minDiff x p s) := by
  refine Ema.lt_smooth (by norm_num) (by norm_num) ht ?_
  have := neg_one_le_minDiff x p s
  linarith

/-- The upper bound is kept since a range can only rise by what it lacked
before: the past keeps `0.8` of it and the rise adds the rest. -/
theorem upper_step {t : ℝ} {x p : RayScan} {s : Fin nSectors} {k : Fin nRays}
    (hk : k ∈ sector s) (ht : t ≤ 15.56 * p k) :
    Ema.smooth 0.8 t (77.8 * minDiff x p s) ≤ 15.56 * x k := by
  have hdiff := minDiff_le (x := x) (p := p) hk
  have hp := (p k).2.1
  rw [Ema.smooth]
  linarith

/-- The first scan fills the stack. -/
noncomputable def seed (x : RayScan) : ExactMemory where
  frames _ := x
  prevScan := x
  temporal _ := 0
  lower _ := by norm_num
  upper _ k _ := mul_nonneg (by norm_num) (x k).2.1

/-- Any other scan shifts the stack. -/
noncomputable def push (m : ExactMemory) (x : RayScan) : ExactMemory where
  frames f := if f.val = 0 then x else m.frames (newer f)
  prevScan := x
  temporal s := Ema.smooth 0.8 (m.temporal s) (77.8 * minDiff x m.prevScan s)
  lower s := lower_step (m.lower s) x m.prevScan s
  upper s k hk := upper_step hk (m.upper s k hk)

noncomputable def next : Option ExactMemory → RayScan → ExactMemory
  | none, x => seed x
  | some m, x => push m x

/-- The memory after a history of scans. -/
noncomputable def remember (m : Option ExactMemory) (xs : List RayScan) : Option ExactMemory :=
  xs.foldl (fun m x => some (next m x)) m

/-- The memories after each scan of the history. -/
noncomputable def trace : Option ExactMemory → List RayScan → List ExactMemory
  | _, [] => []
  | m, x :: xs => next m x :: trace (some (next m x)) xs

/-- The floats of a memory. -/
def toMemory (m : ExactMemory) : Memory (Ieee ℝ) where
  frames f := (m.frames f).toScan
  prevScan := m.prevScan.toScan
  temporal s := fin (m.temporal s)

/-! ## Refinement -/

theorem next_toMemory (m : Option ExactMemory) (x : RayScan) :
    Memory.next (m.map toMemory) x.toScan = (next m x).toMemory := by
  cases m with
  | none =>
      simp [Memory.next, Memory.seed, next, seed, toMemory]
  | some m =>
      simp only [Option.map_some, Memory.next, Memory.push, next, push, toMemory,
        sectorDiff_toScan, smooth_fin, apply_ite RayScan.toScan]

theorem remember_toMemory (m : Option ExactMemory) (xs : List RayScan) :
    Memory.remember (m.map toMemory) (xs.map RayScan.toScan) = (remember m xs).map toMemory := by
  induction xs generalizing m with
  | nil => rfl
  | cons x xs ih =>
      rw [List.map_cons, Memory.remember, List.foldl_cons, next_toMemory]
      exact ih (some (next m x))

theorem trace_toMemory (m : Option ExactMemory) (xs : List RayScan) :
    Memory.trace (m.map toMemory) (xs.map RayScan.toScan) = (trace m xs).map toMemory := by
  induction xs generalizing m with
  | nil => rfl
  | cons x xs ih =>
      rw [List.map_cons, Memory.trace, next_toMemory, trace, List.map_cons]
      exact congrArg _ (ih (some (next m x)))

end ExactMemory

/-! ## Sampled readings -/

theorem lidarCap_eq : (lidarCap : Ieee ℝ) = fin 3.5 := by
  rw [lidarCap, Ieee.lit_eq]
  norm_num

/-- A reading is saturated from the cap on. -/
theorem one_le_fraction {x : ℝ} : 1 ≤ max 0 (min (x / 3.5) 1) ↔ 3.5 ≤ x := by
  have hzero : ¬(1 : ℝ) ≤ 0 := not_le.mpr zero_lt_one
  rw [le_max_iff, or_iff_right hzero, le_min_iff, and_iff_left le_rfl, le_div_iff₀ (by norm_num),
    one_mul]

theorem fraction_eq_one {x : ℝ} : max 0 (min (x / 3.5) 1) = 1 ↔ 3.5 ≤ x := by
  rw [← one_le_fraction, le_antisymm_iff]
  exact and_iff_right (max_le zero_le_one (min_le_right ..))

theorem normReading_fin (x : ℝ) :
    normReading (fin x : Ieee ℝ) = fin (max 0 (min (x / 3.5) 1)) := by
  rw [normReading, lidarCap_eq]
  simp only [Ieee.cfloat_isfinite, Ieee.isFinite_fin, Bool.not_true, Ieee.cfloat_le, Ieee.le_fin,
    Bool.false_or, decide_eq_true_eq]
  split
  next hge =>
    rw [fraction_eq_one.mpr hge, Ieee.lit_eq, Rat.cast_one]
  next =>
    rw [Ieee.div_fin _ (by norm_num), Ieee.lit_eq, Ieee.lit_eq, Rat.cast_zero, Rat.cast_one,
      Ieee.clamp_fin _ _ _ zero_le_one]

/-- What is not finite counts as far. -/
theorem normReading_of_not_finite {r : Ieee ℝ} (h : r.isFinite = false) :
    normReading r = fin 1 := by
  rw [normReading, Ieee.cfloat_isfinite, h]
  simp

/-- A normalized reading lies in the unit interval, whatever was read. -/
theorem normReading_exact (r : Ieee ℝ) : ∃ v : unitInterval, normReading r = fin (v : ℝ) := by
  cases r with
  | fin x =>
      exact ⟨⟨_, le_max_left .., max_le zero_le_one (min_le_right ..)⟩, normReading_fin x⟩
  | posInf => exact ⟨1, normReading_of_not_finite rfl⟩
  | negInf => exact ⟨1, normReading_of_not_finite rfl⟩
  | nan => exact ⟨1, normReading_of_not_finite rfl⟩

theorem sampleScan_exact {host : Host (Ieee ℝ)} {held : Option (LaserScan (Ieee ℝ))}
    {x : Scan (Ieee ℝ)} (h : SampledAs host held x) : ∃ y : RayScan, x = y.toScan := by
  cases held_usable_or held with
  | inl hu =>
      obtain ⟨s, rfl, hs⟩ := hu
      obtain ⟨x', hx, hray⟩ := (sampleScan_usable hs).mp h
      obtain rfl := List.ofFn_injective hx
      have hval : ∀ i, ∃ v : unitInterval, x i = fin (v : ℝ) := by
        intro i
        obtain ⟨_, r, -, -, hr⟩ := sampleRay_eq_ok.mp (hray i)
        obtain ⟨v, hv⟩ := normReading_exact r
        exact ⟨v, hr.trans hv⟩
      choose y hy using hval
      exact ⟨y, funext hy⟩
  | inr hnone =>
      rw [SampledAs, sampleScan_unusable hnone] at h
      injection h with h
      obtain rfl := List.ofFn_injective h
      exact ⟨fun _ => 1, funext fun _ => by simp [placeholder, RayScan.toScan]⟩

/-- The placeholder reads one along every ray. -/
theorem sampled_placeholder {host : Host (Ieee ℝ)} {held : Option (LaserScan (Ieee ℝ))}
    {y : RayScan} (hheld : ∀ s, held = some s → s.usable = false)
    (hy : SampledAs host held y.toScan) (k : Fin nRays) : y k = 1 := by
  rw [SampledAs, sampleScan_unusable hheld, Except.ok.injEq] at hy
  have hk := congrFun (List.ofFn_injective hy) k
  rw [placeholder, Ieee.lit_eq, Rat.cast_one, RayScan.toScan, Ieee.fin_inj] at hk
  exact Subtype.ext hk.symm

/-- A run from a memory in exact arithmetic remembers its samples in one. -/
theorem run_exactLidar {D : Type} [CFloat D] [FloatCast (Ieee ℝ) D] {host : Host (Ieee ℝ)}
    {st st' : RLController (Ieee ℝ) D} {m : Option ExactMemory}
    {evs : List (Event (Ieee ℝ) D)} {os : List (Output (Ieee ℝ) D)}
    (hm : st.lidar = Memory.buffers (m.map ExactMemory.toMemory))
    (h : run host st evs = .ok (st', os)) :
    ∃ xs : List RayScan,
      List.Forall₂ (fun held x => SampledAs host held (RayScan.toScan x))
        (heldScans st.lastScan (!st.currentPath.poses.isEmpty) evs) xs ∧
      st'.lidar = Memory.buffers ((ExactMemory.remember m xs).map ExactMemory.toMemory) ∧
      (cycles os).map Cycle.lidar =
        (ExactMemory.trace m xs).map (Memory.buffers ∘ some ∘ ExactMemory.toMemory) ∧
      (cycles os).map Cycle.features =
        (ExactMemory.trace m xs).map (Memory.features ∘ ExactMemory.toMemory) := by
  obtain ⟨xs, hxs, hlidar, hcycles, hfeatures⟩ := run_lidar hm h
  have hexact : ∀ {helds : List (Option (LaserScan (Ieee ℝ)))} {xs : List (Scan (Ieee ℝ))},
      List.Forall₂ (SampledAs host) helds xs → ∃ ys : List RayScan, xs = ys.map RayScan.toScan ∧
        List.Forall₂ (fun held x => SampledAs host held (RayScan.toScan x)) helds ys := by
    intro helds xs hxs
    induction hxs with
    | nil => exact ⟨[], rfl, .nil⟩
    | cons hx _ ih =>
        obtain ⟨ys, rfl, hys⟩ := ih
        obtain ⟨y, rfl⟩ := sampleScan_exact hx
        exact ⟨y :: ys, rfl, .cons hx hys⟩
  obtain ⟨ys, rfl, hys⟩ := hexact hxs
  rw [ExactMemory.remember_toMemory] at hlidar
  rw [ExactMemory.trace_toMemory, List.map_map] at hcycles hfeatures
  exact ⟨ys, hys, hlidar, hcycles, hfeatures⟩

end RLNav
