import RLNav.Exact.Features

/-!
# Noise on the readings

Two runs whose readings differ by at most `ε` metres have lidar memories that stay
close for ever: the frames by the noise of one reading, and the sector differences by
that of two, scaled.  The differences do not add up in the smoothing.  In the observation
the scales are far apart.  A frame entry moves by at most `ε / 3.5` and a temporal entry by
at most `3112 * (ε / 3.5)`, almost `0.9` for a millimetre (`run_noisy`).
-/

namespace RLNav

open Ieee (fin)
open CFloat (lit)

/-! ## Scans -/

/-- Two scans that are close along every ray. -/
def CloseScans (δ : ℝ) (x x' : RayScan) : Prop := ∀ k, |(x k : ℝ) - x' k| ≤ δ

/-- Saturating two values brings them no further apart. -/
theorem abs_saturate_sub_le (lo hi a b : ℝ) :
    |max lo (min a hi) - max lo (min b hi)| ≤ |a - b| := by
  calc |max lo (min a hi) - max lo (min b hi)| ≤ |min a hi - min b hi| := by
        rw [max_comm lo, max_comm lo]
        exact abs_max_sub_max_le_abs _ _ _
    _ ≤ |a - b| := abs_inf_sub_inf_le_abs _ _ _

/-- Least values of functions that are close. -/
theorem abs_inf'_sub_le {ι : Type} {s : Finset ι} (hs : s.Nonempty) {f g : ι → ℝ} {d : ℝ}
    (h : ∀ k ∈ s, |f k - g k| ≤ d) : |s.inf' hs f - s.inf' hs g| ≤ d := by
  have hside : ∀ {f g : ι → ℝ}, (∀ k ∈ s, |f k - g k| ≤ d) → s.inf' hs f - s.inf' hs g ≤ d := by
    intro f g h
    obtain ⟨k, hk, hg⟩ := Finset.exists_mem_eq_inf' hs g
    have hf : s.inf' hs f ≤ f k := Finset.inf'_le f hk
    have hd := (abs_sub_le_iff.mp (h k hk)).1
    rw [hg]
    linarith
  refine abs_sub_le_iff.mpr ⟨hside h, hside fun k hk => ?_⟩
  rw [abs_sub_comm]
  exact h k hk

theorem abs_minDiff_sub_le {δ : ℝ} {x x' p p' : RayScan} (hx : CloseScans δ x x')
    (hp : CloseScans δ p p') (s : Fin nSectors) :
    |minDiff x p s - minDiff x' p' s| ≤ 2 * δ := by
  refine abs_inf'_sub_le (sector_nonempty s) fun k _ => ?_
  have hsplit : (x k : ℝ) - p k - (x' k - p' k) = (x k - x' k) - (p k - p' k) := by ring
  calc |(x k : ℝ) - p k - (x' k - p' k)| ≤ |(x k : ℝ) - x' k| + |(p k : ℝ) - p' k| := by
        rw [hsplit]
        exact abs_sub _ _
    _ ≤ 2 * δ := by
        have hxk := hx k
        have hpk := hp k
        linarith

/-! ## Memories -/

namespace ExactMemory

/-- Two memories that are close. -/
structure Near (δ : ℝ) (m m' : ExactMemory) : Prop where
  frames : ∀ f, CloseScans δ (m.frames f) (m'.frames f)
  prevScan : CloseScans δ m.prevScan m'.prevScan
  temporal : ∀ s, |m.temporal s - m'.temporal s| ≤ 155.6 * δ

theorem Near.seed {δ : ℝ} {x x' : RayScan} (hx : CloseScans δ x x') :
    Near δ (ExactMemory.seed x) (ExactMemory.seed x') where
  frames _ := hx
  prevScan := hx
  temporal s := by
    have hδ : 0 ≤ δ := (abs_nonneg _).trans (hx ⟨0, by decide⟩)
    show |(0 : ℝ) - 0| ≤ _
    rw [sub_zero, abs_zero]
    linarith

theorem Near.push {δ : ℝ} {m m' : ExactMemory} {x x' : RayScan} (h : Near δ m m')
    (hx : CloseScans δ x x') : Near δ (ExactMemory.push m x) (ExactMemory.push m' x') where
  frames f := by
    show CloseScans δ (if f.val = 0 then x else m.frames (newer f))
      (if f.val = 0 then x' else m'.frames (newer f))
    split
    · exact hx
    · exact h.frames (newer f)
  prevScan := hx
  temporal s := by
    refine Ema.abs_smooth_sub_le (by norm_num) (by norm_num) (h.temporal s) ?_
    have hdiff := abs_minDiff_sub_le hx h.prevScan s
    rw [← mul_sub, abs_mul, abs_of_nonneg (by norm_num)]
    linarith

theorem Near.trace {δ : ℝ} {xs xs' : List RayScan} (hxs : List.Forall₂ (CloseScans δ) xs xs') :
    List.Forall₂ (Near δ) (ExactMemory.trace none xs) (ExactMemory.trace none xs') := by
  have hpush : ∀ {xs xs' : List RayScan} (m m' : ExactMemory), Near δ m m' →
      List.Forall₂ (CloseScans δ) xs xs' →
      List.Forall₂ (Near δ) (ExactMemory.trace (some m) xs) (ExactMemory.trace (some m') xs') := by
    intro xs xs' m m' h hxs
    induction hxs generalizing m m' with
    | nil => exact .nil
    | cons hx _ ih => exact .cons (h.push hx) (ih _ _ (h.push hx))
  cases hxs with
  | nil => exact .nil
  | cons hx hxs => exact .cons (.seed hx) (hpush _ _ (.seed hx) hxs)

end ExactMemory

/-! ## Messages -/

/-- Two readings that are equal, or finite and at most `ε` apart. -/
inductive NoisyReading (ε : ℝ) : Ieee ℝ → Ieee ℝ → Prop where
  | same (r : Ieee ℝ) : NoisyReading ε r r
  | apart {r r' : ℝ} : |r - r'| ≤ ε → NoisyReading ε (fin r) (fin r')

/-- Two messages of the same beams. -/
structure LaserScan.Noisy (ε : ℝ) (s s' : LaserScan (Ieee ℝ)) : Prop where
  angleMin : s.angleMin = s'.angleMin
  angleIncrement : s.angleIncrement = s'.angleIncrement
  ranges : List.Forall₂ (NoisyReading ε) s.ranges s'.ranges

/-- Normalizing a reading scales its noise. -/
theorem normReading_noisy {ε : ℝ} (hε : 0 ≤ ε) {r r' : Ieee ℝ} (h : NoisyReading ε r r')
    {v v' : unitInterval} (hv : normReading r = fin (v : ℝ)) (hv' : normReading r' = fin (v' : ℝ)) :
    |(v : ℝ) - v'| ≤ ε / 3.5 := by
  cases h with
  | same r =>
      rw [hv, Ieee.fin_inj] at hv'
      rw [hv', sub_self, abs_zero]
      exact div_nonneg hε (by norm_num)
  | @apart r r' h =>
      rw [normReading_fin, Ieee.fin_inj] at hv hv'
      have hscale : |r / 3.5 - r' / 3.5| ≤ ε / 3.5 := by
        rw [← sub_div, abs_div, abs_of_pos (by norm_num : (0 : ℝ) < 3.5)]
        exact div_le_div_of_nonneg_right h (by norm_num)
      rw [← hv, ← hv']
      exact (abs_saturate_sub_le ..).trans hscale

theorem LaserScan.Noisy.usable {ε : ℝ} {s s' : LaserScan (Ieee ℝ)} (h : s.Noisy ε s') :
    s'.usable = s.usable := by
  have hempty : s'.ranges.isEmpty = s.ranges.isEmpty := by
    rw [Bool.eq_iff_iff, List.isEmpty_iff_length_eq_zero, List.isEmpty_iff_length_eq_zero,
      h.ranges.length_eq]
  rw [LaserScan.usable, LaserScan.usable, h.angleIncrement, hempty]

/-- The samples of two messages with noise are close. -/
theorem LaserScan.Noisy.samples {ε : ℝ} (hε : 0 ≤ ε) {host : Host (Ieee ℝ)}
    {s s' : LaserScan (Ieee ℝ)} (h : s.Noisy ε s') {x x' : RayScan}
    (hx : SampledAs host (some s) x.toScan) (hx' : SampledAs host (some s') x'.toScan) :
    CloseScans (ε / 3.5) x x' := by
  cases hs : s.usable with
  | false =>
      have hnone : ∀ s₀, some s = some s₀ → s₀.usable = false := by
        rintro s₀ ⟨⟩
        exact hs
      have hnone' : ∀ s₀, some s' = some s₀ → s₀.usable = false := by
        rintro s₀ ⟨⟩
        exact h.usable.trans hs
      intro k
      rw [sampled_placeholder hnone hx, sampled_placeholder hnone' hx', sub_self, abs_zero]
      exact div_nonneg hε (by norm_num)
  | true =>
      intro k
      obtain ⟨y, hy, hray⟩ := (sampleScan_usable hs).mp hx
      obtain ⟨y', hy', hray'⟩ := (sampleScan_usable (h.usable.trans hs)).mp hx'
      obtain rfl := List.ofFn_injective hy
      obtain rfl := List.ofFn_injective hy'
      obtain ⟨idx, r, hidx, hr, hv⟩ := sampleRay_eq_ok.mp (hray k)
      obtain ⟨idx', r', hidx', hr', hv'⟩ := sampleRay_eq_ok.mp (hray' k)
      have hbeam : beamIndex host s' k = beamIndex host s k := by
        rw [beamIndex, beamIndex, h.angleMin, h.angleIncrement, h.ranges.length_eq]
      rw [hbeam, hidx, Except.ok.injEq, Nat.cast_inj] at hidx'
      subst hidx'
      obtain ⟨hlt, rfl⟩ := List.getElem?_eq_some_iff.mp hr
      obtain ⟨hlt', rfl⟩ := List.getElem?_eq_some_iff.mp hr'
      exact normReading_noisy hε ((List.forall₂_iff_get.mp h.ranges).2 idx hlt hlt') hv.symm hv'.symm

/-- The samples of two histories of messages with noise. -/
theorem closeScans_of_noisy {ε : ℝ} (hε : 0 ≤ ε) {host : Host (Ieee ℝ)}
    {helds helds' : List (Option (LaserScan (Ieee ℝ)))} {xs xs' : List RayScan}
    (h : List.Forall₂ (Option.Rel (LaserScan.Noisy ε)) helds helds')
    (hxs : List.Forall₂ (fun held x => SampledAs host held (RayScan.toScan x)) helds xs)
    (hxs' : List.Forall₂ (fun held x => SampledAs host held (RayScan.toScan x)) helds' xs') :
    List.Forall₂ (CloseScans (ε / 3.5)) xs xs' := by
  induction h generalizing xs xs' with
  | nil =>
      cases hxs
      cases hxs'
      exact .nil
  | cons hheld _ ih =>
      cases hxs with
      | cons hx hxs =>
          cases hxs' with
          | cons hx' hxs' =>
              refine .cons ?_ (ih hxs hxs')
              cases hheld with
              | some hmsg => exact hmsg.samples hε hx hx'
              | none =>
                  obtain rfl := RayScan.toScan_injective
                    (List.ofFn_injective (Except.ok.inj (hx.symm.trans hx')))
                  intro k
                  rw [sub_self, abs_zero]
                  exact div_nonneg hε (by norm_num)

/-! ## Runs -/

section
variable {D : Type}

/-- The lidar entries of two observations are close. -/
structure NearFeatures (δ : ℝ) (c c' : Cycle (Ieee ℝ) D) : Prop where
  frames : ∀ (f : Fin nFrames) (k : Fin nRays), ∃ v v' : ℝ,
    c.obs.cells[90 * f.val + k.val]? = some (fin v) ∧
      c'.obs.cells[90 * f.val + k.val]? = some (fin v') ∧ |v - v'| ≤ δ
  sectors : ∀ s : Fin nSectors, ∃ v v' : ℝ,
    c.obs.cells[540 + s.val]? = some (fin v) ∧ c'.obs.cells[540 + s.val]? = some (fin v') ∧
      |v - v'| ≤ 3112 * δ

theorem Cycle.getElem_features (c : Cycle (Ieee ℝ) D) {i : Nat} (hi : i < 548) :
    c.obs.cells[i]? = c.features[i]? :=
  (List.getElem?_take_of_lt hi).symm

/-- The observations of memories that are close. -/
theorem nearFeatures_of_near {δ : ℝ} {m m' : ExactMemory} (h : m.Near δ m')
    {c c' : Cycle (Ieee ℝ) D} (hc : c.features = m.toMemory.features)
    (hc' : c'.features = m'.toMemory.features) : NearFeatures δ c c' where
  frames f k := by
    have hlt : 90 * f.val + k.val < 548 := by
      have hf : f.val < 6 := f.isLt
      have hk : k.val < 90 := k.isLt
      omega
    refine ⟨m.frames f k, m'.frames f k, ?_, ?_, h.frames f k⟩
    · rw [c.getElem_features hlt, hc, features_frame]
      rfl
    · rw [c'.getElem_features hlt, hc', features_frame]
      rfl
  sectors s := by
    have hlt : 540 + s.val < 548 := Nat.add_lt_add_left s.isLt 540
    refine ⟨max (-1) (min (m.temporal s / 0.05) 1), max (-1) (min (m'.temporal s / 0.05) 1),
      ?_, ?_, (abs_saturate_sub_le ..).trans ?_⟩
    · rw [c.getElem_features hlt, hc, features_sector]
      exact congrArg some (clamp_temporal (m.temporal s))
    · rw [c'.getElem_features hlt, hc', features_sector]
      exact congrArg some (clamp_temporal (m'.temporal s))
    · have htemporal := h.temporal s
      rw [← sub_div, abs_div, abs_of_pos (by norm_num : (0 : ℝ) < 0.05),
        div_le_iff₀ (by norm_num)]
      linarith

variable [CFloat D] [FloatCast (Ieee ℝ) D] {T T' : Type}

/-- Noise of at most `ε` on the readings moves the frame entries of every observation by
at most `ε / 3.5`, and the temporal entries by at most `3112` times as much. -/
theorem run_noisy {ε : ℝ} (hε : 0 ≤ ε) {host : Host (Ieee ℝ)} {tf : TfBuffer T}
    {override : Option D} {evs evs' : List (Event (Ieee ℝ) D)} {st st' : RLController (Ieee ℝ) D}
    {os os' : List (Output (Ieee ℝ) D)}
    (hnoisy : List.Forall₂ (Event.RelScan (LaserScan.Noisy ε)) evs evs')
    (h : run host (configure tf override) evs = .ok (st, os))
    (h' : run host (configure tf override) evs' = .ok (st', os')) :
    List.Forall₂ (NearFeatures (ε / 3.5)) (cycles os) (cycles os') := by
  obtain ⟨xs, hxs, -, -, hfeatures⟩ := run_configured h
  obtain ⟨xs', hxs', -, -, hfeatures'⟩ := run_configured h'
  have hheld := heldScans_rel hnoisy .none false
  have hnear := ExactMemory.Near.trace (closeScans_of_noisy hε hheld hxs hxs')
  have hlists : List.Forall₂ (fun l l' => ∃ m m' : ExactMemory, m.Near (ε / 3.5) m' ∧
      l = m.toMemory.features ∧ l' = m'.toMemory.features) ((cycles os).map Cycle.features)
      ((cycles os').map Cycle.features) := by
    rw [hfeatures, hfeatures', List.forall₂_map_left_iff, List.forall₂_map_right_iff]
    exact hnear.imp fun m m' hm => ⟨m, m', hm, rfl, rfl⟩
  rw [List.forall₂_map_left_iff, List.forall₂_map_right_iff] at hlists
  exact hlists.imp fun c c' ⟨m, m', hm, hc, hc'⟩ => nearFeatures_of_near hm hc hc'

end

/-- The small run with a centimetre of noise. -/
noncomputable def noisyRun : List (Event (Ieee ℝ) (Ieee ℝ)) :=
  .scan (oneBeam (lit 1.01)) :: .setPlan smallPath :: smallCalls

theorem noisyRun_noisy : List.Forall₂ (Event.RelScan (LaserScan.Noisy 0.01)) smallRun noisyRun := by
  have hbeam : LaserScan.Noisy 0.01 (oneBeam (lit 1)) (oneBeam (lit 1.01)) := by
    refine ⟨rfl, rfl, .cons (.apart ?_) .nil⟩
    push_cast
    norm_num [abs_le]
  exact .cons (.scan hbeam) (.cons (.setPlan _) (.cons (.compute _ _) (.cons (.compute _ _) .nil)))

theorem smallRun_noisy :
    ∃ st os st' os',
      run (stillHost : Host (Ieee ℝ)) (configure noTf (none : Option (Ieee ℝ))) smallRun =
        .ok (st, os) ∧
      run stillHost (configure noTf none) noisyRun = .ok (st', os') ∧
      List.Forall₂ (NearFeatures (0.01 / 3.5)) (cycles os) (cycles os') := by
  obtain ⟨st, os, h⟩ := smallRun_total (F := Ieee ℝ) (D := Ieee ℝ)
  obtain ⟨st', os', h', -⟩ := run_total stillHost noisyRun
    (configure_wellFormed noTf (none : Option (Ieee ℝ))) (fun s hs => by cases hs)
    (by simp [noisyRun, smallCalls, Event.Fits, oneBeam])
  exact ⟨st, os, st', os', h, h', run_noisy (by norm_num) noisyRun_noisy h h'⟩

end RLNav
