import RLNav.Exact.Fading
import RLNav.Exact.Startup

/-!
# Sector differences along a run

A sector that loses range at every call is seen quickly, whatever came before: after
`m` calls that each see some ray of the sector shorten by `d` of its range, the past
counts for `0.8 ^ m` (`run_approach`).  This says nothing about why it shortens, so
noise that shortens another ray each time looks the same.

A lidar that falls silent is not seen at all.  The controller samples the last message
again, so the differences fade out at `0.8` a call while the robot drives on, and after
six calls all frames are the same (`run_frozen`).
-/

namespace RLNav

open Ieee (fin)
open CFloat (lit)

/-! ## A sector that loses range -/

namespace ExactMemory

theorem after_temporal_succ (x : Nat → RayScan) (t : Nat) (s : Fin nSectors) :
    (after x (t + 1)).temporal s =
      Ema.smooth 0.8 ((after x t).temporal s) (77.8 * minDiff (x (t + 2)) (x (t + 1)) s) := by
  rw [← after_prevScan x t]
  rfl

/-- The past counts for `0.8 ^ m` after `m` scans with a range lost in each. -/
theorem after_temporal_le (x : Nat → RayScan) {t : Nat} {s : Fin nSectors} {d : ℝ} (m : Nat)
    (hloss : ∀ i < m, minDiff (x (t + i + 2)) (x (t + i + 1)) s ≤ -d) :
    (after x (t + m)).temporal s ≤ 0.8 ^ m * 15.56 + (1 - 0.8 ^ m) * (-77.8 * d) := by
  induction m with
  | zero =>
      have hle := (after x t).temporal_le s
      rw [Nat.add_zero, pow_zero]
      linarith
  | succ m ih =>
      have hm := hloss m (Nat.lt_succ_self m)
      rw [← Nat.add_assoc, after_temporal_succ]
      refine Ema.smooth_le_geometric (by norm_num) (by norm_num)
        (ih fun i hi => hloss i (Nat.lt_succ_of_lt hi)) ?_
      linarith

end ExactMemory

section
variable {D : Type}

/-- Some ray of sector `s` is shorter in the newest frame of `c'` than in that of `c`, by
`d` of the full range. -/
def LosesRange (s : Fin nSectors) (d : ℝ) (c c' : Cycle (Ieee ℝ) D) : Prop :=
  ∃ k ∈ sector s, ∃ v v' : ℝ, c.obs.cells[k.val]? = some (fin v) ∧
    c'.obs.cells[k.val]? = some (fin v') ∧ v' ≤ v - d

theorem HistoryFeatures.newest {x : Nat → RayScan} {t : Nat} {c : Cycle (Ieee ℝ) D}
    (h : HistoryFeatures x (t + 1) c) (k : Fin nRays) :
    c.obs.cells[k.val]? = some (fin (x (t + 1) k : ℝ)) := by
  have hframe := h.frames ⟨0, by decide⟩ k
  simpa using hframe

/-- A range that is lost is a least difference. -/
theorem LosesRange.minDiff_le {s : Fin nSectors} {d : ℝ} {c c' : Cycle (Ieee ℝ) D}
    (h : LosesRange s d c c') {x : Nat → RayScan} {t : Nat} (hc : HistoryFeatures x (t + 1) c)
    (hc' : HistoryFeatures x (t + 2) c') : minDiff (x (t + 2)) (x (t + 1)) s ≤ -d := by
  obtain ⟨k, hk, v, v', hv, hv', hloss⟩ := h
  rw [hc.newest k, Option.some.injEq, Ieee.fin_inj] at hv
  rw [hc'.newest k, Option.some.injEq, Ieee.fin_inj] at hv'
  have hle := RLNav.minDiff_le (x := x (t + 2)) (p := x (t + 1)) hk
  linarith

variable [CFloat D] [FloatCast (Ieee ℝ) D] {T : Type}

/-- After `m` calls at which a sector loses at least the share `d` of the range each, its
difference is below `0.8 ^ m * 15.56 - (1 - 0.8 ^ m) * 77.8 * d`, whatever the history.
Once that is `-0.05` the entry of the observation is `-1`. -/
theorem run_approach {host : Host (Ieee ℝ)} {tf : TfBuffer T} {override : Option D}
    {evs : List (Event (Ieee ℝ) D)} {st : RLController (Ieee ℝ) D}
    {os : List (Output (Ieee ℝ) D)} (h : run host (configure tf override) evs = .ok (st, os))
    {s : Fin nSectors} {d : ℝ} {t m : Nat}
    (hloss : ∀ i, t ≤ i → i < t + m → ∀ c c', (cycles os)[i]? = some c →
      (cycles os)[i + 1]? = some c' → LosesRange s d c c')
    {c : Cycle (Ieee ℝ) D} (hc : (cycles os)[t + m]? = some c) :
    ∃ τ : ℝ, c.lidar.temporal[s.val]? = some (fin τ) ∧
      τ ≤ 0.8 ^ m * 15.56 - (1 - 0.8 ^ m) * (77.8 * d) ∧
      (0.8 ^ m * 15.56 - (1 - 0.8 ^ m) * (77.8 * d) ≤ -0.05 →
        c.obs.cells[540 + s.val]? = some (fin (-1))) := by
  obtain ⟨x, -, -, hx⟩ := run_history h
  have hbound : (ExactMemory.after x (t + m)).temporal s ≤
      0.8 ^ m * 15.56 + (1 - 0.8 ^ m) * (-77.8 * d) := by
    refine ExactMemory.after_temporal_le x m fun i hi => ?_
    have hlen : t + m < (cycles os).length := (List.getElem?_eq_some_iff.mp hc).1
    have hi₁ := List.getElem?_eq_getElem (l := cycles os) (i := t + i) (by omega)
    have hi₂ := List.getElem?_eq_getElem (l := cycles os) (i := t + i + 1) (by omega)
    exact (hloss (t + i) (by omega) (by omega) _ _ hi₁ hi₂).minDiff_le (hx _ _ hi₁) (hx _ _ hi₂)
  have hfeatures := hx _ _ hc
  rw [historyDiff_eq] at hbound
  refine ⟨historyDiff x s (t + m + 1), hfeatures.temporal s, by linarith, fun hlow => ?_⟩
  have hsat : historyDiff x s (t + m + 1) / 0.05 ≤ -1 := by
    rw [div_le_iff₀ (by norm_num)]
    linarith
  rw [hfeatures.sectors s, min_eq_left (by linarith), max_eq_left hsat]

end

/-! ## A lidar that falls silent -/

namespace ExactMemory

/-- The memory after `n` more samples of the scan that `m` took last. -/
structure Stale (n : Nat) (m m' : ExactMemory) : Prop where
  frames : ∀ f : Fin nFrames, f.val ≤ n → m'.frames f = m.prevScan
  prevScan : m'.prevScan = m.prevScan
  temporal : ∀ s, m'.temporal s = 0.8 ^ n * m.temporal s

theorem Stale.refl {m : ExactMemory} (hnewest : m.frames ⟨0, by decide⟩ = m.prevScan) :
    Stale 0 m m where
  frames f hf := by
    obtain rfl : f = ⟨0, by decide⟩ := Fin.ext (Nat.le_zero.mp hf)
    exact hnewest
  prevScan := rfl
  temporal s := by rw [pow_zero, one_mul]

theorem Stale.push {n : Nat} {m m' : ExactMemory} (h : Stale n m m') :
    Stale (n + 1) m (ExactMemory.push m' m.prevScan) where
  frames f hf := by
    show (if f.val = 0 then m.prevScan else m'.frames (newer f)) = _
    split
    · rfl
    · refine h.frames (newer f) ?_
      show f.val - 1 ≤ n
      omega
  prevScan := rfl
  temporal s := by
    show Ema.smooth 0.8 (m'.temporal s) (77.8 * minDiff m.prevScan m'.prevScan s) = _
    rw [h.prevScan, minDiff_self, h.temporal, Ema.smooth, pow_succ]
    ring

/-- The memories along a history of one scan. -/
theorem trace_stale {x : RayScan} {n : Nat} {m₀ m' : ExactMemory} {p : Option ExactMemory}
    {j : Nat} (h : Stale n m₀ (next p x)) (hx : m₀.prevScan = x) (count : Nat)
    (hj : (trace p (List.replicate (count + 1) x))[j]? = some m') : Stale (n + j) m₀ m' := by
  induction j generalizing n p count with
  | zero =>
      cases hj
      exact h
  | succ j ih =>
      cases count with
      | zero => cases hj
      | succ count =>
          have hpush : Stale (n + 1) m₀ (next (some (next p x)) x) := by
            subst hx
            exact h.push
          have hrest := ih hpush count hj
          rwa [Nat.add_assoc, Nat.add_comm 1 j] at hrest

end ExactMemory

section
variable {D : Type}

/-- Without messages every call samples the same one. -/
theorem heldScans_quiet {evs : List (Event (Ieee ℝ) D)} (hquiet : ∀ e ∈ evs, ∀ msg, e ≠ .scan msg)
    (last : Option (LaserScan (Ieee ℝ))) (planned : Bool) :
    ∃ n, heldScans last planned evs = List.replicate n last := by
  induction evs generalizing planned with
  | nil => exact ⟨0, rfl⟩
  | cons e evs ih =>
      have hrest : ∀ e' ∈ evs, ∀ msg, e' ≠ .scan msg :=
        fun e' he' => hquiet e' (List.mem_cons_of_mem _ he')
      cases e with
      | scan msg => exact absurd rfl (hquiet _ (List.mem_cons_self ..) msg)
      | setPlan path => exact ih hrest _
      | setParam value => exact ih hrest planned
      | lifecycle call => exact ih hrest planned
      | compute pose velocity =>
          obtain ⟨n, hn⟩ := ih hrest planned
          cases planned with
          | true => exact ⟨n + 1, congrArg (last :: ·) hn⟩
          | false => exact ⟨n, hn⟩

/-- Samples of one message are one scan. -/
theorem samples_replicate {host : Host (Ieee ℝ)} {held : Option (LaserScan (Ieee ℝ))} {n : Nat}
    {xs : List RayScan}
    (hxs : List.Forall₂ (fun held x => SampledAs host held (RayScan.toScan x))
      (List.replicate (n + 1) held) xs) : ∃ x, xs = List.replicate (n + 1) x := by
  cases hxs with
  | @cons _ x _ xs hx hxs =>
      refine ⟨x, congrArg (x :: ·) (List.eq_replicate_iff.mpr ⟨?_, fun y hy => ?_⟩)⟩
      · rw [← hxs.length_eq, List.length_replicate]
      · obtain ⟨i, hi, rfl⟩ := List.getElem_of_mem hy
        have hget := (List.forall₂_iff_get.mp hxs).2 i (hxs.length_eq ▸ hi) hi
        rw [List.get_eq_getElem, List.getElem_replicate] at hget
        exact RayScan.toScan_injective (List.ofFn_injective
          (Except.ok.inj (hget.symm.trans hx)))

/-- The memory that a cycle leaves. -/
theorem memory_of_cycle {cs : List (Cycle (Ieee ℝ) D)} {ms : List ExactMemory}
    (h : cs.map Cycle.lidar = ms.map (Memory.buffers ∘ some ∘ ExactMemory.toMemory)) {i : Nat}
    {c : Cycle (Ieee ℝ) D} (hc : cs[i]? = some c) :
    ∃ m, ms[i]? = some m ∧ c.lidar = Memory.buffers (some m.toMemory) := by
  have hget := congrArg (fun l => l[i]?) h
  simp only [List.getElem?_map, hc, Option.map_some] at hget
  obtain ⟨m, hm, hlidar⟩ := Option.map_eq_some_iff.mp hget.symm
  exact ⟨m, hm, hlidar.symm⟩

variable [CFloat D] [FloatCast (Ieee ℝ) D]

/-- While no message arrives, the `t`-th call after the first one has `t + 1` frames that
are the same scan, and the sector differences of the first one times `0.8 ^ t`, wherever
the robot is by then. -/
theorem run_frozen {host : Host (Ieee ℝ)} {st st' : RLController (Ieee ℝ) D}
    (hst : Reachable host st) {evs : List (Event (Ieee ℝ) D)}
    (hquiet : ∀ e ∈ evs, ∀ msg, e ≠ .scan msg) {os : List (Output (Ieee ℝ) D)}
    (h : run host st evs = .ok (st', os)) {t : Nat} {c₀ c : Cycle (Ieee ℝ) D}
    (h₀ : (cycles os)[0]? = some c₀) (hc : (cycles os)[t]? = some c) :
    (∀ f : Fin nFrames, f.val ≤ t → c.lidar.frames[f.val]? = some c₀.lidar.prevScan) ∧
    ∀ s : Fin nSectors, ∃ τ : ℝ, c₀.lidar.temporal[s.val]? = some (fin τ) ∧
      c.lidar.temporal[s.val]? = some (fin (0.8 ^ t * τ)) := by
  obtain ⟨T, tf, override, before, os₀, hbefore⟩ := hst
  obtain ⟨past, -, hlidar, -⟩ := run_configured hbefore
  obtain ⟨xs, hxs, -, hcycles, -⟩ := run_exactLidar hlidar h
  obtain ⟨n, hn⟩ := heldScans_quiet hquiet st.lastScan (!st.currentPath.poses.isEmpty)
  obtain ⟨m₀, hm₀, hc₀⟩ := memory_of_cycle hcycles h₀
  obtain ⟨m, hm, hcm⟩ := memory_of_cycle hcycles hc
  rw [hn] at hxs
  cases n with
  | zero =>
      cases hxs
      cases hm₀
  | succ n =>
      obtain ⟨x, rfl⟩ := samples_replicate hxs
      have hnext : ExactMemory.next (ExactMemory.remember none past) x = m₀ :=
        Option.some.inj hm₀
      have hfirst : m₀.prevScan = x := by
        rw [← hnext, ExactMemory.next_prevScan]
      have hnewest : m₀.frames ⟨0, by decide⟩ = m₀.prevScan := by
        rw [hfirst, ← hnext, ExactMemory.next_frames_zero _ x rfl]
      have hstart : ExactMemory.Stale 0 m₀
          (ExactMemory.next (ExactMemory.remember none past) x) := by
        rw [hnext]
        exact .refl hnewest
      have hstale := ExactMemory.trace_stale hstart hfirst n hm
      rw [Nat.zero_add] at hstale
      rw [hc₀, hcm]
      refine ⟨fun f hf => ?_, fun s => ⟨m₀.temporal s, ?_, ?_⟩⟩
      · simp [Memory.buffers, ExactMemory.toMemory, hstale.frames f hf]
      · simp [Memory.buffers, ExactMemory.toMemory]
      · simp [Memory.buffers, ExactMemory.toMemory, hstale.temporal s]

end

/-! ## Small runs -/

/-- A message of one beam reads the same along every ray. -/
theorem oneBeam_reads {host : Host (Ieee ℝ)} {r : Ieee ℝ} {y : RayScan}
    (h : SampledAs host (some (oneBeam r)) y.toScan) (k : Fin nRays) :
    fin (y k : ℝ) = normReading r := by
  have husable : (oneBeam r).usable = true := by simp [LaserScan.usable, oneBeam]
  obtain ⟨x, hx, hray⟩ := (sampleScan_usable husable).mp h
  obtain rfl := List.ofFn_injective hx
  obtain ⟨idx, r', -, hr, hv⟩ := sampleRay_eq_ok.mp (hray k)
  cases idx with
  | zero =>
      cases hr
      exact hv
  | succ idx => cases hr

/-- A message of one beam is the same scan along every ray. -/
theorem oneBeam_scan {host : Host (Ieee ℝ)} {r : ℚ} {y : RayScan}
    (h : SampledAs host (some (oneBeam (lit r))) y.toScan) (k : Fin nRays) :
    (y k : ℝ) = max 0 (min ((r : ℝ) / 3.5) 1) := by
  have hread := oneBeam_reads h k
  rwa [Ieee.lit_eq, normReading_fin, Ieee.fin_inj] at hread

/-- An obstacle that comes a metre closer. -/
noncomputable def closingRun : List (Event (Ieee ℝ) (Ieee ℝ)) :=
  [.setPlan smallPath, .scan (oneBeam (lit 3)), .compute (poseAt (lit 1) (lit 0)) still,
    .scan (oneBeam (lit 2)), .compute (poseAt (lit 1) (lit 0)) still]

theorem closingRun_fits : ∀ e ∈ closingRun, e.Fits := by
  simp [closingRun, Event.Fits, oneBeam]

theorem closingRun_approach :
    ∃ st os c, run (stillHost : Host (Ieee ℝ)) (configure noTf (none : Option (Ieee ℝ)))
        closingRun = .ok (st, os) ∧ (cycles os)[0 + 1]? = some c ∧
      ∀ s : Fin nSectors, ∃ τ : ℝ, c.lidar.temporal[s.val]? = some (fin τ) ∧
        τ ≤ 0.8 ^ 1 * 15.56 - (1 - 0.8 ^ 1) * (77.8 * 0.2) := by
  obtain ⟨st, os, h, -⟩ := run_total (stillHost : Host (Ieee ℝ)) closingRun
    (configure_wellFormed noTf (none : Option (Ieee ℝ))) (fun s hs => by cases hs)
    closingRun_fits
  obtain ⟨x, hheld, hlen, hx⟩ := run_history h
  have hlen : (cycles os).length = 2 := hlen
  have hc := List.getElem?_eq_getElem (l := cycles os) (i := 0 + 1) (by omega)
  refine ⟨st, os, _, h, hc, fun s => ?_⟩
  obtain ⟨k, hk⟩ := sector_nonempty s
  have hloss : ∀ i, 0 ≤ i → i < 0 + 1 → ∀ c c', (cycles os)[i]? = some c →
      (cycles os)[i + 1]? = some c' → LosesRange s 0.2 c c' := by
    intro i _ hi c c' hc hc'
    obtain rfl : i = 0 := by omega
    refine ⟨k, List.mem_toFinset.mp hk, _, _, (hx 0 c hc).newest k, (hx 1 c' hc').newest k, ?_⟩
    rw [oneBeam_scan (hheld 0 _ rfl) k, oneBeam_scan (hheld 1 _ rfl) k]
    norm_num
  obtain ⟨τ, hτ, hle, -⟩ := run_approach h hloss hc
  exact ⟨τ, hτ, hle⟩

/-- After the obstacle came closer the lidar is silent, and the robot drives on.  The
differences of the approach fade out. -/
theorem silentRun_frozen :
    ∃ (st st' : RLController (Ieee ℝ) (Ieee ℝ)) (os : List (Output (Ieee ℝ) (Ieee ℝ)))
      (c₀ c : Cycle (Ieee ℝ) (Ieee ℝ)),
      Reachable stillHost st ∧ run stillHost st smallCalls = .ok (st', os) ∧
      (cycles os)[0]? = some c₀ ∧ (cycles os)[1]? = some c ∧
      (∀ f : Fin nFrames, f.val ≤ 1 → c.lidar.frames[f.val]? = some c₀.lidar.prevScan) ∧
      ∀ s : Fin nSectors, ∃ τ < 0, c₀.lidar.temporal[s.val]? = some (fin τ) ∧
        c.lidar.temporal[s.val]? = some (fin (0.8 ^ 1 * τ)) := by
  obtain ⟨st', os', h, -⟩ := run_total (stillHost : Host (Ieee ℝ)) (closingRun ++ smallCalls)
    (configure_wellFormed noTf (none : Option (Ieee ℝ))) (fun s hs => by cases hs)
    (fun e he => (List.mem_append.mp he).elim (closingRun_fits e) (smallCalls_fits e))
  obtain ⟨st, os₁, os, h₁, h₂, rfl⟩ := Machine.run_append_eq_ok.mp h
  obtain ⟨-, -, hlen₁, -⟩ := run_history h₁
  obtain ⟨x, hheld, hlen, hx⟩ := run_history h
  have hlen₁ : (cycles os₁).length = 2 := hlen₁
  have hlen : (cycles (os₁ ++ os)).length = 4 := hlen
  rw [cycles_append] at hx hlen
  rw [List.length_append, hlen₁] at hlen
  have h₀ := List.getElem?_eq_getElem (l := cycles os) (i := 0) (by omega)
  have hc := List.getElem?_eq_getElem (l := cycles os) (i := 1) (by omega)
  have hquiet : ∀ e ∈ smallCalls, ∀ msg : LaserScan (Ieee ℝ), e ≠ Event.scan (D := Ieee ℝ) msg := by
    simp [smallCalls]
  obtain ⟨hframes, htemporal⟩ :=
    run_frozen ⟨Unit, noTf, none, closingRun, os₁, h₁⟩ hquiet h₂ h₀ hc
  refine ⟨st, st', os, _, _, ⟨Unit, noTf, none, closingRun, os₁, h₁⟩, h₂, h₀, hc, hframes,
    fun s => ?_⟩
  obtain ⟨τ, hτ, hτ'⟩ := htemporal s
  have hwhole : (cycles os₁ ++ cycles os)[2]? = (cycles os)[0]? := by
    rw [List.getElem?_append_right (by omega), hlen₁]
  have hhistory := (hx 2 _ (hwhole.trans h₀)).temporal s
  have hcloser : minDiff (x 2) (x 1) s = -(1 / 3.5) := minDiff_eq_of_sub (fun k => by
    rw [oneBeam_scan (hheld 1 _ rfl) k, oneBeam_scan (hheld 0 _ rfl) k]
    norm_num) s
  have hsilent : minDiff (x 3) (x 2) s = 0 := minDiff_eq_of_sub (fun k => by
    rw [oneBeam_scan (hheld 2 _ rfl) k, oneBeam_scan (hheld 1 _ rfl) k, sub_self]) s
  rw [hτ, Option.some.injEq, Ieee.fin_inj] at hhistory
  refine ⟨τ, ?_, hτ, hτ'⟩
  rw [hhistory, historyDiff, show Finset.Icc 2 (2 + 1) = {2, 3} from rfl,
    Finset.sum_pair (by decide), hcloser, hsilent]
  norm_num

end RLNav
