import RLNav.Exact.Fading
import RLNav.Exact.Noise
import RLNav.Exact.Turning

/-!
# Every history of scans occurs

A message with one beam along each ray is sampled as what its beams read, so every list
of scans is the history of some run.  The lidar members that a controller can be in are
therefore exactly the memories of lists of scans (`lidar_reachable_iff`), and a sector
difference takes exactly the values between its bounds (`temporal_reachable_iff`).

The runs behind this have two rays of the sector that fall by turns.  The same two rays
show that noise on a world at rest comes as near as one likes to its bound
(`noise_sharp`).
-/

namespace RLNav

open Ieee (fin)
open CFloat (lit)
open Checked (InInt32)
open Planar (Within)

noncomputable section

/-! ## One beam along each ray -/

/-- A message that is sampled as `x`. -/
def messageOf (x : RayScan) : LaserScan (Ieee ℝ) :=
  scanAt 0 rayStep (List.ofFn fun k => fin (3.5 * (x k : ℝ)))

theorem rayStep_pos : 0 < rayStep := by
  have hpi := Real.pi_pos
  rw [rayStep, nRays]
  positivity

theorem rayStep_fullTurn : FullTurn 0 rayStep nRays where
  increment := rayStep_pos.ne'
  turn := by
    rw [abs_of_pos rayStep_pos]
    exact fineIncrement_turn (by decide)
  nonempty := by decide
  length := by decide
  index i _ := by
    have hpi := Real.pi_pos
    have hturn : nRays * rayStep = 2 * Real.pi := fineIncrement_turn (by decide)
    obtain ⟨hlo, hhi⟩ := wrappedAngle_mem i
    have hbounds : -45 ≤ roundedIndex 0 rayStep i ∧ roundedIndex 0 rayStep i ≤ 45 := by
      rw [nRays] at hturn
      push_cast at hturn
      apply roundedIndex_bounds
      · rw [sub_zero, lt_div_iff₀ rayStep_pos]
        push_cast
        linarith [rayStep_pos]
      · rw [sub_zero, div_lt_iff₀ rayStep_pos]
        push_cast
        linarith [rayStep_pos]
    unfold InInt32
    omega

/-- Beam `k` looks along ray `k`. -/
theorem within_beam (k : Nat) : Within 0 (0 + k * rayStep) (trainingAngle k) := by
  have hoffset : (lidarOffset : Ieee ℝ).toReal = 0 := by
    rw [lidarOffset, Ieee.lit_eq, Ieee.toReal]
    norm_num
  refine Within.of_le (le_of_eq (abs_eq_zero.mpr ?_))
  rw [trainingAngle, hoffset, rayStep, zero_add, add_zero, mul_comm, div_mul_eq_mul_div, sub_self]

theorem messageOf_length (x : RayScan) : (messageOf x).ranges.length = nRays := List.length_ofFn

theorem normReading_scaled (v : unitInterval) :
    normReading (fin (3.5 * (v : ℝ))) = fin (v : ℝ) := by
  rw [normReading_fin, mul_div_cancel_left₀ _ (by norm_num), min_eq_left v.2.2, max_eq_right v.2.1]

/-- The message is sampled as what it was made for. -/
theorem messageOf_sampled (host : Host (Ieee ℝ)) (x : RayScan) :
    SampledAs host (some (messageOf x)) x.toScan := by
  have hfit : ∀ s, some (messageOf x) = some s → s.ranges.length ≤ 2 ^ 30 := by
    rintro s ⟨⟩
    rw [messageOf_length]
    decide
  obtain ⟨y, hy⟩ := sampleScan_total host hfit
  have hfull : FullTurn 0 rayStep (messageOf x).ranges.length :=
    messageOf_length x ▸ rayStep_fullTurn
  have hread : y = x.toScan := funext fun k => by
    obtain ⟨idx, r, hr, hyk, hnear⟩ := reads_near hfull hy k
    have hidx : idx < nRays := messageOf_length x ▸ (List.getElem?_eq_some_iff.mp hr).1
    have hstep : 0 < 0.5 * |rayStep| := mul_pos (by norm_num) (abs_pos.mpr rayStep_pos.ne')
    obtain rfl : k.val = idx := beam_unique rayStep_fullTurn.increment rayStep_fullTurn.turn
      k.isLt hidx hstep (within_beam k) hnear
    have hbeam : (messageOf x).ranges[k.val]? = some (fin (3.5 * (x k : ℝ))) := by
      simp [messageOf, scanAt]
    rw [hbeam, Option.some_inj] at hr
    rw [hyk, ← hr, normReading_scaled]
    rfl
  exact hread ▸ hy

/-! ## Replays -/

section
variable {D : Type} [CFloat D]

/-- Each scan arrives and is sampled by a call. -/
def replayScans : List RayScan → List (Event (Ieee ℝ) D)
  | [] => []
  | x :: xs => .scan (messageOf x) :: .compute (poseAt (lit 0) (lit 0)) still :: replayScans xs

/-- A run on a history of scans. -/
def replay (xs : List RayScan) : List (Event (Ieee ℝ) D) := .setPlan smallPath :: replayScans xs

theorem replay_held (xs : List RayScan) :
    heldScans none false (replay xs : List (Event (Ieee ℝ) D)) =
      xs.map fun x => some (messageOf x) := by
  have hscans : ∀ (last : Option (LaserScan (Ieee ℝ))) (xs : List RayScan),
      heldScans last true (replayScans xs : List (Event (Ieee ℝ) D)) =
        xs.map fun x => some (messageOf x) := by
    intro last xs
    induction xs generalizing last with
    | nil => rfl
    | cons x xs ih => exact congrArg _ (ih _)
  exact hscans none xs

theorem replay_fits (xs : List RayScan) :
    ∀ e ∈ (replay xs : List (Event (Ieee ℝ) D)), e.Fits := by
  have hscans : ∀ e ∈ (replayScans xs : List (Event (Ieee ℝ) D)), e.Fits := by
    induction xs with
    | nil => simp [replayScans]
    | cons x xs ih =>
        have hlen : (messageOf x).ranges.length ≤ 2 ^ 30 := by
          rw [messageOf_length]
          decide
        simpa [replayScans, Event.Fits] using ⟨hlen, ih⟩
  simpa [replay, Event.Fits] using hscans

variable [FloatCast (Ieee ℝ) D] {T : Type}

/-- A replay has the history that it was made for. -/
theorem run_replay (host : Host (Ieee ℝ)) (tf : TfBuffer T) (override : Option D)
    (xs : List RayScan) :
    ∃ (st : RLController (Ieee ℝ) D) (os : List (Output (Ieee ℝ) D)),
      run host (configure tf override) (replay xs) = .ok (st, os) ∧
      st.lidar = Memory.buffers ((ExactMemory.remember none xs).map ExactMemory.toMemory) ∧
      (cycles os).map Cycle.lidar =
        (ExactMemory.trace none xs).map (Memory.buffers ∘ some ∘ ExactMemory.toMemory) ∧
      (cycles os).map Cycle.features =
        (ExactMemory.trace none xs).map (Memory.features ∘ ExactMemory.toMemory) := by
  obtain ⟨st, os, h, -⟩ := run_total host (replay xs) (configure_wellFormed tf override)
    (fun s hs => by cases hs) (replay_fits xs)
  obtain ⟨ys, hys, hrest⟩ := run_configured h
  have hsame : ys = xs := by
    rw [replay_held, List.forall₂_map_left_iff] at hys
    refine (List.forall₂_eq_eq_eq ▸ hys.imp fun x y hy => ?_ : xs = ys).symm
    exact RayScan.toScan_injective (List.ofFn_injective
      (Except.ok.inj ((messageOf_sampled host x).symm.trans hy)))
  subst hsame
  exact ⟨st, os, h, hrest⟩

/-- The lidar members of the reachable controllers are the memories of lists of scans. -/
theorem lidar_reachable_iff {host : Host (Ieee ℝ)} {b : LidarBuffers (Ieee ℝ)} :
    (∃ st : RLController (Ieee ℝ) D, Reachable host st ∧ st.lidar = b) ↔
      ∃ xs, b = Memory.buffers ((ExactMemory.remember none xs).map ExactMemory.toMemory) := by
  constructor
  · rintro ⟨st, ⟨T, tf, override, evs, os, h⟩, rfl⟩
    obtain ⟨xs, -, hlidar, -⟩ := run_configured h
    exact ⟨xs, hlidar⟩
  · rintro ⟨xs, rfl⟩
    obtain ⟨st, os, h, hlidar, -⟩ := run_replay host noTf (none : Option D) xs
    exact ⟨st, ⟨Unit, noTf, none, replay xs, os, h⟩, hlidar⟩

end

/-! ## Two rays that fall by turns -/

theorem sector_pair (s : Fin nSectors) : ∃ k₀ ∈ sector s, ∃ k₁ ∈ sector s, k₀ ≠ k₁ := by
  revert s
  decide +kernel

/-- `a` at even times and `b` at odd ones. -/
def blink (a b : unitInterval) (t : Nat) : unitInterval := if t % 2 = 0 then a else b

theorem blink_step (a b : unitInterval) (t : Nat) :
    (blink a b (t + 1) : ℝ) - blink a b t = if t % 2 = 0 then (b : ℝ) - a else a - b := by
  rcases Nat.mod_two_eq_zero_or_one t with heven | hodd
  · have hnext : ¬(t + 1) % 2 = 0 := by omega
    rw [blink, blink, if_pos heven, if_pos heven, if_neg hnext]
  · have hnext : (t + 1) % 2 = 0 := by omega
    have hodd : ¬t % 2 = 0 := by omega
    rw [blink, blink, if_neg hodd, if_neg hodd, if_pos hnext]

/-- Ray `k₀` starts high and ray `k₁` low. -/
def alternating (k₀ k₁ : Fin nRays) (rest hi lo : unitInterval) (t : Nat) : RayScan := fun k =>
  if k = k₀ then blink hi lo t else if k = k₁ then blink lo hi t else rest

/-- At all times one of the two rays falls, and no ray falls by more. -/
theorem minDiff_alternating {s : Fin nSectors} {k₀ k₁ : Fin nRays} (hk₀ : k₀ ∈ sector s)
    (hk₁ : k₁ ∈ sector s) (hne : k₀ ≠ k₁) (rest : unitInterval) {hi lo : unitInterval}
    (hle : (lo : ℝ) ≤ hi) (t : Nat) :
    minDiff (alternating k₀ k₁ rest hi lo (t + 1)) (alternating k₀ k₁ rest hi lo t) s =
      lo - hi := by
  apply le_antisymm
  · rcases Nat.mod_two_eq_zero_or_one t with heven | hodd
    · refine (minDiff_le hk₀).trans (le_of_eq ?_)
      rw [alternating, alternating, if_pos rfl, if_pos rfl, blink_step, if_pos heven]
    · have hodd : ¬t % 2 = 0 := by omega
      refine (minDiff_le hk₁).trans (le_of_eq ?_)
      rw [alternating, alternating, if_neg hne.symm, if_neg hne.symm, if_pos rfl, if_pos rfl,
        blink_step, if_neg hodd]
  · refine Finset.le_inf' _ _ fun k _ => ?_
    rw [alternating, alternating]
    by_cases h₀ : k = k₀
    · rw [if_pos h₀, if_pos h₀, blink_step]
      split <;> linarith
    · rw [if_neg h₀, if_neg h₀]
      by_cases h₁ : k = k₁
      · rw [if_pos h₁, if_pos h₁, blink_step]
        split <;> linarith
      · rw [if_neg h₁, if_neg h₁]
        linarith

/-- Such scans stay near one that does not change. -/
theorem alternating_close {δ : ℝ} {rest hi lo : unitInterval} (hδ : 0 ≤ δ)
    (hhi : |(rest : ℝ) - hi| ≤ δ) (hlo : |(rest : ℝ) - lo| ≤ δ) (k₀ k₁ : Fin nRays) (t : Nat) :
    CloseScans δ (fun _ => rest) (alternating k₀ k₁ rest hi lo t) := by
  have hblink : ∀ {a b : unitInterval}, |(rest : ℝ) - a| ≤ δ → |(rest : ℝ) - b| ≤ δ →
      |(rest : ℝ) - blink a b t| ≤ δ := by
    intro a b ha hb
    rw [blink]
    split
    · exact ha
    · exact hb
  intro k
  rw [alternating]
  split
  · exact hblink hhi hlo
  · split
    · exact hblink hlo hhi
    · rwa [sub_self, abs_zero]

/-- The difference after `t` such falls. -/
theorem after_alternating {s : Fin nSectors} {k₀ k₁ : Fin nRays} (hk₀ : k₀ ∈ sector s)
    (hk₁ : k₁ ∈ sector s) (hne : k₀ ≠ k₁) (rest : unitInterval) {hi lo : unitInterval}
    (hle : (lo : ℝ) ≤ hi) (t : Nat) :
    (ExactMemory.after (alternating k₀ k₁ rest hi lo) t).temporal s =
      (1 - 0.8 ^ t) * (77.8 * (lo - hi)) := by
  rw [ExactMemory.after_temporal, ← Ema.average_const]
  congr 1
  funext i
  rw [minDiff_alternating hk₀ hk₁ hne rest hle (i + 1)]

/-- Two scans that are the same along every ray. -/
theorem minDiff_const (a b : unitInterval) (s : Fin nSectors) :
    minDiff (fun _ => a) (fun _ => b) s = a - b :=
  minDiff_eq_of_sub (fun _ => rfl) s

/-! ## The values of a sector difference -/

/-- The scans `x 1, …, x (t + 1)`. -/
def history (x : Nat → RayScan) (t : Nat) : List RayScan :=
  (List.range (t + 1)).map fun i => x (i + 1)

theorem remember_history (x : Nat → RayScan) (t : Nat) :
    ExactMemory.remember none (history x t) = some (ExactMemory.after x t) := by
  induction t with
  | zero => rfl
  | succ t ih =>
      rw [history, List.range_succ, List.map_append, ExactMemory.remember, List.foldl_append]
      exact congrArg (fun m => some (ExactMemory.next m (x (t + 2)))) ih

/-- Every value below zero and above the lower bound comes from falls. -/
theorem exists_after_neg {τ : ℝ} (hlo : -77.8 < τ) (hhi : τ < 0) (s : Fin nSectors) :
    ∃ (x : Nat → RayScan) (t : Nat), (ExactMemory.after x t).temporal s = τ := by
  obtain ⟨k₀, hk₀, k₁, hk₁, hne⟩ := sector_pair s
  have hratio : -1 < τ / 77.8 := by
    rw [lt_div_iff₀ (by norm_num)]
    linarith
  obtain ⟨t, ht⟩ := exists_pow_lt_of_lt_one (neg_lt_iff_pos_add'.mp hratio)
    (show (0.8 : ℝ) < 1 by norm_num)
  obtain ⟨c, hc⟩ : ∃ c : ℝ, c = (1 - 0.8 ^ t) * 77.8 := ⟨_, rfl⟩
  have hlarge : -τ < c := by
    have hpow : -(1 - 0.8 ^ t) < τ / 77.8 := by linarith
    rw [lt_div_iff₀ (by norm_num)] at hpow
    linarith
  have hpos : 0 < c := by linarith
  have hshare : 0 ≤ 1 - -τ / c := sub_nonneg.mpr ((div_le_one hpos).mpr hlarge.le)
  have hbelow : 1 - -τ / c ≤ 1 := sub_le_self _ (div_nonneg (by linarith) hpos.le)
  refine ⟨alternating k₀ k₁ 1 1 ⟨1 - -τ / c, hshare, hbelow⟩, t, ?_⟩
  rw [after_alternating hk₀ hk₁ hne 1 hbelow, ← mul_assoc, ← hc]
  show c * (1 - -τ / c - 1) = τ
  field_simp
  ring

/-- Every value from zero to the upper bound comes from one rise. -/
theorem exists_after_nonneg {τ : ℝ} (hlo : 0 ≤ τ) (hhi : τ ≤ 15.56) (s : Fin nSectors) :
    ∃ (x : Nat → RayScan) (t : Nat), (ExactMemory.after x t).temporal s = τ := by
  have hshare : 0 ≤ τ / 15.56 := div_nonneg hlo (by norm_num)
  have hbelow : τ / 15.56 ≤ 1 := (div_le_one (by norm_num)).mpr hhi
  refine ⟨fun i _ => if i = 1 then 0 else ⟨τ / 15.56, hshare, hbelow⟩, 1, ?_⟩
  rw [ExactMemory.after_temporal, Ema.average, Ema.average, minDiff_const, Ema.smooth]
  norm_num
  linarith

section
variable {D : Type} [CFloat D] [FloatCast (Ieee ℝ) D]

theorem temporal_reachable (host : Host (Ieee ℝ)) (x : Nat → RayScan) (t : Nat)
    (s : Fin nSectors) :
    ∃ st : RLController (Ieee ℝ) D, Reachable host st ∧
      st.lidar.temporal[s.val]? = some (fin ((ExactMemory.after x t).temporal s)) := by
  obtain ⟨st, os, h, hlidar, -⟩ := run_replay host noTf (none : Option D) (history x t)
  refine ⟨st, ⟨Unit, noTf, none, _, os, h⟩, ?_⟩
  rw [hlidar, remember_history]
  simp [Memory.buffers, ExactMemory.toMemory]

/-- A sector difference takes exactly the values between its bounds. -/
theorem temporal_reachable_iff {host : Host (Ieee ℝ)} {s : Fin nSectors} {τ : ℝ} :
    (∃ st : RLController (Ieee ℝ) D, Reachable host st ∧
      st.lidar.temporal[s.val]? = some (fin τ)) ↔ -77.8 < τ ∧ τ ≤ 15.56 := by
  constructor
  · rintro ⟨st, ⟨T, tf, override, evs, os, h⟩, hτ⟩
    obtain ⟨xs, -, hlidar, -⟩ := run_configured h
    rw [hlidar] at hτ
    cases hm : ExactMemory.remember none xs with
    | none => simp [hm, Memory.buffers, LidarBuffers.init] at hτ
    | some m =>
        obtain rfl : m.temporal s = τ := by
          simpa [hm, Memory.buffers, ExactMemory.toMemory] using hτ
        exact ⟨m.lower s, m.temporal_le s⟩
  · rintro ⟨hlo, hhi⟩
    obtain ⟨x, t, rfl⟩ : ∃ (x : Nat → RayScan) (t : Nat),
        (ExactMemory.after x t).temporal s = τ := by
      cases lt_or_ge τ 0 with
      | inl hneg => exact exists_after_neg hlo hneg s
      | inr hnonneg => exact exists_after_nonneg hnonneg hhi s
    exact temporal_reachable host x t s

end

/-! ## Noise on a world at rest -/

/-- Scans that are close have messages that differ by noise. -/
theorem messageOf_noisy {δ : ℝ} {x x' : RayScan} (h : CloseScans δ x x') :
    (messageOf x).Noisy (3.5 * δ) (messageOf x') := by
  refine ⟨rfl, rfl, List.forall₂_iff_get.mpr ⟨?_, fun i hi hi' => ?_⟩⟩
  · rw [messageOf_length, messageOf_length]
  · have hk : i < nRays := messageOf_length x ▸ hi
    have hclose := h ⟨i, hk⟩
    have hread : ∀ y : RayScan, ∀ hi, (messageOf y).ranges.get ⟨i, hi⟩ =
        fin (3.5 * (y ⟨i, hk⟩ : ℝ)) := by
      intro y hi
      simp [messageOf, scanAt]
    rw [hread, hread]
    refine .apart ?_
    rw [← mul_sub, abs_mul, abs_of_pos (by norm_num)]
    exact mul_le_mul_of_nonneg_left hclose (by norm_num)

theorem replay_noisy {D : Type} [CFloat D] {δ : ℝ} {xs xs' : List RayScan}
    (h : List.Forall₂ (CloseScans δ) xs xs') :
    List.Forall₂ (Event.RelScan (LaserScan.Noisy (3.5 * δ)))
      (replay xs : List (Event (Ieee ℝ) D)) (replay xs') := by
  refine .cons (.setPlan _) ?_
  induction h with
  | nil => exact .nil
  | cons hx _ ih => exact .cons (.scan (messageOf_noisy hx)) (.cons (.compute _ _) ih)

theorem history_forall₂ {R : RayScan → RayScan → Prop} {x x' : Nat → RayScan}
    (h : ∀ i, R (x i) (x' i)) (t : Nat) : List.Forall₂ R (history x t) (history x' t) := by
  rw [history, history, List.forall₂_map_left_iff, List.forall₂_map_right_iff]
  exact List.forall₂_same.mpr fun i _ => h (i + 1)

theorem history_length (x : Nat → RayScan) (t : Nat) : (history x t).length = t + 1 := by
  rw [history, List.length_map, List.length_range]

theorem history_getElem {x : Nat → RayScan} {t i : Nat} {y : RayScan}
    (h : (history x t)[i]? = some y) : x (i + 1) = y := by
  rw [history, List.getElem?_map, Option.map_eq_some_iff] at h
  obtain ⟨k, hk, rfl⟩ := h
  rw [List.getElem?_eq_some_iff] at hk
  obtain ⟨hlt, rfl⟩ := hk
  rw [List.getElem_range]

section
variable {D : Type} [CFloat D] [FloatCast (Ieee ℝ) D] {T : Type}

omit [CFloat D] [FloatCast (Ieee ℝ) D] in
/-- The temporal entry that shows the difference `d`. -/
theorem HistoryFeatures.entry {x : Nat → RayScan} {t : Nat} {c : Cycle (Ieee ℝ) D}
    (h : HistoryFeatures x (t + 1) c) {s : Fin nSectors} {d : ℝ} (hd : d ≤ 0)
    (hx : (ExactMemory.after x t).temporal s = d) :
    c.obs.cells[540 + s.val]? = some (fin (max (-1) (d / 0.05))) := by
  have hle : d / 0.05 ≤ 1 := (div_nonpos_of_nonpos_of_nonneg hd (by norm_num)).trans zero_le_one
  rw [h.sectors s, ← historyDiff_eq, hx, min_eq_left hle]

/-- The last observation of a replay. -/
theorem run_history_features (host : Host (Ieee ℝ)) (tf : TfBuffer T) (override : Option D)
    (x : Nat → RayScan) (t : Nat) :
    ∃ (st : RLController (Ieee ℝ) D) (os : List (Output (Ieee ℝ) D)) (c : Cycle (Ieee ℝ) D),
      run host (configure tf override) (replay (history x t)) = .ok (st, os) ∧
      (cycles os)[t]? = some c ∧ HistoryFeatures x (t + 1) c := by
  obtain ⟨st, os, h, -, hlidar, hfeatures⟩ := run_replay host tf override (history x t)
  have htrace := ExactMemory.trace_eq_map fun i y => history_getElem (x := x) (t := t) (i := i)
    (y := y)
  rw [history_length] at htrace
  rw [htrace, List.map_map] at hlidar hfeatures
  have hlen : (cycles os).length = t + 1 := by simpa using congrArg List.length hlidar
  have hc := List.getElem?_eq_getElem (l := cycles os) (i := t) (by omega)
  refine ⟨st, os, _, h, hc, historyFeatures_of_after ?_ ?_⟩
  · have := congrArg (fun l => l[t]?) hlidar
    simpa [hc] using this
  · have := congrArg (fun l => l[t]?) hfeatures
    simpa [hc] using this

/-- The bound on the noise of a temporal entry is the best one: at any call it is reached up
to the share `0.8 ^ t`, while the lidar without noise sees a world at rest. -/
theorem noise_sharp (host : Host (Ieee ℝ)) (tf : TfBuffer T) (override : Option D) {ε : ℝ}
    (hε : 0 ≤ ε) (hsmall : ε ≤ 1.75) (s : Fin nSectors) (t : Nat) :
    ∃ (evs evs' : List (Event (Ieee ℝ) D)) (st st' : RLController (Ieee ℝ) D)
      (os os' : List (Output (Ieee ℝ) D)) (c c' : Cycle (Ieee ℝ) D),
      List.Forall₂ (Event.RelScan (LaserScan.Noisy ε)) evs evs' ∧
      run host (configure tf override) evs = .ok (st, os) ∧
      run host (configure tf override) evs' = .ok (st', os') ∧
      (cycles os)[t]? = some c ∧ (cycles os')[t]? = some c' ∧
      c.obs.cells[540 + s.val]? = some (fin 0) ∧
      c'.obs.cells[540 + s.val]? =
        some (fin (max (-1) (-((1 - 0.8 ^ t) * (3112 * (ε / 3.5)))))) := by
  obtain ⟨k₀, hk₀, k₁, hk₁, hne⟩ := sector_pair s
  obtain ⟨δ, hδ⟩ : ∃ δ : ℝ, δ = ε / 3.5 := ⟨_, rfl⟩
  have hscale : ε = 3.5 * δ := by
    rw [hδ]
    ring
  have hnonneg : 0 ≤ δ := by linarith
  have hhalf : δ ≤ 0.5 := by linarith
  obtain ⟨rest, hrest⟩ : ∃ v : unitInterval, (v : ℝ) = 0.5 := ⟨⟨0.5, by norm_num, by norm_num⟩, rfl⟩
  obtain ⟨hi, hhi⟩ : ∃ v : unitInterval, (v : ℝ) = 0.5 + δ :=
    ⟨⟨0.5 + δ, by linarith, by linarith⟩, rfl⟩
  obtain ⟨lo, hlo⟩ : ∃ v : unitInterval, (v : ℝ) = 0.5 - δ :=
    ⟨⟨0.5 - δ, by linarith, by linarith⟩, rfl⟩
  have hle : (lo : ℝ) ≤ hi := by linarith
  obtain ⟨st, os, c, h, hc, hfeatures⟩ := run_history_features host tf override (fun _ _ => rest) t
  obtain ⟨st', os', c', h', hc', hfeatures'⟩ :=
    run_history_features host tf override (alternating k₀ k₁ rest hi lo) t
  refine ⟨_, _, st, st', os, os', c, c', ?_, h, h', hc, hc', ?_, ?_⟩
  · rw [hscale]
    refine replay_noisy (history_forall₂ (fun i => alternating_close hnonneg ?_ ?_ k₀ k₁ i) t)
    · rw [hrest, hhi, sub_add_cancel_left, abs_neg, abs_of_nonneg hnonneg]
    · rw [hrest, hlo, sub_sub_cancel, abs_of_nonneg hnonneg]
  · have hrestless : (ExactMemory.after (fun _ _ => rest) t).temporal s = 0 := by
      simp only [ExactMemory.after_temporal, minDiff_const, sub_self, mul_zero, Ema.average_const]
    rw [hfeatures.entry le_rfl hrestless, zero_div, max_eq_right (by norm_num)]
  · have hpow : (0.8 : ℝ) ^ t ≤ 1 := pow_le_one₀ (by norm_num) (by norm_num)
    have hfall := after_alternating hk₀ hk₁ hne rest hle t
    have hneg : (1 - 0.8 ^ t) * (77.8 * ((lo : ℝ) - hi)) ≤ 0 :=
      mul_nonpos_of_nonneg_of_nonpos (sub_nonneg.mpr hpow) (by linarith)
    rw [hfeatures'.entry hneg hfall, hhi, hlo, ← hδ]
    congr 3
    ring

end

/-- After ten calls a centimetre of noise looks like a wall that comes nearer. -/
theorem centimetre_sharp :
    ∃ (evs evs' : List (Event (Ieee ℝ) (Ieee ℝ))) (st st' : RLController (Ieee ℝ) (Ieee ℝ))
      (os os' : List (Output (Ieee ℝ) (Ieee ℝ))) (c c' : Cycle (Ieee ℝ) (Ieee ℝ)),
      List.Forall₂ (Event.RelScan (LaserScan.Noisy 0.01)) evs evs' ∧
      run stillHost (configure noTf none) evs = .ok (st, os) ∧
      run stillHost (configure noTf none) evs' = .ok (st', os') ∧
      (cycles os)[10]? = some c ∧ (cycles os')[10]? = some c' ∧
      c.obs.cells[540]? = some (fin (0 : ℝ)) ∧
      c'.obs.cells[540]? = some (fin (-1 : ℝ)) := by
  obtain ⟨evs, evs', st, st', os, os', c, c', hnoisy, h, h', hc, hc', hrest, hsharp⟩ :=
    noise_sharp (D := Ieee ℝ) stillHost noTf none (ε := 0.01) (by norm_num) (by norm_num)
      ⟨0, by decide⟩ 10
  rw [max_eq_left (by norm_num)] at hsharp
  exact ⟨evs, evs', st, st', os, os', c, c', hnoisy, h, h', hc, hc', hrest, hsharp⟩

end

end RLNav
