import RLNav.Exact.Features
import RLNav.Exact.Rays
import RLNav.Tracker

/-!
# The same beams, listed another way

A scan of a full turn may start at any beam and go round either way, and the robot may
have turned since the last one.  `Presents m` says that the beams of one scan, turned by
`m` training rays, are those of another.  Then ray `i` of the first and ray `i + m` of the
second read the same, as long as ray `i` is not halfway between two beams.  There the
rounding decides, and it goes by the way the scan is listed.

So the frames of all observations turn with the scans (`run_turned`), and two drivers
that list the same beams cannot be told apart (`run_relisted`).  The sectors do not turn:
eight of them do not divide ninety rays.
-/

namespace RLNav

open Ieee (fin posInf)
open CFloat (lit)
open Checked (InInt32)
open Planar (Within)

noncomputable section

/-! ## Directions -/

/-- On a full turn at most one beam is nearer to a direction than half an increment, and
then no other is as near as that: the two would be less than one increment apart, up to
full turns. -/
theorem beam_unique {a d θ tol : ℝ} {n j j' : Nat} (hd : d ≠ 0)
    (hturn : n * |d| = 2 * Real.pi) (hj : j < n) (hj' : j' < n) (htol : tol < 0.5 * |d|)
    (h : Within tol (a + j * d) θ) (h' : Within (0.5 * |d|) (a + j' * d) θ) : j = j' := by
  obtain ⟨k, hk⟩ := h.trans (Planar.within_comm.mp h')
  have hpos : 0 < |d| := abs_pos.mpr hd
  obtain ⟨σ, hσ⟩ : ∃ σ : ℤ, |d| = σ * d := by
    cases abs_choice d with
    | inl habs => exact ⟨1, by rw [habs, Int.cast_one, one_mul]⟩
    | inr habs => exact ⟨-1, by rw [habs, Int.cast_neg, Int.cast_one, neg_one_mul]⟩
  have hdiff : |((j - j' - k * n * σ : ℤ) : ℝ)| * |d| < 1 * |d| := by
    rw [← abs_mul]
    have heq : ((j - j' - k * n * σ : ℤ) : ℝ) * d =
        a + j * d - (a + j' * d) - (2 * k : ℤ) * Real.pi := by
      push_cast
      linear_combination (-(k : ℝ) * n) * hσ.symm - (k : ℝ) * hturn
    rw [heq]
    linarith
  have hone : |(j - j' - k * n * σ : ℤ)| < 1 := by
    exact_mod_cast lt_of_mul_lt_mul_right hdiff hpos.le
  have hzero : (j - j' : ℤ) = n * (k * σ) := by
    have := Int.abs_lt_one_iff.mp hone
    linarith
  have hdvd : (n : ℤ) ∣ j - j' := ⟨k * σ, hzero⟩
  have hsmall : |(j - j' : ℤ)| < n := by
    rw [abs_lt]
    omega
  have := Int.eq_zero_of_abs_lt_dvd hdvd hsmall
  omega

/-- The angle between two rays. -/
def rayStep : ℝ := 2.0 * Real.pi / nRays

/-- The directions of the rays are equally spaced. -/
theorem within_trainingAngle (i m : Nat) :
    Within 0 (trainingAngle i + m * rayStep) (trainingAngle ((i + m) % nRays)) := by
  have hrays : (nRays : ℝ) ≠ 0 := by simp [nRays]
  obtain ⟨q, hq⟩ : ∃ q : Nat, i + m = (i + m) % nRays + nRays * q :=
    ⟨(i + m) / nRays, (Nat.mod_add_div (i + m) nRays).symm⟩
  have hsplit : (i : ℝ) + m = ((i + m) % nRays : Nat) + nRays * q := by exact_mod_cast hq
  refine ⟨q, le_of_eq (abs_eq_zero.mpr ?_)⟩
  rw [trainingAngle, trainingAngle, rayStep]
  generalize (i + m) % nRays = p at hsplit ⊢
  have htwo : (2.0 : ℝ) = 2 := by norm_num
  push_cast
  rw [htwo]
  field_simp
  linear_combination 2 * Real.pi * hsplit

/-! ## Scans -/

/-- A scan of one full turn whose index arithmetic stays in range. -/
structure FullTurn (a d : ℝ) (n : Nat) : Prop where
  increment : d ≠ 0
  turn : n * |d| = 2 * Real.pi
  nonempty : 1 ≤ n
  length : n ≤ 2 ^ 30
  index : ∀ i < nRays, InInt32 (roundedIndex a d i)

/-- The beams of the first scan, turned by `m` rays, are those of the second. -/
def Presents (m : Nat) (a d : ℝ) (ranges : List (Ieee ℝ)) (a' d' : ℝ)
    (ranges' : List (Ieee ℝ)) : Prop :=
  ∀ (j : Nat) (r : Ieee ℝ), ranges[j]? = some r → ∃ j' : Nat, ranges'[j']? = some r ∧
    Within 0 (a' + j' * d') (a + j * d + m * rayStep)

/-- Ray `i` is not halfway between two of the `n` beams. -/
def Clear (a d : ℝ) (n i : Nat) : Prop :=
  ∃ j < n, ∃ tol < 0.5 * |d|, Within tol (a + j * d) (trainingAngle i)

/-- The second message lists the beams of the first, turned by `m` rays. -/
inductive LaserScan.Turned (m : Nat) : LaserScan (Ieee ℝ) → LaserScan (Ieee ℝ) → Prop where
  | intro {a d a' d' : ℝ} {ranges ranges' : List (Ieee ℝ)} :
      FullTurn a d ranges.length → FullTurn a' d' ranges'.length →
      ranges'.length = ranges.length → Presents m a d ranges a' d' ranges' →
      (∀ i < nRays, Clear a d ranges.length i) →
      Turned m (scanAt a d ranges) (scanAt a' d' ranges')

/-- The ray `m` rays further on. -/
def turnRay (m : Nat) (k : Fin nRays) : Fin nRays :=
  ⟨(k + m) % nRays, Nat.mod_lt _ (by decide)⟩

/-- The beam that a ray reads. -/
theorem reads_near {host : Host (Ieee ℝ)} {a d : ℝ} {ranges : List (Ieee ℝ)}
    (hfull : FullTurn a d ranges.length) {x : Scan (Ieee ℝ)}
    (h : SampledAs host (some (scanAt a d ranges)) x) (k : Fin nRays) :
    ∃ (idx : Nat) (r : Ieee ℝ), ranges[idx]? = some r ∧ x k = normReading r ∧
      Within (0.5 * |d|) (a + idx * d) (trainingAngle k) := by
  obtain ⟨idx, r, hidx, hr, hx⟩ := sampled_reads hfull.increment hfull.nonempty h k
  rw [readsBeam_iff hfull.nonempty hfull.length, castIndex_of_fits (hfull.index k k.isLt)] at hidx
  exact ⟨idx, r, hr, hx, within_wrap hfull.increment hfull.turn hidx⟩

/-- Scans of one full turn with as many beams have the same increment. -/
theorem FullTurn.abs_increment {a d a' d' : ℝ} {n : Nat} (h : FullTurn a d n)
    (h' : FullTurn a' d' n) : |d'| = |d| := by
  have hn : (n : ℝ) ≠ 0 := by
    have := h.nonempty
    exact_mod_cast (by omega : n ≠ 0)
  exact mul_left_cancel₀ hn (h'.turn.trans h.turn.symm)

/-- What a ray reads on a scan, the ray turned by `m` reads on the turned scan: each reads
the beam that it is clearly next to. -/
theorem LaserScan.Turned.samples {host host' : Host (Ieee ℝ)} {m : Nat}
    {s s' : LaserScan (Ieee ℝ)} (h : s.Turned m s') {x x' : Scan (Ieee ℝ)}
    (hx : SampledAs host (some s) x) (hx' : SampledAs host' (some s') x') (k : Fin nRays) :
    x' (turnRay m k) = x k := by
  obtain ⟨hfull, hfull', hlen, hsame, hclear⟩ := h
  rename_i a d a' d' ranges ranges'
  have hinc : |d'| = |d| := hfull.abs_increment (hlen ▸ hfull')
  obtain ⟨idx, r, hr, hread, hnear⟩ := reads_near hfull hx k
  obtain ⟨idx', r', hr', hread', hnear'⟩ := reads_near hfull' hx' (turnRay m k)
  obtain ⟨j, hj, tol, htol, hclose⟩ := hclear k k.isLt
  have hidx : idx < ranges.length := (List.getElem?_eq_some_iff.mp hr).1
  obtain rfl : j = idx :=
    beam_unique hfull.increment hfull.turn hj hidx htol hclose hnear
  obtain ⟨j', hj', hdir⟩ := hsame j r hr
  have hturned : Within tol (a + j * d + m * rayStep) (trainingAngle k + m * rayStep) :=
    (Planar.within_congr (add_sub_add_right_eq_sub _ _ _).symm).mp hclose
  have hclose' : Within tol (a' + j' * d') (trainingAngle (turnRay m k)) := by
    have hall := (hdir.trans hturned).trans (within_trainingAngle k m)
    rwa [zero_add, add_zero] at hall
  have hlt : j' < ranges'.length := (List.getElem?_eq_some_iff.mp hj').1
  have hlt' : idx' < ranges'.length := (List.getElem?_eq_some_iff.mp hr').1
  obtain rfl : j' = idx' :=
    beam_unique hfull'.increment hfull'.turn hlt hlt' (hinc ▸ htol) hclose' hnear'
  rw [hj', Option.some_inj] at hr'
  rw [hread, hread', hr']

theorem LaserScan.Turned.fits {m : Nat} {s s' : LaserScan (Ieee ℝ)} (h : s.Turned m s') :
    s.ranges.length ≤ 2 ^ 30 ∧ s'.ranges.length ≤ 2 ^ 30 := by
  obtain ⟨hfull, hfull', -, -, -⟩ := h
  exact ⟨hfull.length, hfull'.length⟩

/-- A scan listed another way has the same samples. -/
theorem LaserScan.Turned.sample_eq (host : Host (Ieee ℝ)) {s s' : LaserScan (Ieee ℝ)}
    (h : s.Turned 0 s') : sampleScan host (some s) = sampleScan host (some s') := by
  have hfits : ∀ {s₀ : LaserScan (Ieee ℝ)}, s₀.ranges.length ≤ 2 ^ 30 →
      ∀ s₁, some s₀ = some s₁ → s₁.ranges.length ≤ 2 ^ 30 := by
    rintro s₀ hlen s₁ ⟨⟩
    exact hlen
  obtain ⟨x, hx⟩ := sampleScan_total host (hfits h.fits.1)
  obtain ⟨x', hx'⟩ := sampleScan_total host (hfits h.fits.2)
  have hsame : x' = x := funext fun k => by
    have hturn : turnRay 0 k = k := Fin.ext (Nat.mod_eq_of_lt k.isLt)
    rw [← h.samples hx hx' k, hturn]
  rw [hx, hx', hsame]

/-! ## Runs -/

section
variable {D : Type} [CFloat D] [FloatCast (Ieee ℝ) D] {T T' : Type}

/-- The samples taken before and after a turn. -/
theorem samples_turned {host host' : Host (Ieee ℝ)} {m : Nat}
    {held held' : Option (LaserScan (Ieee ℝ))} (h : Option.Rel (LaserScan.Turned m) held held')
    {x x' : RayScan} (hx : SampledAs host held x.toScan) (hx' : SampledAs host' held' x'.toScan)
    (k : Fin nRays) : x' (turnRay m k) = x k := by
  cases h with
  | some hmsg =>
      have hread := hmsg.samples hx hx' k
      exact Subtype.ext (Ieee.fin_inj.mp hread)
  | none =>
      have hnone : ∀ s₀ : LaserScan (Ieee ℝ), none = some s₀ → s₀.usable = false :=
        fun s₀ hs => by cases hs
      rw [sampled_placeholder hnone hx, sampled_placeholder hnone hx']

/-- The frames of the second observation are those of the first, turned by `m` rays. -/
def TurnedFrames (m : Nat) (c c' : Cycle (Ieee ℝ) D) : Prop :=
  ∀ (f : Fin nFrames) (k : Fin nRays),
    c'.obs.cells[90 * f.val + (turnRay m k).val]? = c.obs.cells[90 * f.val + k.val]?

/-- When every scan of a run is turned by `m` rays, so is every frame of every observation.
The networks and the lookaheads of the two drivers may differ. -/
theorem run_turned {m : Nat} {host host' : Host (Ieee ℝ)} {tf : TfBuffer T} {tf' : TfBuffer T'}
    {override override' : Option D} {evs evs' : List (Event (Ieee ℝ) D)}
    {st st' : RLController (Ieee ℝ) D} {os os' : List (Output (Ieee ℝ) D)}
    (hturned : List.Forall₂ (Event.RelScan (LaserScan.Turned m)) evs evs')
    (h : run host (configure tf override) evs = .ok (st, os))
    (h' : run host' (configure tf' override') evs' = .ok (st', os')) :
    List.Forall₂ (TurnedFrames m) (cycles os) (cycles os') := by
  obtain ⟨x, hx, hlen, hframes⟩ := run_history h
  obtain ⟨x', hx', hlen', hframes'⟩ := run_history h'
  have hheld := heldScans_rel hturned .none false
  have hscan : ∀ i < (cycles os).length, ∀ k, x' (i + 1) (turnRay m k) = x (i + 1) k := by
    intro i hi k
    have hi' : i < (heldScans none false evs).length := hlen ▸ hi
    have hi'' : i < (heldScans none false evs').length := hheld.length_eq ▸ hi'
    exact samples_turned ((List.forall₂_iff_get.mp hheld).2 i hi' hi'')
      (hx i _ (List.getElem?_eq_getElem hi')) (hx' i _ (List.getElem?_eq_getElem hi'')) k
  have hcount : (cycles os).length = (cycles os').length := by
    rw [hlen, hlen', hheld.length_eq]
  refine List.forall₂_iff_get.mpr ⟨hcount, fun t ht ht' f k => ?_⟩
  have hc := (hframes t _ (List.getElem?_eq_getElem ht)).frames f k
  have hc' := (hframes' t _ (List.getElem?_eq_getElem ht')).frames f (turnRay m k)
  obtain ⟨i, hi⟩ : ∃ i, max (t + 1 - f.val) 1 = i + 1 := ⟨max (t + 1 - f.val) 1 - 1, by omega⟩
  rw [hi, hscan i (by omega) k] at hc'
  rw [hi] at hc
  exact hc'.trans hc.symm

omit [FloatCast (Ieee ℝ) D] in
theorem relisted_alike (host : Host (Ieee ℝ)) {e e' : Event (Ieee ℝ) D}
    (h : e.RelScan (LaserScan.Turned 0) e') : e.Alike host e' ∧ e.Fits := by
  cases h with
  | scan hmsg => exact ⟨.scan (hmsg.sample_eq host), hmsg.fits.1⟩
  | setPlan path => exact ⟨.setPlan rfl, trivial⟩
  | setParam value => exact ⟨.setParam value, trivial⟩
  | lifecycle call => exact ⟨.lifecycle call call, trivial⟩
  | compute pose velocity => exact ⟨.compute velocity rfl rfl, trivial⟩

/-- Runs whose scans list the same beams have the same carrots, the same observations and
the same commands. -/
theorem run_relisted (host : Host (Ieee ℝ)) (tf : TfBuffer T) (override : Option D)
    {evs evs' : List (Event (Ieee ℝ) D)}
    (hsame : List.Forall₂ (Event.RelScan (LaserScan.Turned 0)) evs evs') :
    ∃ (st st' : RLController (Ieee ℝ) D) (os os' : List (Output (Ieee ℝ) D)),
      run host (configure tf override) evs = .ok (st, os) ∧
      run host (configure tf override) evs' = .ok (st', os') ∧
      os.map Output.meaning = os'.map Output.meaning := by
  have halike : List.Forall₂ (Event.Alike host) evs evs' :=
    hsame.imp fun e e' he => (relisted_alike host he).1
  have hfits : ∀ e ∈ evs, e.Fits := by
    intro e he
    obtain ⟨i, hi, rfl⟩ := List.getElem_of_mem he
    exact (relisted_alike host ((List.forall₂_iff_get.mp hsame).2 i hi (hsame.length_eq ▸ hi))).2
  obtain ⟨is, hmeans⟩ := exists_means host hfits
  obtain ⟨st, os, hrun, -, hos⟩ := (configure_tracks host tf override).run hmeans
  obtain ⟨st', os', hrun', -, hos'⟩ := (configure_tracks host tf override).run
    (Event.Alike.means_all halike hmeans)
  exact ⟨st, st', os, os', hrun, hrun', hos.trans hos'.symm⟩

end

/-! ## Four beams -/

/-- The first of four beams, half a ray off the first ray. -/
def fourMin : ℝ := 0.5 * rayStep

theorem fourMin_small : |fourMin| ≤ Real.pi / 4 ∧ |fourMin + rayStep| ≤ Real.pi / 4 := by
  have hpi := Real.pi_pos
  have htwo : (2.0 : ℝ) = 2 := by norm_num
  have hhalf : (0.5 : ℝ) = 1 / 2 := by norm_num
  rw [fourMin, rayStep, nRays, htwo, hhalf]
  push_cast
  rw [abs_of_pos (by positivity), abs_of_pos (by positivity)]
  constructor <;> linarith

/-- No ray is halfway between the four beams. -/
theorem fourBeams_clear {i : Nat} : Clear fourMin (Real.pi / 2) 4 i := by
  obtain ⟨j, k, hj, hk⟩ : ∃ (j : Nat) (k : ℤ), j < 4 ∧ |(2 + 90 * j - 4 * i - 360 * k : ℤ)| ≤ 44 :=
    ⟨(4 * i + 43) / 90 % 4, -((4 * i + 43) / 90 / 4 : Nat), by omega, by rw [abs_le]; omega⟩
  have hpi := Real.pi_pos
  refine ⟨j, hj, 44 * (Real.pi / 180), ?_, k, ?_⟩
  · rw [abs_of_pos (by linarith)]
    linarith
  · have hk' : |((2 + 90 * j - 4 * i - 360 * k : ℤ) : ℝ)| ≤ 44 := by exact_mod_cast hk
    have hdir : fourMin + j * (Real.pi / 2) - trainingAngle i - (2 * k : ℤ) * Real.pi =
        ((2 + 90 * j - 4 * i - 360 * k : ℤ) : ℝ) * (Real.pi / 180) := by
      have htwo : (2.0 : ℝ) = 2 := by norm_num
      have hhalf : (0.5 : ℝ) = 1 / 2 := by norm_num
      have hoffset : (lidarOffset : Ieee ℝ).toReal = 0 := by
        rw [lidarOffset, Ieee.lit_eq, Ieee.toReal]
        norm_num
      rw [fourMin, rayStep, trainingAngle, hoffset, nRays, htwo, hhalf]
      push_cast
      ring
    rw [hdir, abs_mul, abs_of_pos (by positivity : 0 < Real.pi / 180)]
    exact mul_le_mul_of_nonneg_right hk' (by positivity)

theorem fourBeams_fullTurn {a d : ℝ} (ha : |a| ≤ Real.pi / 4) (hd : |d| = Real.pi / 2) :
    FullTurn a d 4 where
  increment := by
    have hpi := Real.pi_pos
    rw [← abs_pos, hd]
    positivity
  turn := by
    rw [hd]
    push_cast
    ring
  nonempty := by decide
  length := by decide
  index i _ := by
    have hpi := Real.pi_pos
    obtain ⟨hlo, hhi⟩ := wrappedAngle_mem i
    have hsmall : |(wrappedAngle i - a) / d| < 3 + 1 / 2 := by
      have ha' := abs_le.mp ha
      rw [abs_div, hd, div_lt_iff₀ (by positivity), abs_lt]
      constructor <;> linarith
    have hbounds : -3 ≤ roundedIndex a d i ∧ roundedIndex a d i ≤ 3 := by
      obtain ⟨hlower, hupper⟩ := abs_lt.mp hsmall
      apply roundedIndex_bounds
      · push_cast
        linarith
      · push_cast
        linarith
    unfold InInt32
    omega

/-- The four beams of a robot that has turned by one ray. -/
theorem fourBeams_turned (ranges : List (Ieee ℝ)) (hlen : ranges.length = 4) :
    LaserScan.Turned 1 (scanAt fourMin (Real.pi / 2) ranges)
      (scanAt (fourMin + rayStep) (Real.pi / 2) ranges) := by
  have habs : |Real.pi / 2| = Real.pi / 2 := abs_of_pos (by positivity)
  refine .intro (hlen ▸ fourBeams_fullTurn fourMin_small.1 habs)
    (hlen ▸ fourBeams_fullTurn fourMin_small.2 habs) rfl (fun j r hr => ⟨j, hr, ?_⟩)
    fun i _ => hlen ▸ fourBeams_clear
  apply Within.of_le (le_of_eq (abs_eq_zero.mpr ?_))
  push_cast
  ring

/-- The four beams, clockwise: beam `j` is listed as beam `-j` modulo 4. -/
theorem fourBeams_relisted (r₀ r₁ r₂ r₃ : Ieee ℝ) :
    LaserScan.Turned 0 (scanAt fourMin (Real.pi / 2) [r₀, r₁, r₂, r₃])
      (scanAt fourMin (-(Real.pi / 2)) [r₀, r₃, r₂, r₁]) := by
  have habs : |Real.pi / 2| = Real.pi / 2 := abs_of_pos (by positivity)
  refine .intro (fourBeams_fullTurn fourMin_small.1 habs)
    (fourBeams_fullTurn fourMin_small.1 (by rw [abs_neg, habs])) rfl (fun j r hr => ?_)
    fun i _ => fourBeams_clear
  have hdir : ∀ (j' : Nat) (k : ℤ), j + j' + 4 * k = 0 →
      Within 0 (fourMin + j' * -(Real.pi / 2))
        (fourMin + j * (Real.pi / 2) + (0 : Nat) * rayStep) := by
    intro j' k hk
    have hk' : (j + j' + 4 * k : ℝ) = 0 := by exact_mod_cast hk
    refine ⟨k, le_of_eq (abs_eq_zero.mpr ?_)⟩
    push_cast
    linear_combination -(Real.pi / 2) * hk'
  match j, hr with
  | 0, hr => exact ⟨0, hr, hdir 0 0 (by norm_num)⟩
  | 1, hr => exact ⟨3, hr, hdir 3 (-1) (by norm_num)⟩
  | 2, hr => exact ⟨2, hr, hdir 2 (-1) (by norm_num)⟩
  | 3, hr => exact ⟨1, hr, hdir 1 (-1) (by norm_num)⟩

/-- A run on one scan. -/
def scanRun (s : LaserScan (Ieee ℝ)) : List (Event (Ieee ℝ) (Ieee ℝ)) :=
  .scan s :: .setPlan smallPath :: smallCalls

theorem scanRun_rel {R : LaserScan (Ieee ℝ) → LaserScan (Ieee ℝ) → Prop}
    {s s' : LaserScan (Ieee ℝ)} (h : R s s') :
    List.Forall₂ (Event.RelScan R) (scanRun s) (scanRun s') :=
  .cons (.scan h) (.cons (.setPlan _) (.cons (.compute _ _) (.cons (.compute _ _) .nil)))

theorem fourBeams_run :
    ∃ st os st' os',
      run (stillHost : Host (Ieee ℝ)) (configure noTf (none : Option (Ieee ℝ)))
        (scanRun (scanAt fourMin (Real.pi / 2) [fin 1, fin 2, fin 3, posInf])) = .ok (st, os) ∧
      run stillHost (configure noTf none) (scanRun (scanAt (fourMin + rayStep) (Real.pi / 2)
        [fin 1, fin 2, fin 3, posInf])) = .ok (st', os') ∧
      List.Forall₂ (TurnedFrames 1) (cycles os) (cycles os') := by
  have htotal : ∀ s : LaserScan (Ieee ℝ), s.ranges.length ≤ 2 ^ 30 →
      ∃ st os, run (stillHost : Host (Ieee ℝ)) (configure noTf (none : Option (Ieee ℝ)))
        (scanRun s) = .ok (st, os) := by
    intro s hs
    obtain ⟨st, os, h, -⟩ := run_total stillHost (scanRun s)
      (configure_wellFormed noTf (none : Option (Ieee ℝ))) (fun s hs => by cases hs)
      (by simpa [scanRun, smallCalls, Event.Fits] using hs)
    exact ⟨st, os, h⟩
  have hturned := fourBeams_turned [fin 1, fin 2, fin 3, posInf] rfl
  obtain ⟨st, os, h⟩ := htotal _ hturned.fits.1
  obtain ⟨st', os', h'⟩ := htotal _ hturned.fits.2
  exact ⟨st, os, st', os', h, h', run_turned (scanRun_rel hturned) h h'⟩

theorem fourBeams_clockwise :
    ∃ (st st' : RLController (Ieee ℝ) (Ieee ℝ)) (os os' : List (Output (Ieee ℝ) (Ieee ℝ))),
      run stillHost (configure noTf none)
        (scanRun (scanAt fourMin (Real.pi / 2) [fin 1, fin 2, fin 3, posInf])) = .ok (st, os) ∧
      run stillHost (configure noTf none)
        (scanRun (scanAt fourMin (-(Real.pi / 2)) [fin 1, posInf, fin 3, fin 2])) =
          .ok (st', os') ∧
      os.map Output.meaning = os'.map Output.meaning :=
  run_relisted stillHost noTf none (scanRun_rel (fourBeams_relisted _ _ _ _))

end

end RLNav
