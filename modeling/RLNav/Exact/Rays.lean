import RLNav.Exact.LidarMemory
import RLNav.Exact.Motion

/-!
# Where the rays look

Ray `i` stands for the direction `trainingAngle i`.  `sampleScan` wraps it to
`(-π, π]`, divides its offset from the first beam by the increment, rounds, and
wraps the result modulo the number `n` of beams.

The rounding is off by half an increment at most.  The wrap takes off a multiple
of `n` increments, which is a number of full turns if `n` increments make one, so
on such a scan every ray reads a beam in its direction (`sampleScan_fullTurn`).
-/

namespace RLNav

open Checked (InInt32)
open Ieee (fin posInf)
open CFloat (lit)
open Planar (Within)

noncomputable section

/-! ## Directions -/

/-- The direction that ray `i` had in the training. -/
def trainingAngle (i : Nat) : ℝ :=
  2.0 * Real.pi * i / nRays + (lidarOffset : Ieee ℝ).toReal

/-- The same direction in `(-π, π]`. -/
def wrappedAngle (i : Nat) : ℝ := Complex.arg (Complex.exp (trainingAngle i * Complex.I))

/-- A scan whose beams look along `a`, `a + d`, `a + 2 * d`, … -/
def scanAt (a d : ℝ) (ranges : List (Ieee ℝ)) : LaserScan (Ieee ℝ) :=
  { angleMin := fin a, angleIncrement := fin d, ranges }

/-- The index of the beam next to ray `i`, on a scan that goes on forever. -/
def roundedIndex (a d : ℝ) (i : Nat) : Int := Ieee.roundHalfAway ((wrappedAngle i - a) / d)

theorem rayAngle_eq (i : Nat) : (rayAngle i : Ieee ℝ) = fin (wrappedAngle i) := by
  have hang : (lit 2 * CFloat.pi * lit i / lit nRays + lidarOffset : Ieee ℝ) =
      fin (trainingAngle i) := by
    have hrays : (nRays : ℝ) ≠ 0 := by simp [nRays]
    rw [trainingAngle, lidarOffset]
    simp only [Ieee.lit_eq, Ieee.pi_eq, Ieee.mul_fin, Ieee.div_fin _ hrays, Ieee.add_fin,
      Ieee.toReal, Rat.cast_natCast, Rat.cast_ofNat]
    norm_num
  rw [wrappedAngle, ← wrapAngle_fin, ← hang]
  rfl

/-- A direction near the wrapped one is near the training direction. -/
theorem within_wrappedAngle {tol x : ℝ} {i : Nat} :
    Within tol x (wrappedAngle i) ↔ Within tol x (trainingAngle i) := by
  obtain ⟨k, hk⟩ := Planar.arg_exp_turns (trainingAngle i)
  rw [← wrappedAngle] at hk
  constructor
  · intro h
    refine h.of_turns (-k) ?_
    rw [hk]
    push_cast
    ring
  · intro h
    refine h.of_turns k ?_
    rw [hk]
    ring

theorem roundedIndex_error (a d : ℝ) (i : Nat) :
    |(wrappedAngle i - a) / d - roundedIndex a d i| ≤ 1 / 2 :=
  Ieee.abs_sub_roundHalfAway _

/-- Rounding moves a beam by half an increment at most. -/
theorem roundedIndex_near (a : ℝ) {d : ℝ} (hd : d ≠ 0) (i : Nat) :
    |a + roundedIndex a d i * d - wrappedAngle i| ≤ 0.5 * |d| := by
  have hsplit : a + roundedIndex a d i * d - wrappedAngle i =
      -((wrappedAngle i - a) / d - roundedIndex a d i) * d := by
    field_simp
    ring
  rw [hsplit, abs_mul, abs_neg]
  calc |(wrappedAngle i - a) / d - roundedIndex a d i| * |d|
      ≤ 1 / 2 * |d| := mul_le_mul_of_nonneg_right (roundedIndex_error a d i) (abs_nonneg d)
    _ = 0.5 * |d| := by norm_num

/-! ## Readings -/

/-- `v` is the reading `r` as a fraction of the range of the training lidar, or
`1` if `r` is far or no hit. -/
structure Normalized (r v : Ieee ℝ) : Prop where
  near : ∀ x : ℝ, r = fin x → x < 3.5 → v = fin (max 0 (min (x / 3.5) 1))
  far : (∀ x : ℝ, r = fin x → 3.5 ≤ x) → v = fin 1

/-- `v` is the normalized reading of a beam along ray `i`, to half an increment. -/
def SeenAlong (a d : ℝ) (ranges : List (Ieee ℝ)) (i : Nat) (v : Ieee ℝ) : Prop :=
  ∃ (idx : Nat) (r : Ieee ℝ), ranges[idx]? = some r ∧ Normalized r v ∧
    Within (0.5 * |d|) (a + idx * d) (trainingAngle i)

theorem normReading_normalized (r : Ieee ℝ) : Normalized r (normReading r) where
  near x hr _ := by rw [hr, normReading_fin]
  far hfar := by
    cases r with
    | fin x => rw [normReading_fin, fraction_eq_one.mpr (hfar x rfl)]
    | posInf => exact normReading_of_not_finite rfl
    | negInf => exact normReading_of_not_finite rfl
    | nan => exact normReading_of_not_finite rfl

theorem scanAt_usable {a d : ℝ} {ranges : List (Ieee ℝ)} (hd : d ≠ 0) (hne : 1 ≤ ranges.length) :
    (scanAt a d ranges).usable = true := by
  have hnil : ranges.isEmpty = false :=
    List.isEmpty_eq_false_iff.mpr (List.ne_nil_of_length_pos hne)
  simp [LaserScan.usable, scanAt, hnil, hd]

/-- The rounded index, as far as it fits in an `int`. -/
def castIndex (host : Host (Ieee ℝ)) (a d : ℝ) (i : Nat) : Int :=
  lroundInt host (fin ((wrappedAngle i - a) / d))

theorem castIndex_of_fits {host : Host (Ieee ℝ)} {a d : ℝ} {i : Nat}
    (h : InInt32 (roundedIndex a d i)) : castIndex host a d i = roundedIndex a d i := by
  rw [castIndex, lroundInt]
  exact if_pos h

/-- The index arithmetic of the source does not look at the readings. -/
theorem beamIndex_scanAt (host : Host (Ieee ℝ)) (a : ℝ) {d : ℝ} (hd : d ≠ 0)
    (ranges : List (Ieee ℝ)) (i : Nat) :
    beamIndex host (scanAt a d ranges) i =
      wrapIndex (castIndex host a d i) (Int.bmod ranges.length (2 ^ 32)) := by
  rw [beamIndex, rayAngle_eq, scanAt, Ieee.sub_fin, Ieee.div_fin _ hd]
  rfl

/-- A ray reads the beam that the index arithmetic ends at. -/
theorem sampleRay_scanAt {host : Host (Ieee ℝ)} {a d : ℝ} (hd : d ≠ 0) {ranges : List (Ieee ℝ)}
    {i : Nat} {v : Ieee ℝ} :
    sampleRay host (scanAt a d ranges) i = .ok v ↔
      ∃ (idx : Nat) (r : Ieee ℝ),
        wrapIndex (castIndex host a d i) (Int.bmod ranges.length (2 ^ 32)) = .ok (idx : Int) ∧
        ranges[idx]? = some r ∧ v = normReading r := by
  rw [sampleRay_eq_ok, beamIndex_scanAt host a hd]
  rfl

theorem bmod_length {n : Nat} (h : InInt32 n) : Int.bmod n (2 ^ 32) = n := by
  unfold InInt32 at h
  apply Int.bmod_eq_of_le <;> omega

/-- A remainder, and what was taken off. -/
theorem index_split {z : ℤ} {n idx : Nat} (h : z % n = idx) :
    (z : ℝ) = idx + n * (z / n : ℤ) := by
  have hdiv := Int.emod_add_mul_ediv z n
  rw [h] at hdiv
  exact_mod_cast hdiv.symm

/-! ## Scans of a full turn -/

/-- If `n` increments make one full turn, wrapping the rounded index modulo `n`
keeps the direction. -/
theorem within_wrap {a d : ℝ} {n i idx : Nat} (hd : d ≠ 0) (hturn : n * |d| = 2 * Real.pi)
    (h : roundedIndex a d i % n = idx) :
    Within (0.5 * |d|) (a + idx * d) (trainingAngle i) := by
  obtain ⟨s, hs⟩ : ∃ s : ℤ, n * d = s * (2 * Real.pi) := by
    cases abs_choice d with
    | inl habs => exact ⟨1, by rw [← habs, hturn, Int.cast_one, one_mul]⟩
    | inr habs => exact ⟨-1, by rw [← hturn, habs]; push_cast; ring⟩
  have hnear : Within (0.5 * |d|) (a + roundedIndex a d i * d) (wrappedAngle i) :=
    Within.of_le (roundedIndex_near a hd i)
  refine within_wrappedAngle.mp (hnear.of_turns (-(roundedIndex a d i / n * s)) ?_)
  push_cast
  rw [index_split h]
  linear_combination -(roundedIndex a d i / n : Int) * hs

/-- On a scan whose increments make one full turn every ray reads a beam along
it.  The rounded indices, the number of beams and the sum in the wrap fit in an
`int`. -/
theorem sampleScan_fullTurn (host : Host (Ieee ℝ)) {a d : ℝ} {ranges : List (Ieee ℝ)}
    (hne : 1 ≤ ranges.length) (hturn : ranges.length * |d| = 2 * Real.pi)
    (hindex : ∀ i < nRays, InInt32 (roundedIndex a d i)) (hlen : InInt32 ranges.length)
    (hsum : ∀ i < nRays,
      InInt32 ((roundedIndex a d i).tmod ranges.length + ranges.length)) :
    ∃ x : Scan (Ieee ℝ), SampledAs host (some (scanAt a d ranges)) x ∧
      ∀ i : Fin nRays, SeenAlong a d ranges i (x i) := by
  have hd : d ≠ 0 := by
    rintro rfl
    rw [abs_zero, mul_zero] at hturn
    exact Real.two_pi_pos.ne hturn
  have hray : ∀ i : Fin nRays, ∃ v, sampleRay host (scanAt a d ranges) i = .ok v ∧
      SeenAlong a d ranges i v := by
    intro i
    have hpos : (0 : Int) < ranges.length := by omega
    have hwrap : wrapIndex (castIndex host a d i) (Int.bmod ranges.length (2 ^ 32)) =
        .ok (roundedIndex a d i % ranges.length) := by
      rw [castIndex_of_fits (hindex i i.isLt), bmod_length hlen]
      exact Checked.wrap_eq_ok_of_fits (hindex i i.isLt) hpos (hsum i i.isLt)
    obtain ⟨idx, hidx⟩ := Int.eq_ofNat_of_zero_le (Int.emod_nonneg (roundedIndex a d i) hpos.ne')
    have hlt : idx < ranges.length := by
      have := Int.emod_lt_of_pos (roundedIndex a d i) hpos
      omega
    have hread := List.getElem?_eq_getElem hlt
    rw [hidx] at hwrap
    exact ⟨_, (sampleRay_scanAt hd).mpr ⟨idx, _, hwrap, hread, rfl⟩, idx, _, hread,
      normReading_normalized _, within_wrap hd hturn hidx⟩
  choose x hx hseen using hray
  exact ⟨x, (sampleScan_usable (scanAt_usable hd hne)).mpr ⟨x, rfl, hx⟩, hseen⟩

theorem wrappedAngle_mem (i : Nat) : -Real.pi < wrappedAngle i ∧ wrappedAngle i ≤ Real.pi :=
  Complex.arg_mem_Ioc _

/-- The rounded index is near the quotient. -/
theorem roundedIndex_bounds {a d : ℝ} {i : Nat} {lo hi : ℤ}
    (hlo : lo - 1 / 2 < (wrappedAngle i - a) / d) (hhi : (wrappedAngle i - a) / d < hi + 1 / 2) :
    lo ≤ roundedIndex a d i ∧ roundedIndex a d i ≤ hi := by
  have hround := abs_le.mp (roundedIndex_error a d i)
  have hlo' : (lo - 1 : ℝ) < roundedIndex a d i := by linarith [hround.2]
  have hhi' : (roundedIndex a d i : ℝ) < hi + 1 := by linarith [hround.1]
  constructor
  · have : lo - 1 < roundedIndex a d i := by exact_mod_cast hlo'
    omega
  · have : roundedIndex a d i < hi + 1 := by exact_mod_cast hhi'
    omega

/-- Four beams, clockwise. -/
theorem clockwise_seen :
    ∃ x : Scan (Ieee ℝ), SampledAs stillHost
        (some (scanAt 0 (-(Real.pi / 2)) [fin 1, fin 2, fin 3, posInf])) x ∧
      ∀ i : Fin nRays, SeenAlong 0 (-(Real.pi / 2)) [fin 1, fin 2, fin 3, posInf] i (x i) := by
  have hpi := Real.pi_pos
  have hindex : ∀ i, -3 ≤ roundedIndex 0 (-(Real.pi / 2)) i ∧
      roundedIndex 0 (-(Real.pi / 2)) i ≤ 3 := by
    intro i
    obtain ⟨hlo, hhi⟩ := wrappedAngle_mem i
    apply roundedIndex_bounds
    · rw [lt_div_iff_of_neg (by linarith)]
      push_cast
      linarith
    · rw [div_lt_iff_of_neg (by linarith)]
      push_cast
      linarith
  refine sampleScan_fullTurn stillHost (by simp) ?_ (fun i _ => ?_) ?_ fun i _ => ?_
  · rw [abs_neg, abs_of_pos (by linarith)]
    simp only [List.length_cons, List.length_nil]
    push_cast
    ring
  · have := hindex i
    unfold InInt32
    omega
  · simp [InInt32]
  · exact Checked.tmod_add_fits _ (by simp) (by simp)

/-- The increment of a full turn of `n` beams. -/
def fineIncrement (n : Nat) : ℝ := 2.0 * Real.pi / n

/-- The first beam of a full turn whose last beam looks straight ahead. -/
def fineMin (n : Nat) : ℝ := -((n - 1) * fineIncrement n)

theorem fineIncrement_turn {n : Nat} (hn : 0 < n) : n * fineIncrement n = 2 * Real.pi := by
  have hn' : (n : ℝ) ≠ 0 := by exact_mod_cast hn.ne'
  rw [fineIncrement, mul_div_cancel₀ _ hn']
  norm_num

theorem fineIncrement_pos {n : Nat} (hn : 0 < n) : 0 < fineIncrement n := by
  have hn' : (0 : ℝ) < n := by exact_mod_cast hn
  have := Real.pi_pos
  rw [fineIncrement]
  positivity

theorem wrapIndex_overflow {n : Int} (hn : 2 ^ 30 < n) (hn' : n < 2 ^ 31) :
    wrapIndex (n - 1) n = .error .overflow := by
  have hrem : (n - 1).tmod n = n - 1 := Int.tmod_eq_of_lt (by omega) (by omega)
  have hfits : InInt32 (n - 1) := by
    unfold InInt32
    omega
  have hsum : ¬InInt32 (n - 1 + n) := by
    unfold InInt32
    omega
  rw [wrapIndex, Checked.remInt_of_pos hfits (by omega), Checked.ok_bind, hrem, Checked.addInt,
    if_neg hsum]
  rfl

theorem wrappedAngle_zero : wrappedAngle 0 = 0 := by
  have hzero : trainingAngle 0 = 0 := by
    rw [trainingAngle, lidarOffset, Ieee.lit_eq, Ieee.toReal]
    norm_num
  rw [wrappedAngle, hzero, Complex.ofReal_zero, zero_mul, Complex.exp_zero, Complex.arg_one]

/-- The rounded indices of such a scan. -/
theorem fineScan_index {n : Nat} (hn : 0 < n) :
    (∀ i, 0 ≤ roundedIndex (fineMin n) (fineIncrement n) i ∧
      2 * roundedIndex (fineMin n) (fineIncrement n) i ≤ 3 * n) ∧
      roundedIndex (fineMin n) (fineIncrement n) 0 = n - 1 := by
  have hn' : (1 : ℝ) ≤ n := by exact_mod_cast hn
  have hpos := fineIncrement_pos hn
  have hturn := fineIncrement_turn hn
  constructor
  · intro i
    obtain ⟨hlo, hhi⟩ := wrappedAngle_mem i
    have hround := abs_le.mp (roundedIndex_error (fineMin n) (fineIncrement n) i)
    have hquot : (wrappedAngle i - fineMin n) / fineIncrement n =
        wrappedAngle i / fineIncrement n + (n - 1) := by
      rw [fineMin, sub_neg_eq_add, add_div, mul_div_cancel_right₀ _ hpos.ne']
    have hlower : -(n / 2) < wrappedAngle i / fineIncrement n := by
      rw [lt_div_iff₀ hpos]
      linarith
    have hupper : wrappedAngle i / fineIncrement n ≤ n / 2 := by
      rw [div_le_iff₀ hpos]
      linarith
    rw [hquot] at hround
    have hlo' : (-1 : ℝ) < roundedIndex (fineMin n) (fineIncrement n) i := by linarith [hround.2]
    have hhi' : (2 * roundedIndex (fineMin n) (fineIncrement n) i : ℝ) ≤ 3 * n := by
      linarith [hround.1]
    constructor
    · have : -1 < roundedIndex (fineMin n) (fineIncrement n) i := by exact_mod_cast hlo'
      omega
    · exact_mod_cast hhi'
  · have hquot : (wrappedAngle 0 - fineMin n) / fineIncrement n = n - 1 := by
      rw [wrappedAngle_zero, fineMin, zero_sub, neg_neg, mul_div_cancel_right₀ _ hpos.ne']
    have hbounds : (n - 1 : Int) ≤ roundedIndex (fineMin n) (fineIncrement n) 0 ∧
        roundedIndex (fineMin n) (fineIncrement n) 0 ≤ n - 1 := by
      apply roundedIndex_bounds
      · rw [hquot]
        push_cast
        linarith
      · rw [hquot]
        push_cast
        linarith
    omega

/-- More beams than the sum in the wrap can take. -/
def manyBeams : Nat := 2 ^ 30 + 1

/-- On a full turn of that many beams the rounded indices fit, and the sum in the
wrap overflows at ray 0. -/
theorem manyBeams_overflow :
    manyBeams * |fineIncrement manyBeams| = 2 * Real.pi ∧
      (∀ i < nRays, InInt32 (roundedIndex (fineMin manyBeams) (fineIncrement manyBeams) i)) ∧
      ¬∃ x, SampledAs stillHost (some (scanAt (fineMin manyBeams) (fineIncrement manyBeams)
        (List.replicate manyBeams (fin 1)))) x := by
  have hmany : (manyBeams : Int) = 2 ^ 30 + 1 := by
    rw [manyBeams]
    norm_num
  generalize manyBeams = n at hmany ⊢
  have hn : 0 < n := by omega
  have hpos := fineIncrement_pos hn
  obtain ⟨hindex, hzero⟩ := fineScan_index hn
  refine ⟨?_, fun i _ => ?_, ?_⟩
  · rw [abs_of_pos hpos, fineIncrement_turn hn]
  · have := hindex i
    unfold InInt32
    omega
  · rintro ⟨x, hx⟩
    have hlen : 1 ≤ (List.replicate n (fin 1 : Ieee ℝ)).length := by
      rw [List.length_replicate]
      exact hn
    obtain ⟨x', -, hray⟩ := (sampleScan_usable (scanAt_usable hpos.ne' hlen)).mp hx
    obtain ⟨idx, r, hwrap, -⟩ := (sampleRay_scanAt hpos.ne').mp (hray ⟨0, by decide⟩)
    have hfits : InInt32 (n - 1) := by
      unfold InInt32
      omega
    rw [castIndex_of_fits (hzero ▸ hfits), hzero, List.length_replicate, bmod_length
      (by unfold InInt32; omega), wrapIndex_overflow (by omega) (by omega)] at hwrap
    cases hwrap

/-! ## Other scans -/

/-- Ray `i` reads beam `idx` of a scan of `n` beams. -/
def ReadsBeam (host : Host (Ieee ℝ)) (a d : ℝ) (n i idx : Nat) : Prop :=
  wrapIndex (castIndex host a d i) (Int.bmod n (2 ^ 32)) = .ok (idx : Int) ∧ idx < n

theorem ReadsBeam.unique {host : Host (Ieee ℝ)} {a d : ℝ} {n i idx idx' : Nat}
    (h : ReadsBeam host a d n i idx) (h' : ReadsBeam host a d n i idx') : idx = idx' := by
  have heq := h.1.symm.trans h'.1
  injection heq with heq
  exact Int.ofNat_inj.mp heq

section
variable {host : Host (Ieee ℝ)} {a d : ℝ} {ranges : List (Ieee ℝ)}

/-- A sampled ray shows the beam that it reads. -/
theorem sampled_reads (hd : d ≠ 0) (hne : 1 ≤ ranges.length) {x : Scan (Ieee ℝ)}
    (h : SampledAs host (some (scanAt a d ranges)) x) (i : Fin nRays) :
    ∃ idx r, ReadsBeam host a d ranges.length i idx ∧ ranges[idx]? = some r ∧
      x i = normReading r := by
  obtain ⟨x', hx, hray⟩ := (sampleScan_usable (scanAt_usable hd hne)).mp h
  obtain rfl := List.ofFn_injective hx
  obtain ⟨idx, r, hidx, hr, hv⟩ := (sampleRay_scanAt hd).mp (hray i)
  exact ⟨idx, r, ⟨hidx, (List.getElem?_eq_some_iff.mp hr).1⟩, hr, hv⟩

end

/-- The index arithmetic of a message that is not too long. -/
theorem readsBeam_iff {host : Host (Ieee ℝ)} {a d : ℝ} {n i idx : Nat} (hn : 1 ≤ n)
    (hn' : n ≤ 2 ^ 30) : ReadsBeam host a d n i idx ↔ castIndex host a d i % n = idx := by
  have hpos : (0 : Int) < n := by omega
  have hfits : InInt32 (castIndex host a d i) := lroundInt_inInt32 ..
  rw [ReadsBeam, bmod_length (by unfold InInt32; omega), wrapIndex_eq_ok hfits hn hn',
    Except.ok.injEq]
  constructor
  · intro h
    exact h.1
  · intro h
    have := Int.emod_lt_of_pos (castIndex host a d i) hpos
    exact ⟨h, by omega⟩

end

end RLNav
