import RLNav.Safety

/-!
# How long a message may be

The index of a beam is wrapped in `int` arithmetic, and the size of the message is cast
to `int` before.  Where the language leaves the rounded index open it may be any `int`.
If it does so for some ray, the wrapped indices are safe exactly for the sizes that are
cast to a number from 1 to `2^30` (`sampleScan_size_iff`).  A larger one overflows in
`(idx % n) + n`, a size that is cast to zero divides by zero, and one that is cast to a
negative number yields a negative index or overflows in the division.
-/

namespace RLNav

open Checked (Fault InInt32 addInt bind_eq_ok ok_bind readInt remInt)

/-- The size of a message as an `int`. -/
def intSize (n : Nat) : Int := Int.bmod n (2 ^ 32)

theorem intSize_fits (n : Nat) : InInt32 (intSize n) := by
  have hlo := Int.le_bmod (x := n) (m := 2 ^ 32) (by decide)
  have hhi := Int.bmod_lt (x := n) (m := 2 ^ 32) (by decide)
  unfold InInt32 intSize
  omega

/-- The cast drops the high bits, so it never makes a size larger. -/
theorem intSize_le (n : Nat) : intSize n ≤ n := by
  have hmod := Int.bmod_def (n : Int) (2 ^ 32)
  unfold intSize
  omega

/-- An index that is unsafe for the size `n`. -/
def badIndex (n : Int) : Int :=
  if 2 ^ 30 < n then n - 1 else if n = -1 then -2 ^ 31 else 1

theorem badIndex_fits {n : Int} (hn : InInt32 n) : InInt32 (badIndex n) := by
  unfold badIndex InInt32 at *
  split
  · omega
  · split <;> omega

/-- A size above `2^30`: the sum overflows. -/
theorem wrapIndex_large {n : Int} (hn : InInt32 n) (hlarge : 2 ^ 30 < n) (k : Int) :
    wrapIndex (n - 1) n ≠ .ok k := by
  intro h
  obtain ⟨r, hr, h⟩ := bind_eq_ok.mp h
  obtain ⟨t, ht, -⟩ := bind_eq_ok.mp h
  have hfit : InInt32 (n - 1) := by
    unfold InInt32 at *
    omega
  rw [Checked.remInt_of_pos hfit (by omega), Int.tmod_eq_of_lt (by omega) (by omega)] at hr
  cases hr
  have hover : ¬InInt32 (n - 1 + n) := by
    unfold InInt32
    omega
  rw [addInt, if_neg hover] at ht
  cases ht

/-- A negative size: the index keeps its sign. -/
theorem wrapIndex_negative {n k : Int} (hn : InInt32 n) (hneg : n < -1)
    (h : wrapIndex 1 n = .ok k) : k < 0 := by
  obtain ⟨m, rfl⟩ : ∃ m, n = -m := ⟨-n, (neg_neg n).symm⟩
  have hfirst : remInt 1 (-m) = .ok 1 := by
    have hquot : (1 : Int).tdiv (-m) = 0 := by
      rw [Int.tdiv_neg, Int.tdiv_eq_zero_of_lt (by omega) (by omega), neg_zero]
    rw [remInt, if_neg (by omega), hquot, if_pos (by decide), Int.tmod_neg,
      Int.tmod_eq_of_lt (by omega) (by omega)]
  have hfit : InInt32 (1 + -m) := by
    unfold InInt32 at *
    omega
  have hlast : remInt (1 + -m) (-m) = .ok (1 + -m) := by
    have hflip : 1 + -m = -(m - 1) := by omega
    have hquot : (1 + -m).tdiv (-m) = 0 := by
      rw [hflip, Int.neg_tdiv_neg, Int.tdiv_eq_zero_of_lt (by omega) (by omega)]
    rw [remInt, if_neg (by omega), hquot, if_pos (by decide), hflip, Int.tmod_neg, Int.neg_tmod,
      Int.tmod_eq_of_lt (by omega) (by omega)]
  rw [wrapIndex, hfirst, ok_bind, addInt, if_pos hfit, ok_bind, hlast] at h
  cases h
  omega

/-- The wrapped index faults, or is negative. -/
theorem wrapIndex_bad {n k : Int} (hn : InInt32 n) (hbad : n < 1 ∨ 2 ^ 30 < n)
    (h : wrapIndex (badIndex n) n = .ok k) : k < 0 := by
  unfold badIndex at h
  split at h
  next hlarge => exact absurd h (wrapIndex_large hn hlarge k)
  next hsmall =>
    split at h
    next hone =>
      subst hone
      have hfault : wrapIndex (-2 ^ 31) (-1) = .error .overflow := by decide
      rw [hfault] at h
      cases h
    next hone =>
      by_cases hzero : n = 0
      · subst hzero
        have hfault : wrapIndex 1 0 = .error .divByZero := by decide
        rw [hfault] at h
        cases h
      · exact wrapIndex_negative hn (by omega) h

section
variable {F : Type} [CFloat F]

/-- The language leaves the index of a ray open: the quotient has no rounded value, or
one that does not fit in an `int`. -/
def OpenIndex (s : LaserScan F) (i : Nat) : Prop :=
  ∀ z, CFloat.lround ((rayAngle i - s.angleMin) / s.angleIncrement) = some z → ¬InInt32 z

/-- An open index is what the platform makes of it. -/
theorem OpenIndex.lroundInt {s : LaserScan F} {i : Nat} (h : OpenIndex s i) (host : Host F) :
    lroundInt host ((rayAngle i - s.angleMin) / s.angleIncrement) =
      (host.unspecInt ((rayAngle i - s.angleMin) / s.angleIncrement)).toInt := by
  rw [RLNav.lroundInt]
  split
  next z hz => rw [if_neg (h z hz)]
  next => rfl

/-- A message for which the language leaves some index open is sampled without fault on
every platform exactly if its size is cast to a number from 1 to `2^30`. -/
theorem sampleScan_size_iff (session : List F → F × F) {s : LaserScan F} (hs : s.usable = true)
    (hopen : ∃ i < nRays, OpenIndex s i) :
    (∀ unspecInt : F → Int32, ∃ xs, sampleScan ⟨session, unspecInt⟩ (some s) = .ok xs) ↔
      1 ≤ intSize s.ranges.length ∧ intSize s.ranges.length ≤ 2 ^ 30 := by
  constructor
  · intro hall
    by_contra hbad
    obtain ⟨i, hi, hopen⟩ := hopen
    have hfit := badIndex_fits (intSize_fits s.ranges.length)
    obtain ⟨xs, hxs⟩ := hall fun _ => Int32.ofInt (badIndex (intSize s.ranges.length))
    obtain ⟨x, -, hx⟩ := (sampleScan_usable hs).mp hxs
    obtain ⟨idx, r, hidx, -⟩ := sampleRay_eq_ok.mp (hx ⟨i, hi⟩)
    rw [beamIndex, hopen.lroundInt, Int32.toInt_ofInt_of_le hfit.1 hfit.2] at hidx
    have hneg := wrapIndex_bad (intSize_fits s.ranges.length) (by omega) hidx
    omega
  · rintro ⟨hlo, hhi⟩ unspecInt
    have hray : ∀ i : Fin nRays, ∃ v, sampleRay ⟨session, unspecInt⟩ s i = .ok v := by
      intro i
      obtain ⟨z, hz, hbeam⟩ : ∃ z, InInt32 z ∧ beamIndex ⟨session, unspecInt⟩ s i =
          wrapIndex z (intSize s.ranges.length) := ⟨_, lroundInt_inInt32 .., rfl⟩
      have hwrap : wrapIndex z (intSize s.ranges.length) = .ok (z % intSize s.ranges.length) :=
        Checked.wrap_eq_ok hz (by omega) hhi
      have hle := intSize_le s.ranges.length
      obtain ⟨idx, hidx⟩ := Int.eq_ofNat_of_zero_le
        (Int.emod_nonneg z (b := intSize s.ranges.length) (by omega))
      have hlt := Int.emod_lt_of_pos z (b := intSize s.ranges.length) (by omega)
      have hlen : idx < s.ranges.length := by omega
      exact ⟨_, sampleRay_eq_ok.mpr ⟨idx, _, by rw [hbeam, hwrap, hidx],
        List.getElem?_eq_getElem hlen, rfl⟩⟩
    choose x hx using hray
    exact ⟨_, (sampleScan_usable hs).mpr ⟨x, rfl, hx⟩⟩

end

/-- A beam so many turns ahead that its index is finite and does not fit. -/
def lostBeam : LaserScan (Ieee ℝ) :=
  { angleMin := .fin 4294967296.0, angleIncrement := .fin 1, ranges := [.fin 1] }

theorem lostBeam_open : OpenIndex lostBeam 0 := by
  have hahead : (⟨Real.cos 0.0, Real.sin 0.0⟩ : ℂ) = 1 := by
    norm_num [Complex.ext_iff]
  have hray : (rayAngle 0 : Ieee ℝ) = .fin 0 := by
    simp [rayAngle, lidarOffset, nRays, Ieee.div_fin, hahead]
  intro z hz
  rw [hray, lostBeam, Ieee.sub_fin, Ieee.div_fin _ one_ne_zero] at hz
  have hround : Ieee.roundHalfAway ((0 - 4294967296.0) / 1) = z := Option.some.inj hz
  have hnear := abs_le.mp (Ieee.abs_sub_roundHalfAway ((0 - 4294967296.0) / 1))
  rw [hround] at hnear
  have hlow : (z : ℝ) < -2 ^ 31 := by
    norm_num at hnear ⊢
    linarith [hnear.1]
  have : z < -2 ^ 31 := by exact_mod_cast hlow
  unfold InInt32
  omega

theorem lostBeam_size :
    (∀ unspecInt : Ieee ℝ → Int32,
      ∃ xs, sampleScan ⟨fun _ => (.fin 0, .fin 0), unspecInt⟩ (some lostBeam) = .ok xs) ↔
      1 ≤ intSize lostBeam.ranges.length ∧ intSize lostBeam.ranges.length ≤ 2 ^ 30 :=
  sampleScan_size_iff _ (by simp [LaserScan.usable, lostBeam]) ⟨0, by decide, lostBeam_open⟩

end RLNav
