import RLNav.Lib.Heading
import RLNav.Lib.IeeeReal
import RLNav.Lib.Planar
import RLNav.Model.Controller
import RLNav.Model.Goals

/-!
# Headings, encoded and decoded

On unit quaternions `yawFromQuat` is the heading of the orientation
(`yawFromQuat_ofQuaternion`), whatever the roll and pitch.  The scripts send turns
about the vertical axis, so the controller decodes the yaw that they were given.
-/

namespace RLNav

open Ieee (fin posInf negInf)
open CFloat (lit)
open Complex (I exp arg)
open Heading (Orientation forward turn)

noncomputable section

/-- The message of an orientation. -/
def ofQuaternion (q : Orientation) : Quaternion (Ieee ℝ) :=
  { x := fin q.imI, y := fin q.imJ, z := fin q.imK, w := fin q.re }

/-- The decoder computes the heading. -/
theorem yawFromQuat_ofQuaternion {q : Orientation} (hq : Quaternion.normSq q = 1) :
    yawFromQuat (ofQuaternion q) = fin (arg (forward q)) := by
  rw [Heading.forward_eq hq]
  simp only [yawFromQuat, ofQuaternion, Ieee.lit_eq, Ieee.mul_fin, Ieee.add_fin, Ieee.sub_fin,
    Ieee.atan2_fin]
  norm_num

/-- The encoders turn the level by the yaw. -/
theorem mapPose_orientation (x y : Ieee ℝ) (deg : ℝ) :
    ∃ p, mapPose x y (fin deg) = some p ∧
      p.pose.orientation = ofQuaternion (turn (deg * (Real.pi / 180))) := by
  have hdeg : radians (fin deg) = fin (deg * (Real.pi / 180)) := by
    rw [radians, Ieee.pi_eq, Ieee.lit_eq, Ieee.div_fin _ (by norm_num), Ieee.mul_fin]
    norm_num
  have hhalf : radians (fin deg) / lit 2.0 = fin (0.5 * (deg * (Real.pi / 180))) := by
    rw [hdeg, Ieee.lit_eq, Ieee.div_fin _ (by norm_num), Ieee.fin_inj]
    norm_num
    ring
  refine ⟨_, mapPose_eq_some.mpr ⟨?_, rfl⟩, ?_⟩
  · rw [hhalf]
    rfl
  · rw [hhalf, ofQuaternion, Ieee.sin_fin, Ieee.cos_fin]
    simp only [Ieee.lit_eq, Heading.turn_re, Heading.turn_imI, Heading.turn_imJ, Heading.turn_imK]
    norm_num

theorem radians_posInf : radians posInf / lit 2.0 = (posInf : Ieee ℝ) := by
  have hpos : 0 < Real.pi / ((180.0 : ℚ) : ℝ) := div_pos Real.pi_pos (by norm_num)
  rw [radians, Ieee.pi_eq, Ieee.lit_eq, Ieee.lit_eq, Ieee.div_fin _ (by norm_num)]
  show Ieee.div (Ieee.infOfSign _) _ = _
  rw [Ieee.infOfSign, if_pos hpos]
  show (if ((2.0 : ℚ) : ℝ) < 0 then _ else _) = _
  rw [if_neg (by norm_num)]

theorem radians_negInf : radians negInf / lit 2.0 = (negInf : Ieee ℝ) := by
  have hpos : 0 < Real.pi / ((180.0 : ℚ) : ℝ) := div_pos Real.pi_pos (by norm_num)
  rw [radians, Ieee.pi_eq, Ieee.lit_eq, Ieee.lit_eq, Ieee.div_fin _ (by norm_num)]
  show Ieee.div (Ieee.infOfSign _) _ = _
  rw [Ieee.infOfSign, if_neg (by linarith), if_pos (by linarith)]
  show (if ((2.0 : ℚ) : ℝ) < 0 then _ else _) = _
  rw [if_neg (by norm_num)]

/-- The encoders reject exactly the infinite yaws. -/
theorem mapPose_eq_none_iff {x y yaw : Ieee ℝ} :
    mapPose x y yaw = none ↔ yaw = posInf ∨ yaw = negInf := by
  cases yaw with
  | fin deg =>
      obtain ⟨p, hp, -⟩ := mapPose_orientation x y deg
      simp [hp]
  | posInf =>
      refine iff_of_true ?_ (Or.inl rfl)
      rw [mapPose, mathSin, radians_posInf]
      rfl
  | negInf =>
      refine iff_of_true ?_ (Or.inr rfl)
      rw [mapPose, mathSin, radians_negInf]
      rfl
  | nan =>
      refine iff_of_false ?_ (by simp)
      rw [mapPose, mathSin, mathCos]
      intro h
      cases h

/-- A turn by `θ` is decoded to `θ`, up to full turns. -/
theorem yawFromQuat_turn (θ : ℝ) :
    ∃ (ψ : ℝ) (k : ℤ), yawFromQuat (ofQuaternion (turn θ)) = fin ψ ∧ -Real.pi < ψ ∧
      ψ ≤ Real.pi ∧ ψ = θ + k * (2 * Real.pi) := by
  obtain ⟨k, hk⟩ := Planar.arg_exp_turns θ
  obtain ⟨hlo, hhi⟩ := Complex.arg_mem_Ioc (exp (θ * I))
  refine ⟨arg (exp (θ * I)), -k, ?_, hlo, hhi, ?_⟩
  · rw [yawFromQuat_ofQuaternion (Heading.normSq_turn θ), Heading.forward_of_turn]
  · push_cast
    linarith

/-- The decoder agrees with the encoders, and with turning the world.  A turn of
the world multiplies on the left. -/
theorem heading_agrees {q : Orientation} (hq : Quaternion.normSq q = 1) (hforward : forward q ≠ 0) :
    (∀ (x y : Ieee ℝ) (deg : ℝ), ∀ o ∈ [createPose x y (fin deg), goalPose x y (fin deg)],
      ∃ p, o = some p ∧
      (∃ r : Orientation, p.pose.orientation = ofQuaternion r ∧ Quaternion.normSq r = 1) ∧
      ∃ (ψ : ℝ) (k : ℤ), yawFromQuat p.pose.orientation = fin ψ ∧ -Real.pi < ψ ∧ ψ ≤ Real.pi ∧
        ψ = deg * (Real.pi / 180) + k * (2 * Real.pi)) ∧
    yawFromQuat (ofQuaternion q) = fin (arg (forward q)) ∧
    yawFromQuat (ofQuaternion (-q)) = yawFromQuat (ofQuaternion q) ∧
    ∀ θ : ℝ, ∃ k : ℤ, yawFromQuat (ofQuaternion (turn θ * q)) =
      fin (arg (forward q) + θ + k * (2 * Real.pi)) := by
  have hneg : Quaternion.normSq (-q) = 1 := by rw [Quaternion.normSq_neg, hq]
  refine ⟨fun x y deg o ho => ?_, yawFromQuat_ofQuaternion hq, ?_, fun θ => ?_⟩
  · obtain ⟨p, hp, hpose⟩ := mapPose_orientation x y deg
    refine ⟨p, ?_, ?_⟩
    · rcases List.mem_pair.mp ho with rfl | rfl
      · exact hp
      · exact hp
    · rw [hpose]
      exact ⟨⟨_, rfl, Heading.normSq_turn _⟩, yawFromQuat_turn _⟩
  · rw [yawFromQuat_ofQuaternion hneg, yawFromQuat_ofQuaternion hq, Heading.forward_neg]
  · have hturn : Quaternion.normSq (turn θ * q) = 1 := by
      rw [map_mul, Heading.normSq_turn, hq, one_mul]
    obtain ⟨k, hk⟩ := Heading.arg_forward_turn hforward θ
    exact ⟨k, by rw [yawFromQuat_ofQuaternion hturn, hk]⟩

/-- A robot that is pitched down. -/
def pitched : Orientation := ⟨0.8, 0, 0.6, 0⟩

theorem pitched_heading :
    yawFromQuat (ofQuaternion pitched) = fin (arg (forward pitched)) ∧
      yawFromQuat (ofQuaternion (-pitched)) = yawFromQuat (ofQuaternion pitched) := by
  have hunit : Quaternion.normSq pitched = 1 := by
    rw [Quaternion.normSq_def']
    show (0.8 : ℝ) ^ 2 + 0 ^ 2 + 0.6 ^ 2 + 0 ^ 2 = 1
    norm_num
  have hforward : forward pitched ≠ 0 := by
    intro hzero
    have hre : (1 : ℝ) - 2 * (0.6 * 0.6 + 0 * 0) = 0 :=
      congrArg Complex.re ((Heading.forward_eq hunit).symm.trans hzero)
    norm_num at hre
  obtain ⟨-, hyaw, hneg, -⟩ := heading_agrees hunit hforward
  exact ⟨hyaw, hneg⟩

end

end RLNav
