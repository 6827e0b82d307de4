import RLNav.Exact.Plane
import RLNav.Following

/-!
# The indices that are reached

A search keeps the earlier of two waypoints at the same place, so the remembered index is
never a waypoint that repeats the one before it.  Every other waypoint of the plan is
reached by a robot that drives along it.  So the two together are exactly the indices
that a controller can remember (`index_reachable_iff`).
-/

namespace RLNav

open Ieee (fin)
open CFloat (lit)

/-- Waypoint `i` is the first one, or not at the place of the one before it. -/
def Path.MovesAt {D : Type} (path : Path D) (i : Nat) : Prop :=
  i = 0 ∨ ∃ p q, path.poses[i - 1]? = some p ∧ path.poses[i]? = some q ∧
    p.pose.position ≠ q.pose.position

section
variable {D : Type} [CFloat D] [CFloat.IeeeLaws D]

/-- A search ends where it started, or at a waypoint that is not at the place of the one
before it. -/
theorem nearestFrom_movesAt {path : Path D} {r : Point D} {c : Nat} (hc : c < path.poses.length)
    (hmoves : path.MovesAt c) : path.MovesAt (nearestFrom path.poses r c) := by
  obtain ⟨hlower, hupper⟩ := nearestFrom_bounds (r := r) hc
  obtain ⟨i, hi⟩ : ∃ i, nearestFrom path.poses r c = i := ⟨_, rfl⟩
  rw [hi] at hlower hupper ⊢
  rcases hlower.eq_or_lt with rfl | hlt
  · exact hmoves
  · refine Or.inr ⟨_, _, List.getElem?_eq_getElem (by omega), List.getElem?_eq_getElem hupper,
      fun hsame => ?_⟩
    refine ArgMin.search_range'_pred strictWeak_lt hi hlt ?_
    rw [waypointDist_of_lt (by omega), waypointDist_of_lt hupper, distance, distance, hsame]

variable {F : Type} [CFloat F] [FloatCast F D]

/-- The remembered index of every reachable controller. -/
theorem Reachable.movesAt {host : Host F} {st : RLController F D} (h : Reachable host st) :
    st.currentPath.MovesAt st.carrotIdx := by
  obtain ⟨T, tf, override, evs, os, h⟩ := h
  have hkeep := Machine.run_invariant
    (fun s : RLController F D => WellFormed s ∧ s.currentPath.MovesAt s.carrotIdx)
    (fun _ => True) ?_ ⟨configure_wellFormed tf override, Or.inl rfl⟩ (fun _ _ => trivial) h
  · exact hkeep.2
  · rintro s e s' out ⟨hs, hmoves⟩ - hstep
    refine ⟨step_wellFormed hs hstep, ?_⟩
    obtain ⟨m, hm⟩ := hs.memory
    cases (step_eq_ok hm).mp hstep with
    | scan msg => exact hmoves
    | setPlan path => exact Or.inl rfl
    | setParam value => exact hmoves
    | lifecycle call => exact hmoves
    | stop pose velocity hplan => exact hmoves
    | drive pose velocity x carrot hplan hx hcarrot =>
        have hidx := (findCarrot_eq_ok.mp hcarrot).1
        show s.currentPath.MovesAt carrot.carrotIdx
        rw [hidx]
        exact nearestFrom_movesAt (hs.index hplan) hmoves

end

section
variable {F : Type} [CFloat F] [FloatCast F (Ieee ℝ)] {path : Path (Ieee ℝ)}

theorem Path.IsFinite.numeric (h : path.IsFinite) : path.Numeric := by
  intro p hp
  obtain ⟨z, hz⟩ := h p hp
  rw [hz]
  exact ⟨rfl, rfl⟩

/-- Waypoints with equal coordinates are at the same place. -/
theorem SameWaypoint.position_eq (hfin : path.IsFinite) {i j : Nat} (h : SameWaypoint path i j) :
    ∃ p q, path.poses[i]? = some p ∧ path.poses[j]? = some q ∧
      p.pose.position = q.pose.position := by
  obtain ⟨p, q, hp, hq, hx, hy⟩ := h
  obtain ⟨z, hz⟩ := hfin p (List.mem_of_getElem? hp)
  obtain ⟨w, hw⟩ := hfin q (List.mem_of_getElem? hq)
  refine ⟨p, q, hp, hq, ?_⟩
  rw [hz, hw] at hx hy ⊢
  have hre : z.re = w.re := by simpa [pt, Ieee.eq_fin] using hx
  have him : z.im = w.im := by simpa [pt, Ieee.eq_fin] using hy
  rw [Complex.ext hre him]

/-- The poses of a robot that drives along a plan keep the index at the start of its
block. -/
theorem indexAfter_take (hfin : path.IsFinite) {i : Nat} (hi : i < path.poses.length) :
    IsBlockStart path i (indexAfter path (path.poses.take (i + 1)) 0) := by
  have hat : ∀ k (hk : k < path.poses.length), AtWaypoint path path.poses[k] k := fun k hk =>
    have hnum := hfin.numeric _ (List.getElem_mem hk)
    ⟨_, List.getElem?_eq_getElem hk, CFloat.DistanceLaws.eq_refl hnum.1,
      CFloat.DistanceLaws.eq_refl hnum.2⟩
  induction i with
  | zero =>
      have hstart : IsBlockStart path 0 0 := by
        refine ⟨le_rfl, fun k _ hk => ?_, fun k hk => by omega⟩
        obtain rfl : k = 0 := by omega
        exact (hat 0 hi).same (hat 0 hi)
      rw [List.take_succ_eq_append_getElem hi, List.take_zero]
      exact nearestFrom_blockStart hfin.numeric hstart ⟨le_rfl, Nat.zero_le _⟩ (hat 0 hi)
  | succ i ih =>
      rw [List.take_succ_eq_append_getElem hi, indexAfter, List.foldl_append]
      exact nearestFrom_blockStart hfin.numeric (ih (by omega)) ⟨Nat.le_succ i, le_rfl⟩
        (hat (i + 1) hi)

/-- A robot that drives along a plan. -/
noncomputable def driveAlong (path : Path (Ieee ℝ)) (i : Nat) : List (Event F (Ieee ℝ)) :=
  (path.poses.take (i + 1)).map (.compute · still)

omit [CFloat F] [FloatCast F (Ieee ℝ)] in
theorem driveAlong_keepsPlan (i : Nat) :
    ∀ e ∈ (driveAlong path i : List (Event F (Ieee ℝ))), e.KeepsPlan ∧ e.Fits := by
  intro e he
  obtain ⟨pose, -, rfl⟩ := List.mem_map.mp he
  exact ⟨trivial, trivial⟩

omit [CFloat F] [FloatCast F (Ieee ℝ)] in
theorem driveAlong_poses (i : Nat) :
    callPoses (driveAlong path i : List (Event F (Ieee ℝ))) = path.poses.take (i + 1) := by
  rw [driveAlong]
  induction path.poses.take (i + 1) with
  | nil => rfl
  | cons pose poses ih => exact congrArg _ ih

/-- The indices that a controller can remember on a plan. -/
theorem index_reachable_iff {host : Host F} (hfin : path.IsFinite) {i : Nat} :
    (∃ st : RLController F (Ieee ℝ), Reachable host st ∧ st.currentPath = path ∧
      st.carrotIdx = i) ↔ path.MovesAt i := by
  constructor
  · rintro ⟨st, hst, rfl, rfl⟩
    exact hst.movesAt
  · rintro (rfl | ⟨p, q, hp, hq, hne⟩)
    · exact ⟨setPlan (configure noTf none) path, ⟨Unit, noTf, none, [.setPlan path], [.silent], rfl⟩,
        rfl, rfl⟩
    · have hi : i < path.poses.length := (List.getElem?_eq_some_iff.mp hq).1
      have hstart := configure_wellFormed (F := F) noTf (none : Option (Ieee ℝ))
      obtain ⟨st, os, h, -⟩ := run_total host (driveAlong path i) (hstart.setPlan path)
        (fun s hs => by cases hs) fun e he => (driveAlong_keepsPlan i e he).2
      have hkeeps : ∀ e ∈ (driveAlong path i : List (Event F (Ieee ℝ))), e.KeepsPlan := fun e he =>
        (driveAlong_keepsPlan i e he).1
      have hidx := run_indexAfter (hstart.setPlan path) hkeeps h
      rw [driveAlong_poses] at hidx
      have hblock : IsBlockStart path i st.carrotIdx := hidx ▸ indexAfter_take hfin hi
      refine ⟨st, ⟨Unit, noTf, none, .setPlan path :: driveAlong path i, .silent :: os,
        Machine.run_cons_eq_ok.mpr ⟨_, _, _, rfl, h, rfl⟩⟩,
        (run_carrotIdx (hstart.setPlan path) hkeeps h).1, ?_⟩
      by_contra hother
      have hle := hblock.le
      obtain ⟨p', q', hp', hq', hsame⟩ :=
        (hblock.block (i - 1) (by omega) (Nat.sub_le i 1)).position_eq hfin
      rw [hp, Option.some.injEq] at hp'
      rw [hq, Option.some.injEq] at hq'
      exact hne (hp' ▸ hq' ▸ hsame)

end

theorem thereAndBack_isFinite : thereAndBack.IsFinite := by
  have hpose : ∀ x y : ℝ, (poseAt (fin x) (fin y)).pose.position.IsFinite :=
    fun x y => ⟨⟨x, y⟩, rfl⟩
  simp [thereAndBack, Path.IsFinite, hpose]

/-- The end of a plan that comes back to its start. -/
theorem thereAndBack_end :
    ∃ st : RLController (Ieee ℝ) (Ieee ℝ), Reachable stillHost st ∧
      st.currentPath = thereAndBack ∧ st.carrotIdx = 2 := by
  refine (index_reachable_iff thereAndBack_isFinite).mpr (Or.inr ⟨_, _, rfl, rfl, ?_⟩)
  simp [poseAt]

end RLNav
