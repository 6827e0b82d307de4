import RLNav.History
import RLNav.Route

/-!
# The carrot never moves backward

The nearest index moves forward along a plan (`run_carrotIdx`), and the carrot
is a crossing counted from it, so the carrot moves forward as well as long as
the lookahead does not shrink (`carrot_never_back`).  Poses are arbitrary: a pose
that is not a number leaves the nearest index where it was.
-/

namespace RLNav

open Ieee (fin)
open CFloat (lit)

section
variable {F D : Type}

/-- The lookaheads in force at the calls, from the lookahead `L` at the start. -/
def lookaheads : D → List (Event F D) → List D
  | _, [] => []
  | L, e :: es =>
      match e with
      | .setParam value => lookaheads value es
      | .compute _ _ => L :: lookaheads L es
      | _ => lookaheads L es

end

section
variable {F : Type} [CFloat F] [FloatCast F (Ieee ℝ)]

/-- The carrot of a cycle is a crossing of the path for the lookahead `L`. -/
def IsCrossing (path : Path (Ieee ℝ)) (L : Ieee ℝ) (c : Cycle F (Ieee ℝ)) : Prop :=
  Polyline.FirstCrossing (segment path.poses) (path.poses.length - 1) (short L)
    c.carrot.carrotIdx c.carrot.j

/-- The cycles of a run that keeps the plan: every carrot is a crossing, from
nearest indices that do not fall. -/
theorem run_crossings {host : Host F} {st st' : RLController F (Ieee ℝ)}
    {evs : List (Event F (Ieee ℝ))} {os : List (Output F (Ieee ℝ))} (hst : WellFormed st)
    (hne : st.currentPath.poses ≠ []) (hfin : st.currentPath.IsFinite)
    (hevs : ∀ e ∈ evs, e.KeepsPlan) (h : run host st evs = .ok (st', os)) :
    List.Forall₂ (IsCrossing st.currentPath) (lookaheads st.lookaheadParam evs) (cycles os) ∧
      (cycles os).Pairwise (fun c c' => c.carrot.carrotIdx ≤ c'.carrot.carrotIdx) ∧
      ∀ c ∈ cycles os, st.carrotIdx ≤ c.carrot.carrotIdx := by
  induction evs generalizing st os with
  | nil =>
      obtain ⟨rfl, rfl⟩ := Machine.run_nil_eq_ok.mp h
      exact ⟨.nil, .nil, by simp [cycles]⟩
  | cons e evs ih =>
      obtain ⟨st₁, out, os₁, h₁, h₂, rfl⟩ := Machine.run_cons_eq_ok.mp h
      have hrest : ∀ e' ∈ evs, e'.KeepsPlan := fun e' he' => hevs e' (List.mem_cons_of_mem _ he')
      have hst₁ := step_wellFormed hst h₁
      obtain ⟨m, hm⟩ := hst.memory
      cases (step_eq_ok hm).mp h₁ with
      | scan msg => exact @ih (scanCallback st msg) os₁ hst₁ hne hfin hrest h₂
      | setPlan path => exact (hevs _ (List.mem_cons_self ..)).elim
      | setParam value => exact @ih (setParam st value) os₁ hst₁ hne hfin hrest h₂
      | lifecycle call => exact @ih st os₁ hst₁ hne hfin hrest h₂
      | stop pose velocity hplan => exact absurd hplan hne
      | drive pose velocity x carrot hplan hx hcarrot =>
          obtain ⟨hcross, hpair, hle⟩ := ih hst₁ hne hfin hrest h₂
          have hidx := hst.index hplan
          have hbounds := findCarrot_bounds hidx hcarrot
          refine ⟨.cons (findCarrot_crossing hfin hidx hcarrot) hcross, .cons hle hpair, ?_⟩
          intro c hc
          cases List.mem_cons.mp hc with
          | inl heq => exact heq ▸ hbounds.1
          | inr hmem => exact hbounds.1.trans (hle c hmem)

/-- The lookahead that grows makes more lengths short. -/
theorem short_mono {L L' : Ieee ℝ} (hL : Ieee.Le L L') :
    ∀ x y, x ≤ y → short L y = true → short L' x = true :=
  fun _ _ hxy hy => Ieee.lt_of_fin_le hxy hy hL

/-- Between two calls of `setPlan`, with lookaheads that do not shrink, the
carrot does not move backward, and stays at the last waypoint once it is there. -/
theorem carrot_never_back {host : Host F} {s₀ st : RLController F (Ieee ℝ)}
    {path : Path (Ieee ℝ)} {post : List (Event F (Ieee ℝ))} {os : List (Output F (Ieee ℝ))}
    (hs₀ : Reachable host s₀) (hne : path.poses ≠ []) (hfin : path.IsFinite)
    (hpost : ∀ e ∈ post, e.KeepsPlan)
    (hL : (lookaheads s₀.lookaheadParam post).Pairwise Ieee.Le)
    (h : run host (setPlan s₀ path) post = .ok (st, os)) :
    (∀ c ∈ cycles os, c.carrot.carrotIdx ≤ c.carrot.j ∧ c.carrot.j < path.poses.length) ∧
    (cycles os).Pairwise fun c c' => c.carrot.j ≤ c'.carrot.j ∧
      (c.carrot.j + 1 = path.poses.length → c'.carrot.j + 1 = path.poses.length) := by
  obtain ⟨hcross, hpair, -⟩ := run_crossings (hs₀.wellFormed.setPlan path) hne hfin hpost h
  have hpos : 0 < path.poses.length := List.length_pos_iff.mpr hne
  have hlen : (lookaheads s₀.lookaheadParam post).length = (cycles os).length := hcross.length_eq
  have hget : ∀ i (hi : i < (cycles os).length)
      (hi' : i < (lookaheads s₀.lookaheadParam post).length),
      IsCrossing path (lookaheads s₀.lookaheadParam post)[i] (cycles os)[i] :=
    fun i hi hi' => (List.forall₂_iff_get.mp hcross).2 i hi' hi
  constructor
  · intro c hc
    obtain ⟨i, hi, rfl⟩ := List.getElem_of_mem hc
    have hi := hget i hi (by omega)
    have hupper := hi.upper
    exact ⟨hi.lower, by omega⟩
  · rw [List.pairwise_iff_getElem] at hpair hL ⊢
    intro i k hi hk hik
    have hi' : i < (lookaheads s₀.lookaheadParam post).length := by omega
    have hk' : k < (lookaheads s₀.lookaheadParam post).length := by omega
    have hupper := (hget k hk hk').upper
    have hmono := (hget i hi hi').mono (segment_nonneg hfin) (hget k hk hk')
      (hpair i k hi hk hik) (short_mono (hL i k hi' hk' hik))
    exact ⟨hmono, fun hlast => by omega⟩

end

/-- Along the straight plan the carrot moves to the last waypoint and stays there. -/
theorem straightCalls_carrot :
    ∃ st os, run (stillHost : Host (Ieee ℝ))
        (setPlan (configure noTf (none : Option (Ieee ℝ))) straightPath) straightCalls =
          .ok (st, os) ∧
      (carrots os).map (·.j) = [1, 2, 2] ∧
      (cycles os).Pairwise fun c c' => c.carrot.j ≤ c'.carrot.j ∧
        (c.carrot.j + 1 = 3 → c'.carrot.j + 1 = 3) := by
  have hstart : Reachable (stillHost : Host (Ieee ℝ)) (configure noTf (none : Option (Ieee ℝ))) :=
    Reachable.configure stillHost noTf none
  have hplanned := hstart.wellFormed.setPlan straightPath
  obtain ⟨st, os, h, -⟩ := run_total stillHost straightCalls hplanned
    (fun s hs => by cases hs) straightCalls_fits
  have hjs := (straightCalls_carrots (L := ((0.3 : ℚ) : ℝ)) (by norm_num) (by norm_num) hplanned
    rfl rfl rfl h).2
  exact ⟨st, os, h, hjs, (carrot_never_back hstart (by simp [straightPath])
    straightPath_isFinite straightCalls_keepsPlan
    (by simp [lookaheads, straightCalls, smallCalls, configure, Ieee.Le]) h).2⟩

end RLNav
