import Mathlib.Algebra.Order.BigOperators.Group.Finset
import Mathlib.Algebra.BigOperators.Intervals
import Mathlib.Data.Finset.Fold
import Mathlib.Order.Bounds.Basic

/-!
# Walking a polyline

A polyline is given by the lengths `seg k` of its segments, segment `k` joining
vertex `k` to vertex `k + 1`.  `arc c j` is the length from vertex `c` to vertex
`j`.  `advance` walks from a vertex while the length walked is `short` and a
vertex is left; it stops at the first vertex whose arc length is not short, or
at the last one (`advance_firstCrossing`).  That vertex moves forward with the
start, and as more lengths are short (`FirstCrossing.mono`).
-/

namespace Polyline

variable {R : Type} [AddCommMonoid R]

/-- The length from vertex `c` to vertex `j`. -/
def arc (seg : Nat → R) (c j : Nat) : R := ∑ k ∈ Finset.Ico c j, seg k

@[simp] theorem arc_self (seg : Nat → R) (c : Nat) : arc seg c c = 0 := by simp [arc]

theorem arc_succ {seg : Nat → R} {c j : Nat} (h : c ≤ j) :
    arc seg c (j + 1) = arc seg c j + seg j :=
  Finset.sum_Ico_succ_top h seg

/-- The walk from vertex `j` with `acc` already accumulated. -/
def advance (seg : Nat → R) (last : Nat) (short : R → Bool) (j : Nat) (acc : R) : Nat :=
  if j < last ∧ short acc = true then advance seg last short (j + 1) (acc + seg j) else j
termination_by last - j

/-- `j` is the first vertex from `c` on whose arc length is not short, or the
last vertex if there is none. -/
structure FirstCrossing (seg : Nat → R) (last : Nat) (short : R → Bool) (c j : Nat) : Prop where
  lower : c ≤ j
  upper : j ≤ last
  before : ∀ k, c ≤ k → k < j → short (arc seg c k) = true
  stop : j = last ∨ short (arc seg c j) = false

section
variable {seg : Nat → R} {last c j : Nat} {short : R → Bool}

/-- The walk stops at the first crossing. -/
theorem advance_firstCrossing (hc : c ≤ last) :
    FirstCrossing seg last short c (advance seg last short c 0) := by
  suffices H : ∀ j acc, acc = arc seg c j → c ≤ j → j ≤ last →
      (∀ k, c ≤ k → k < j → short (arc seg c k) = true) →
      FirstCrossing seg last short c (advance seg last short j acc) from
    H c 0 (arc_self seg c).symm le_rfl hc fun k hk hkc => absurd hkc (by omega)
  intro j acc
  induction j, acc using advance.induct seg last short with
  | case1 j acc hgo ih =>
      intro hacc hcj hj hbefore
      rw [advance, if_pos hgo]
      refine ih (by rw [arc_succ hcj, hacc]) (by omega) hgo.1 fun k hk hkj => ?_
      rcases Nat.lt_succ_iff_lt_or_eq.mp hkj with hkj | rfl
      · exact hbefore k hk hkj
      · exact hacc ▸ hgo.2
  | case2 j acc hstop =>
      intro hacc hcj hj hbefore
      rw [advance, if_neg hstop]
      refine ⟨hcj, hj, hbefore, ?_⟩
      by_cases hlast : j = last
      · exact Or.inl hlast
      · refine Or.inr (hacc ▸ ?_)
        by_contra hshort
        exact hstop ⟨by omega, by simpa using hshort⟩

/-- The crossing is the least vertex whose arc length is not short. -/
theorem FirstCrossing.isLeast (h : FirstCrossing seg last short c j)
    (hj : short (arc seg c j) = false) :
    IsLeast {k | c ≤ k ∧ k ≤ last ∧ short (arc seg c k) = false} j := by
  refine ⟨⟨h.lower, h.upper, hj⟩, ?_⟩
  rintro k ⟨hck, -, hk⟩
  by_contra hkj
  rw [h.before k hck (not_le.mp hkj)] at hk
  cases hk

/-- Without such a vertex the walk ends at the last one. -/
theorem FirstCrossing.eq_last (h : FirstCrossing seg last short c j)
    (hj : short (arc seg c j) = true) : j = last := by
  refine h.stop.resolve_right ?_
  rw [hj]
  exact Bool.true_eq_false.mp

/-- The arc before the last segment is short. -/
theorem FirstCrossing.before_last (h : FirstCrossing seg last short c j) (hcj : c < j) :
    short (arc seg c (j - 1)) = true ∧ arc seg c j = arc seg c (j - 1) + seg (j - 1) := by
  obtain ⟨i, rfl⟩ : ∃ i, j = i + 1 := ⟨j - 1, by omega⟩
  exact ⟨h.before i (by omega) (by omega), arc_succ (by omega)⟩

variable [LinearOrder R] [IsOrderedAddMonoid R]

/-- A later end lengthens the arc. -/
theorem arc_mono {j' : Nat} (hseg : ∀ k, 0 ≤ seg k) (hj : j ≤ j') : arc seg c j ≤ arc seg c j' :=
  Finset.sum_le_sum_of_subset_of_nonneg (Finset.Ico_subset_Ico le_rfl hj) fun k _ _ => hseg k

/-- A later start shortens the arc. -/
theorem arc_anti {c' : Nat} (hseg : ∀ k, 0 ≤ seg k) (hc : c ≤ c') :
    arc seg c' j ≤ arc seg c j :=
  Finset.sum_le_sum_of_subset_of_nonneg (Finset.Ico_subset_Ico hc le_rfl) fun k _ _ => hseg k

/-- The crossing moves forward with the start and with the bound. -/
theorem FirstCrossing.mono {c' j' : Nat} {short' : R → Bool} (hseg : ∀ k, 0 ≤ seg k)
    (h : FirstCrossing seg last short c j) (h' : FirstCrossing seg last short' c' j')
    (hc : c ≤ c') (hshort : ∀ x y, x ≤ y → short y = true → short' x = true) : j ≤ j' := by
  by_contra hlt
  have hlt : j' < j := not_le.mp hlt
  cases h'.stop with
  | inl hlast =>
      have := h.upper
      omega
  | inr hcross =>
      have hbefore := h.before j' (hc.trans h'.lower) hlt
      rw [hshort _ _ (arc_anti hseg hc) hbefore] at hcross
      cases hcross

/-! ## The overshoot -/

/-- The longest segment from vertex `c` to vertex `j`, zero if there is none. -/
def longest (seg : Nat → R) (c j : Nat) : R := (Finset.Ico c j).fold max 0 seg

omit [IsOrderedAddMonoid R] in
theorem longest_nonneg : 0 ≤ longest seg c j := Finset.le_fold_max _ |>.mpr (Or.inl le_rfl)

omit [IsOrderedAddMonoid R] in
theorem le_longest {k : Nat} (hck : c ≤ k) (hkj : k < j) : seg k ≤ longest seg c j :=
  Finset.le_fold_max _ |>.mpr (Or.inr ⟨k, Finset.mem_Ico.mpr ⟨hck, hkj⟩, le_rfl⟩)

/-- The walk overshoots a bound on the short lengths by at most one segment. -/
theorem FirstCrossing.arc_le {B : R} (h : FirstCrossing seg last short c j) (hB : 0 ≤ B)
    (hshort : ∀ x, short x = true → x ≤ B) : arc seg c j ≤ B + longest seg c j := by
  cases h.lower.eq_or_lt with
  | inl heq =>
      rw [← heq, arc_self]
      exact add_nonneg hB longest_nonneg
  | inr hlt =>
      obtain ⟨hbefore, hsplit⟩ := h.before_last hlt
      rw [hsplit]
      exact add_le_add (hshort _ hbefore) (le_longest (by omega) (by omega))

end

end Polyline
