import Mathlib.Data.List.Basic
import Mathlib.Order.Nat

/-!
# Searching the first minimum

A loop over indices that keeps the best value so far and its index, and replaces
both on a strictly smaller value, returns the first minimum.  The comparison is
a `Bool` that need not be total: it is a strict weak order on the values that
satisfy `num`, as the comparison of an IEEE format is on the numbers.
-/

namespace ArgMin

/-- A comparison that is transitive, and negatively transitive through the
values in `num`. -/
structure StrictWeak {α : Type} (lt : α → α → Bool) (num : α → Prop) : Prop where
  irrefl : ∀ a, lt a a = false
  trans : ∀ {a b c}, lt a b = true → lt b c = true → lt a c = true
  cotrans : ∀ {a c} (b), num b → lt a c = true → lt a b = true ∨ lt b c = true

section
variable {α : Type} (lt : α → α → Bool) (d : Nat → α)

/-- `i` is the first index of `[a, b)` at which `d` is least. -/
structure IsFirstMin (a b i : Nat) : Prop where
  lower : a ≤ i
  upper : i < b
  least : ∀ k, a ≤ k → k < b → lt (d k) (d i) = false
  first : ∀ k, a ≤ k → k < i → lt (d i) (d k) = true

/-- The search over the indices `is`, from the best value and index `acc`. -/
def search (acc : α × Nat) (is : List Nat) : α × Nat :=
  is.foldl (fun acc i => if lt (d i) acc.1 then (d i, i) else acc) acc

end

section
variable {α : Type} {lt : α → α → Bool} {d : Nat → α}

/-! ## First minima -/

theorem IsFirstMin.unique {a b i j : Nat} (hi : IsFirstMin lt d a b i)
    (hj : IsFirstMin lt d a b j) : i = j := by
  rcases Nat.lt_trichotomy i j with h | h | h
  · have hlt := hj.first i hi.lower h
    rw [hi.least j hj.lower hj.upper] at hlt
    cases hlt
  · exact h
  · have hlt := hi.first j hj.lower h
    rw [hj.least i hi.lower hi.upper] at hlt
    cases hlt

/-- A first minimum is the first minimum of every tail that contains it. -/
theorem IsFirstMin.tail {a a' b i : Nat} (h : IsFirstMin lt d a b i) (ha : a ≤ a')
    (hi : a' ≤ i) : IsFirstMin lt d a' b i where
  lower := hi
  upper := h.upper
  least k hk := h.least k (ha.trans hk)
  first k hk := h.first k (ha.trans hk)

/-- The first minimum of a tail against the one of the whole range. -/
theorem IsFirstMin.tail_compare {a c b g i : Nat} (hg : IsFirstMin lt d a b g)
    (hi : IsFirstMin lt d c b i) (hac : a ≤ c) : g ≤ i ∧ (i = g ↔ c ≤ g) := by
  cases Nat.lt_or_ge g c with
  | inl hlt =>
      have hgi : g < i := lt_of_lt_of_le hlt hi.lower
      exact ⟨hgi.le, by omega⟩
  | inr hge =>
      have heq : i = g := hi.unique (hg.tail hac hge)
      exact ⟨heq.ge, by omega⟩

/-! ## The search -/

/-- The search ends where it started, or at an index it visited with its value. -/
theorem search_mem (lt : α → α → Bool) (d : Nat → α) (is : List Nat) (acc : α × Nat) :
    search lt d acc is = acc ∨ ∃ i ∈ is, search lt d acc is = (d i, i) := by
  induction is generalizing acc with
  | nil => exact Or.inl rfl
  | cons i is ih =>
      rw [search, List.foldl_cons]
      split
      · rcases ih (d i, i) with h | ⟨j, hj, h⟩
        · exact Or.inr ⟨i, List.mem_cons_self .., h⟩
        · exact Or.inr ⟨j, List.mem_cons_of_mem _ hj, h⟩
      · rcases ih acc with h | ⟨j, hj, h⟩
        · exact Or.inl h
        · exact Or.inr ⟨j, List.mem_cons_of_mem _ hj, h⟩

/-- No visited value is below the result, nor below what the search started
from. -/
theorem search_least {num : α → Prop} (W : StrictWeak lt num) (d : Nat → α) (is : List Nat)
    (acc : α × Nat) :
    (∀ a, lt a acc.1 = false → lt a (search lt d acc is).1 = false) ∧
      ∀ i ∈ is, lt (d i) (search lt d acc is).1 = false := by
  induction is generalizing acc with
  | nil => exact ⟨fun a ha => ha, by simp⟩
  | cons i is ih =>
      have hlower : ∀ a, lt a acc.1 = false →
          lt a (if lt (d i) acc.1 then (d i, i) else acc).1 = false := by
        intro a ha
        split
        next hlt =>
          by_contra hcon
          rw [W.trans (by simpa using hcon) hlt] at ha
          cases ha
        next => exact ha
      have hvisit : lt (d i) (if lt (d i) acc.1 then (d i, i) else acc).1 = false := by
        split
        next => exact W.irrefl _
        next hge => simpa using hge
      rw [search, List.foldl_cons]
      obtain ⟨hkeep, hleast⟩ := ih (if lt (d i) acc.1 then (d i, i) else acc)
      refine ⟨fun a ha => hkeep a (hlower a ha), fun j hj => ?_⟩
      cases List.mem_cons.mp hj with
      | inl heq => exact heq ▸ hkeep _ hvisit
      | inr hmem => exact hleast j hmem

/-- Nothing below the best value leaves the search where it started. -/
theorem search_eq_self {is : List Nat} {acc : α × Nat}
    (h : ∀ i ∈ is, lt (d i) acc.1 = false) : search lt d acc is = acc := by
  induction is with
  | nil => rfl
  | cons i is ih =>
      rw [search, List.foldl_cons, if_neg (by simp [h i (List.mem_cons_self ..)])]
      exact ih fun j hj => h j (List.mem_cons_of_mem _ hj)

/-- An index whose value is below the start and below every value before it, and
above none after it, is where the search ends. -/
theorem search_split {pre post : List Nat} {i : Nat} {acc : α × Nat}
    (hacc : lt (d i) acc.1 = true) (hpre : ∀ k ∈ pre, lt (d i) (d k) = true)
    (hpost : ∀ k ∈ post, lt (d k) (d i) = false) :
    search lt d acc (pre ++ i :: post) = (d i, i) := by
  have hbelow : lt (d i) (search lt d acc pre).1 = true := by
    rcases search_mem lt d pre acc with h | ⟨k, hk, h⟩
    · rw [h]
      exact hacc
    · rw [h]
      exact hpre k hk
  rw [search, List.foldl_append, List.foldl_cons, ← search, ← search, if_pos hbelow]
  exact search_eq_self hpost

/-- A search that starts from a value that is not above another start ends there, or
where the other search ends. -/
theorem search_restart {num : α → Prop} (W : StrictWeak lt num)
    (hnum : ∀ {x y}, lt x y = true → num x) (d : Nat → α) (is : List Nat) {acc : α × Nat} {top : α}
    (hle : ∀ x, lt x acc.1 = true → lt x top = true) (k : Nat) :
    search lt d acc is = acc ∨ search lt d acc is = search lt d (top, k) is := by
  induction is generalizing top k with
  | nil => exact Or.inl rfl
  | cons i is ih =>
      rw [search, search, List.foldl_cons, List.foldl_cons, ← search, ← search]
      by_cases hlt : lt (d i) acc.1 = true
      · rw [if_pos hlt, if_pos (hle _ hlt)]
        exact Or.inr rfl
      · rw [if_neg hlt]
        split
        next htop =>
          refine ih (fun x hx => ?_) i
          cases W.cotrans (d i) (hnum htop) hx with
          | inl hxi => exact hxi
          | inr hi => exact absurd hi hlt
        next _ => exact ih hle k

/-- One more index. -/
theorem search_concat (is : List Nat) (i : Nat) (acc : α × Nat) :
    search lt d acc (is ++ [i]) =
      if lt (d i) (search lt d acc is).1 then (d i, i) else search lt d acc is := by
  rw [search, List.foldl_concat, ← search]

/-- A search that ends beyond its start ends at a value that is not the one before, which
it has seen by then: the same value is not below the best one. -/
theorem search_range'_pred {num : α → Prop} (W : StrictWeak lt num) {top : α} {a n i : Nat}
    (hi : (search lt d (top, a) (List.range' a n)).2 = i) (hai : a < i) : d (i - 1) ≠ d i := by
  intro hsame
  have hin : i < a + n := by
    rcases search_mem lt d (List.range' a n) (top, a) with h | ⟨j, hj, h⟩
    · rw [h] at hi
      exact absurd hi hai.ne
    · rw [h] at hi
      exact hi ▸ (List.mem_range'_1.mp hj).2
  have hsplit : List.range' a n =
      List.range' a (i - a) ++ i :: List.range' (i + 1) (a + n - i - 1) := by
    have happ := List.range'_append_1 (s := a) (m := i - a) (n := a + n - i - 1 + 1)
    rw [Nat.add_sub_cancel' hai.le, List.range'_succ] at happ
    rw [happ]
    congr 1
    omega
  have hprev : i - 1 ∈ List.range' a (i - a) := List.mem_range'_1.mpr (by omega)
  have hleast := (search_least W d (List.range' a (i - a)) (top, a)).2 _ hprev
  have hbefore := search_mem lt d (List.range' a (i - a)) (top, a)
  rw [hsplit, search, List.foldl_append, List.foldl_cons, ← search, ← search] at hi
  generalize search lt d (top, a) (List.range' a (i - a)) = acc at hi hleast hbefore
  rw [hsame] at hleast
  rw [if_neg (by simp [hleast])] at hi
  rcases search_mem lt d (List.range' (i + 1) (a + n - i - 1)) acc with h | ⟨j, hj, h⟩
  · rw [h] at hi
    rcases hbefore with rfl | ⟨j, hj, rfl⟩
    · exact hai.ne hi
    · have hlt := (List.mem_range'_1.mp hj).2
      obtain rfl : j = i := hi
      omega
  · rw [h] at hi
    have hle := (List.mem_range'_1.mp hj).1
    obtain rfl : j = i := hi
    omega

/-- One more position keeps the first minimum, or is the new one. -/
theorem IsFirstMin.succ {num : α → Prop} (W : StrictWeak lt num) {a b i : Nat}
    (h : IsFirstMin lt d a b i) (hnum : ∀ k, a ≤ k → k < b → num (d k)) :
    IsFirstMin lt d a (b + 1) (if lt (d b) (d i) then b else i) := by
  split
  next hlt =>
    have habove : ∀ k, a ≤ k → k < b → lt (d b) (d k) = true := by
      intro k hk hkb
      cases W.cotrans (d k) (hnum k hk hkb) hlt with
      | inl hbk => exact hbk
      | inr hki =>
          rw [h.least k hk hkb] at hki
          cases hki
    refine ⟨h.lower.trans h.upper.le, Nat.lt_succ_self b, ?_, habove⟩
    intro k hk hkb
    rcases Nat.lt_succ_iff_lt_or_eq.mp hkb with hkb | rfl
    · by_contra hcon
      have hself := W.trans (habove k hk hkb) (by simpa using hcon)
      rw [W.irrefl] at hself
      cases hself
    · exact W.irrefl _
  next hge =>
    refine ⟨h.lower, h.upper.trans (Nat.lt_succ_self b), ?_, h.first⟩
    intro k hk hkb
    rcases Nat.lt_succ_iff_lt_or_eq.mp hkb with hkb | rfl
    · exact h.least k hk hkb
    · simpa using hge

/-- The search from the remembered index `a`, with a bound above every value,
finds the first minimum of `[a, b)` together with its value. -/
theorem search_range' {num : α → Prop} (W : StrictWeak lt num) {top : α} {a : Nat} :
    ∀ (n : Nat), (∀ k, a ≤ k → k < a + n + 1 → num (d k) ∧ lt (d k) top = true) →
      ∃ i, search lt d (top, a) (List.range' a (n + 1)) = (d i, i) ∧
        IsFirstMin lt d a (a + n + 1) i
  | 0, h => by
      refine ⟨a, ?_, le_rfl, Nat.lt_succ_self a, ?_, ?_⟩
      · have htop := (h a le_rfl (Nat.lt_succ_self a)).2
        simp [search, htop]
      · intro k hk hka
        rw [show k = a by omega]
        exact W.irrefl _
      · intro k hk hka
        omega
  | n + 1, h => by
      obtain ⟨i, hi, hmin⟩ := search_range' W n fun k hk hkb => h k hk (by omega)
      rw [List.range'_concat, search_concat, hi, Nat.one_mul]
      refine ⟨if lt (d (a + n + 1)) (d i) then a + n + 1 else i, ?_, ?_⟩
      · rw [show a + (n + 1) = a + n + 1 from rfl]
        split <;> rfl
      · exact hmin.succ W fun k hk hkb => (h k hk (by omega)).1

end

end ArgMin
