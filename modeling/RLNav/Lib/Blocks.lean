import Mathlib.Data.List.FinRange
import Mathlib.Data.Nat.Init
import Mathlib.Order.Basic
import Mathlib.Tactic.Ring

/-!
# Balanced blocks

`n` positions cut into `m` contiguous blocks in order, as evenly as possible:
every block has `n / m` positions and the first `n % m` blocks have one more.
A loop that keeps a running offset visits exactly these blocks (`start_succ`),
and they partition the positions (`existsUnique_block`, `flatten_block`).
-/

namespace Blocks

variable (n m : Nat)

/-- The number of positions in block `s`. -/
def len (s : Nat) : Nat := n / m + (if s < n % m then 1 else 0)

/-- The first position of block `s`. -/
def start (s : Nat) : Nat := s * (n / m) + min s (n % m)

@[simp] theorem start_zero : start n m 0 = 0 := by simp [start]

theorem start_succ (s : Nat) : start n m (s + 1) = start n m s + len n m s := by
  unfold start len
  rw [Nat.succ_mul]
  split
  · omega
  · omega

theorem start_mono {s t : Nat} (h : s ≤ t) : start n m s ≤ start n m t := by
  induction h with
  | refl => exact le_rfl
  | step _ ih => exact ih.trans (by rw [Nat.succ_eq_add_one, start_succ]; omega)

theorem start_last (hm : 0 < m) : start n m m = n := by
  have hmod : n % m ≤ m := (Nat.mod_lt n hm).le
  rw [start, Nat.min_eq_right hmod]
  exact Nat.div_add_mod n m

theorem start_add_len_le {s : Nat} (hs : s < m) : start n m s + len n m s ≤ n := by
  rw [← start_succ]
  calc start n m (s + 1) ≤ start n m m := start_mono n m hs
    _ = n := start_last n m (by omega)

theorem len_pos {s : Nat} (hm : 0 < m) (hmn : m ≤ n) : 0 < len n m s := by
  have : 0 < n / m := Nat.div_pos hmn hm
  unfold len
  omega

/-- Every position lies in exactly one block. -/
theorem existsUnique_block {k : Nat} (hk : k < n) (hm : 0 < m) :
    ∃! s, s < m ∧ start n m s ≤ k ∧ k < start n m s + len n m s := by
  have hfind : ∃ s, s < m ∧ start n m s ≤ k ∧ k < start n m s + len n m s := by
    have hex : ∃ s, k < start n m (s + 1) := ⟨m - 1, by
      rw [Nat.sub_add_cancel hm, start_last n m hm]; exact hk⟩
    refine ⟨Nat.find hex, ?_, ?_, ?_⟩
    · have hle : Nat.find hex ≤ m - 1 := Nat.find_min' hex (by
        rw [Nat.sub_add_cancel hm, start_last n m hm]; exact hk)
      omega
    · cases hf : Nat.find hex with
      | zero => simp
      | succ s =>
          have := Nat.find_min hex (m := s) (by omega)
          omega
    · rw [← start_succ]
      exact Nat.find_spec hex
  obtain ⟨s, hs, hlo, hhi⟩ := hfind
  refine ⟨s, ⟨hs, hlo, hhi⟩, ?_⟩
  rintro t ⟨-, htlo, hthi⟩
  rw [← start_succ] at hhi hthi
  rcases lt_trichotomy t s with hts | rfl | hst
  · have := start_mono n m (show t + 1 ≤ s from hts)
    omega
  · rfl
  · have := start_mono n m (show s + 1 ≤ t from hst)
    omega

/-! ## The positions of a block -/

/-- The positions of block `s`, in order. -/
def block (s : Fin m) : List (Fin n) :=
  List.ofFn fun j : Fin (len n m s) =>
    ⟨start n m s + j, lt_of_lt_of_le (Nat.add_lt_add_left j.isLt _) (start_add_len_le n m s.isLt)⟩

theorem mem_block {s : Fin m} {k : Fin n} :
    k ∈ block n m s ↔ start n m s ≤ k ∧ k.val < start n m s + len n m s := by
  rw [block, List.mem_ofFn]
  constructor
  · rintro ⟨j, rfl⟩
    exact ⟨Nat.le_add_right .., Nat.add_lt_add_left j.isLt _⟩
  · rintro ⟨hlo, hhi⟩
    exact ⟨⟨k - start n m s, by omega⟩, Fin.ext (by simp; omega)⟩

theorem block_ne_nil {s : Fin m} (hmn : m ≤ n) : block n m s ≠ [] := by
  have := len_pos n m (s := s) (by have := s.isLt; omega) hmn
  rw [block, Ne, List.ofFn_eq_nil_iff]
  omega

/-- The indices a loop visits from the running offset. -/
theorem block_val (s : Fin m) :
    (block n m s).map Fin.val = List.range' (start n m s) (len n m s) := by
  refine List.ext_getElem (by simp [block]) fun i h₁ h₂ => ?_
  simp [block]

/-- The blocks in order are all positions in order. -/
theorem flatten_block (hm : 0 < m) : (List.ofFn (block n m)).flatten = List.finRange n := by
  have hprefix : ∀ t, ((List.range t).map fun s => List.range' (start n m s) (len n m s)).flatten
      = List.range' 0 (start n m t) := by
    intro t
    induction t with
    | zero => simp
    | succ t ih =>
        rw [List.range_succ, List.map_append, List.flatten_append, ih, start_succ,
          ← List.range'_append_1]
        simp
  have hall := hprefix m
  rw [start_last n m hm, ← List.range_eq_range'] at hall
  have hval : ((List.ofFn (block n m)).flatten).map Fin.val = (List.finRange n).map Fin.val := by
    rw [List.map_coe_finRange_eq_range, ← hall, List.map_flatten, List.map_ofFn,
      ← List.map_coe_finRange_eq_range, List.ofFn_eq_map, List.map_map]
    refine congrArg _ (List.map_congr_left fun s _ => ?_)
    exact block_val n m s
  exact List.map_injective_iff.mpr Fin.val_injective hval

/-- Entry `j` of row `i` in a matrix written out row by row. -/
theorem getElem?_flatten_ofFn {α : Type} {a b : Nat} (g : Fin a → Fin b → α) (i : Fin a)
    (j : Fin b) : (List.ofFn fun i => List.ofFn (g i)).flatten[b * i.val + j.val]? =
      some (g i j) := by
  have hflat := List.ofFn_mul fun p : Fin (a * b) => g p.divNat p.modNat
  have hrow : ∀ (i : Fin a) (j : Fin b) (h : i.val * b + j.val < a * b),
      g (Fin.divNat ⟨i.val * b + j.val, h⟩) (Fin.modNat ⟨i.val * b + j.val, h⟩) = g i j := by
    intro i j h
    have hb : 0 < b := by have := j.isLt; omega
    congr 1
    · apply Fin.ext
      show (i.val * b + j.val) / b = i.val
      rw [Nat.mul_comm, Nat.mul_add_div hb, Nat.div_eq_of_lt j.isLt, Nat.add_zero]
    · apply Fin.ext
      show (i.val * b + j.val) % b = j.val
      rw [Nat.mul_comm, Nat.mul_add_mod, Nat.mod_eq_of_lt j.isLt]
  simp only [hrow] at hflat
  have hlt : b * i.val + j.val < a * b := by
    calc b * i.val + j.val < b * i.val + b := Nat.add_lt_add_left j.isLt _
      _ = b * (i.val + 1) := by ring
      _ ≤ b * a := Nat.mul_le_mul_left b i.isLt
      _ = a * b := Nat.mul_comm ..
  rw [← hflat, List.getElem?_ofFn, dif_pos hlt]
  have := hrow i j (by rw [Nat.mul_comm]; exact hlt)
  simpa [Nat.mul_comm] using this

end Blocks
