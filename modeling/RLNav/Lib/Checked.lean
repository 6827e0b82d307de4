import Mathlib.Algebra.Ring.Int.Defs
import Mathlib.Data.List.FinRange
import Mathlib.Data.List.Forall2

/-!
# Checked memory access and machine integers

A program that indexes vectors and computes with 32-bit integers is modelled in
`Except Fault`.  An index outside its container, a signed overflow and a
remainder by zero are *faults*, and a run is free of undefined behaviour exactly
when its model returns `.ok`.

Reads and writes are `read`, `readInt` and `Cursor.put`.  A loop is a monadic
fold or map over the list of its indices, and the rules of this file turn it
into the fold or map of the values when every access in it is in bounds
(`foldlM_eq_foldl`, `mapM_eq_ok_iff`, `rangeFold_ofFn`, `Cursor.fill_eq_ok`).
-/

namespace Checked

/-- What can go wrong. -/
inductive Fault where
  /-- An access outside the container. -/
  | outOfBounds
  /-- A signed 32-bit result that does not fit. -/
  | overflow
  /-- A remainder by zero. -/
  | divByZero
deriving DecidableEq, Repr

/-! ## The monad -/

theorem bind_eq_ok {α β : Type} {x : Except Fault α} {f : α → Except Fault β} {b : β} :
    (x >>= f) = .ok b ↔ ∃ a, x = .ok a ∧ f a = .ok b := by
  cases x <;> simp [bind, Except.bind]

theorem pure_eq_ok {α : Type} {a b : α} : (pure a : Except Fault α) = .ok b ↔ a = b := by
  simp [pure, Except.pure]

theorem ok_bind {α β : Type} (a : α) (f : α → Except Fault β) : (.ok a >>= f) = f a := rfl

/-- A loop whose body never faults is the fold of the values. -/
theorem foldlM_eq_foldl {α β : Type} {f : β → α → Except Fault β} {g : β → α → β} :
    ∀ {l : List α} (s : β), (∀ a ∈ l, ∀ s, f s a = .ok (g s a)) →
      l.foldlM f s = .ok (l.foldl g s)
  | [], s, _ => rfl
  | a :: l, s, h => by
      rw [List.foldlM_cons, h a (List.mem_cons_self ..) s, ok_bind, List.foldl_cons]
      exact foldlM_eq_foldl (g s a) fun b hb => h b (List.mem_cons_of_mem _ hb)

/-- A loop that fills a vector succeeds exactly when each of its iterations
does, and then it holds their results in order. -/
theorem mapM_eq_ok_iff {α β : Type} {f : α → Except Fault β} :
    ∀ {l : List α} {ys : List β}, l.mapM f = .ok ys ↔ List.Forall₂ (fun a y => f a = .ok y) l ys
  | [], ys => by
      rw [List.mapM_nil, pure_eq_ok, List.forall₂_nil_left_iff]
      exact eq_comm
  | a :: l, ys => by
      rw [List.mapM_cons, bind_eq_ok, List.forall₂_cons_left_iff]
      constructor
      · rintro ⟨y, hy, h⟩
        obtain ⟨ys', hys, h⟩ := bind_eq_ok.mp h
        exact ⟨y, ys', hy, mapM_eq_ok_iff.mp hys, (pure_eq_ok.mp h).symm⟩
      · rintro ⟨y, ys', hy, hys, rfl⟩
        exact ⟨y, hy, bind_eq_ok.mpr ⟨ys', mapM_eq_ok_iff.mpr hys, rfl⟩⟩

/-- The indices `0, …, n-1` mapped by a loop that succeeds. -/
theorem mapM_range_eq_ok_iff {β : Type} {n : Nat} {f : Nat → Except Fault β} {ys : List β} :
    (List.range n).mapM f = .ok ys ↔
      ∃ y : Fin n → β, ys = List.ofFn y ∧ ∀ i : Fin n, f i = .ok (y i) := by
  rw [mapM_eq_ok_iff, List.forall₂_iff_get]
  constructor
  · rintro ⟨hlen, h⟩
    rw [List.length_range] at hlen
    subst hlen
    exact ⟨ys.get, (List.ofFn_get ys).symm, fun i => by simpa using h i (by simp) i.isLt⟩
  · rintro ⟨y, rfl, h⟩
    exact ⟨by simp, fun i hi _ => by simpa using h ⟨i, by simpa using hi⟩⟩

/-! ## Reads and writes -/

/-- `xs[i]` at an unsigned index. -/
def read {α : Type} (xs : List α) (i : Nat) : Except Fault α :=
  match xs[i]? with
  | some a => .ok a
  | none => .error .outOfBounds

/-- `xs[i]` at a signed index.  A negative index converts to a huge unsigned
one. -/
def readInt {α : Type} (xs : List α) (i : Int) : Except Fault α :=
  if i < 0 then .error .outOfBounds else read xs i.toNat

/-- `xs[i] = a`. -/
def write {α : Type} (xs : List α) (i : Nat) (a : α) : Except Fault (List α) :=
  if i < xs.length then .ok (xs.set i a) else .error .outOfBounds

theorem read_eq_ok_iff {α : Type} {xs : List α} {i : Nat} {a : α} :
    read xs i = .ok a ↔ xs[i]? = some a := by
  unfold read
  cases xs[i]? <;> simp

theorem read_of_lt {α : Type} {xs : List α} {i : Nat} (h : i < xs.length) :
    read xs i = .ok xs[i] :=
  read_eq_ok_iff.mpr (List.getElem?_eq_getElem h)

theorem read_ofFn {α : Type} {n : Nat} (x : Fin n → α) (i : Fin n) :
    read (List.ofFn x) i = .ok (x i) := by
  rw [read_of_lt (by simp)]
  simp

theorem write_of_lt {α : Type} {xs : List α} {i : Nat} (h : i < xs.length) (a : α) :
    write xs i a = .ok (xs.set i a) :=
  if_pos h

theorem readInt_natCast {α : Type} (xs : List α) (i : Nat) :
    readInt xs (i : Int) = read xs i := by
  simp [readInt]

/-- A loop over `0, …, n-1` whose iterations feed one value each to `g` is the
loop of `g` over the values. -/
theorem rangeFold_ofFn {β γ : Type} {n : Nat} {h : γ → Nat → Except Fault γ} {v : Fin n → β}
    {g : γ → β → Except Fault γ} (s : γ) (hv : ∀ (i : Fin n) s, h s i = g s (v i)) :
    (List.range n).foldlM h s = (List.ofFn v).foldlM g s := by
  have hfun : (fun s (i : Fin n) => h s i) = fun s i => g s (v i) :=
    funext fun s => funext fun i => hv i s
  rw [← List.map_coe_finRange_eq_range, List.foldlM_map, List.ofFn_eq_map, List.foldlM_map, hfun]

/-- The same for iterations that feed a list of values each. -/
theorem rangeFold_flatten {β γ : Type} {n : Nat} {h : γ → Nat → Except Fault γ}
    {vs : Fin n → List β} {g : γ → β → Except Fault γ} (s : γ)
    (hv : ∀ (i : Fin n) s, h s i = (vs i).foldlM g s) :
    (List.range n).foldlM h s = (List.ofFn vs).flatten.foldlM g s := by
  have hflat : ∀ (l : List (List β)) s,
      l.flatten.foldlM g s = l.foldlM (fun s v => v.foldlM g s) s := by
    intro l
    induction l with
    | nil => intro s; rfl
    | cons v l ih =>
        intro s
        rw [List.flatten_cons, List.foldlM_append, List.foldlM_cons]
        exact congrArg _ (funext ih)
  rw [hflat]
  exact rangeFold_ofFn s hv

/-! ## Writes behind a cursor -/

/-- A fixed-size array filled front to back through a running index. -/
structure Cursor (α : Type) where
  /-- The array. -/
  cells : List α
  /-- The next index to write. -/
  pos : Nat
deriving DecidableEq, Repr

/-- `cells[pos++] = a`. -/
def Cursor.put {α : Type} (c : Cursor α) (a : α) : Except Fault (Cursor α) :=
  if c.pos < c.cells.length then .ok ⟨c.cells.set c.pos a, c.pos + 1⟩ else .error .outOfBounds

/-- The cursor after the values `done`, with `rest` not yet overwritten. -/
def Cursor.after {α : Type} (done rest : List α) : Cursor α := ⟨done ++ rest, done.length⟩

theorem Cursor.put_after {α : Type} (done rest : List α) (b a : α) :
    (Cursor.after done (b :: rest)).put a = .ok (Cursor.after (done ++ [a]) rest) := by
  simp [Cursor.put, Cursor.after, List.set_append_right]

/-- Writing as many values as there are cells left never faults. -/
theorem Cursor.putAll_eq_ok {α : Type} :
    ∀ (vs done old rest : List α), old.length = vs.length →
      vs.foldlM Cursor.put (Cursor.after done (old ++ rest))
        = .ok (Cursor.after (done ++ vs) rest)
  | [], done, [], rest, _ => by simp [pure, Except.pure]
  | v :: vs, done, b :: old, rest, h => by
      rw [List.foldlM_cons, List.cons_append, Cursor.put_after, ok_bind,
        Cursor.putAll_eq_ok vs _ old rest (by simpa using h), List.append_assoc,
        List.singleton_append]

/-- Filling an array of the right size from the front. -/
theorem Cursor.fill_eq_ok {α : Type} {vs old : List α} (h : old.length = vs.length) :
    vs.foldlM Cursor.put ⟨old, 0⟩ = .ok ⟨vs, vs.length⟩ := by
  have hput := Cursor.putAll_eq_ok vs [] old [] h
  rw [Cursor.after, Cursor.after, List.append_nil, List.append_nil, List.nil_append] at hput
  exact hput

/-! ## Signed 32-bit integers -/

/-- The range of a signed 32-bit integer. -/
def InInt32 (z : Int) : Prop := -2 ^ 31 ≤ z ∧ z < 2 ^ 31

instance (z : Int) : Decidable (InInt32 z) := inferInstanceAs (Decidable (_ ∧ _))

/-- `a + b`. -/
def addInt (a b : Int) : Except Fault Int :=
  if InInt32 (a + b) then .ok (a + b) else .error .overflow

/-- `a % b`: the remainder takes the sign of the dividend, and it is undefined
for a zero divisor and when the quotient does not fit. -/
def remInt (a b : Int) : Except Fault Int :=
  if b = 0 then .error .divByZero
  else if InInt32 (a.tdiv b) then .ok (a.tmod b) else .error .overflow

theorem remInt_of_pos {a b : Int} (ha : InInt32 a) (hb : 0 < b) :
    remInt a b = .ok (a.tmod b) := by
  have hq : InInt32 (a.tdiv b) := by
    have habs := Int.natAbs_tdiv_le_natAbs a b
    unfold InInt32 at *
    by_cases hneg : a < 0
    · have hnonneg : 0 ≤ (-a).tdiv b := Int.tdiv_nonneg (by omega) hb.le
      rw [Int.neg_tdiv] at hnonneg
      omega
    · omega
  rw [remInt, if_neg (by omega), if_pos hq]

/-- A truncated remainder is less than the divisor in size. -/
theorem neg_lt_tmod (a : Int) {n : Int} (hn : 0 < n) : -n < a.tmod n := by
  have := Int.tmod_lt_of_pos (-a) hn
  rw [Int.neg_tmod] at this
  omega

/-- Wrapping a signed index into `[0, n)` by two truncated remainders, if the sum
in between fits. -/
theorem wrap_eq_ok_of_fits {a n : Int} (ha : InInt32 a) (hn : 0 < n)
    (hsum : InInt32 (a.tmod n + n)) :
    (remInt a n >>= fun r => addInt r n >>= fun t => remInt t n) = .ok (a % n) := by
  have hlo := neg_lt_tmod a hn
  rw [remInt_of_pos ha hn, ok_bind, addInt, if_pos hsum, ok_bind, remInt_of_pos hsum hn,
    Int.tmod_eq_emod_of_nonneg (by omega), Int.add_emod_right]
  rw [Int.tmod_def, Int.sub_mul_emod_self_left]

/-- The sum fits while `n ≤ 2^30`. -/
theorem tmod_add_fits (a : Int) {n : Int} (hn : 0 < n) (hn' : n ≤ 2 ^ 30) :
    InInt32 (a.tmod n + n) := by
  have hlo := neg_lt_tmod a hn
  have hhi : a.tmod n < n := Int.tmod_lt_of_pos a hn
  unfold InInt32
  omega

theorem wrap_eq_ok {a n : Int} (ha : InInt32 a) (hn : 0 < n) (hn' : n ≤ 2 ^ 30) :
    (remInt a n >>= fun r => addInt r n >>= fun t => remInt t n) = .ok (a % n) :=
  wrap_eq_ok_of_fits ha hn (tmod_add_fits a hn hn')

end Checked
