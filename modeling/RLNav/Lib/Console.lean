import Mathlib.Data.List.Basic

/-!
# Programs at a console

A program reads lines from its input, asks a service whether its task is complete, and
does things, which it leaves in a list.  It may stop without a result: at the end of
the input, at a line that does not convert, or while the service answers that the task
is not complete.

The part of such a program that only talks is a parser of its input.  `Reads p s` says
that `s` returns what the parser `p` returns, and `s` stops where `p` has no result;
on the way it does only what `P` allows.  It holds of a program by the rules
`Reads.pure`, `Reads.bind` and so on, one for each construct.  `whileIncomplete_run`
is the rule of the loop that waits.
-/

namespace Console

/-- Why a program stopped. -/
inductive Stop where
  | eof
  | invalid
  | waiting
deriving DecidableEq, Repr

/-- The lines that are not read yet, the answers of the service that are still to
come, and what was done so far. -/
structure World (A : Type) where
  lines : List String
  completes : List Bool
  acts : List A
deriving DecidableEq, Repr

def Script (A α : Type) : Type := World A → Except Stop α × World A

section
variable {A α β : Type}

instance : Monad (Script A) where
  pure a := fun w => (.ok a, w)
  bind s f := fun w =>
    match s w with
    | (.ok a, w') => f a w'
    | (.error e, w') => (.error e, w')

def act (a : A) : Script A Unit := fun w => (.ok (), { w with acts := w.acts ++ [a] })

/-- Read a line. -/
def line : Script A String := fun w =>
  match w.lines with
  | [] => (.error .eof, w)
  | l :: ls => (.ok l, { w with lines := ls })

/-- Go on with the result of a conversion, or of another function that may raise. -/
def convert (o : Option α) : Script A α := fun w =>
  match o with
  | none => (.error .invalid, w)
  | some a => (.ok a, w)

/-- The results of `f i`, `f (i + 1)`, and so on, `n` of them. -/
def collect (f : Nat → Script A α) : Nat → Nat → Script A (List α)
  | _, 0 => pure []
  | i, n + 1 => do
      let a ← f i
      let as ← collect f (i + 1) n
      return a :: as

/-- Do `body` for every answer of the service until it says that the task is
complete. -/
def poll (body : List A) : List Bool → World A → Except Stop Unit × World A
  | [], w => (.error .waiting, { w with completes := [] })
  | true :: bs, w => (.ok (), { w with completes := bs })
  | false :: bs, w => poll body bs { w with acts := w.acts ++ body }

def whileIncomplete (body : List A) : Script A Unit := fun w => poll body w.completes w

/-! ## Running -/

theorem bind_of_ok {s : Script A α} {f : α → Script A β} {w w' : World A} {a : α}
    (h : s w = (.ok a, w')) : (s >>= f) w = f a w' := by
  show (match s w with | (.ok a, w') => f a w' | (.error e, w') => (.error e, w')) = _
  rw [h]

theorem bind_of_error {s : Script A α} {f : α → Script A β} {w w' : World A} {e : Stop}
    (h : s w = (.error e, w')) : (s >>= f) w = (.error e, w') := by
  show (match s w with | (.ok a, w') => f a w' | (.error e, w') => (.error e, w')) = _
  rw [h]

theorem act_bind (a : A) (f : Unit → Script A β) (w : World A) :
    (act a >>= f) w = f () { w with acts := w.acts ++ [a] } := rfl

/-- How often the body of the loop runs. -/
def pauses (bs : List Bool) : Nat := (bs.takeWhile not).length

/-- The loop ends when the service says so, and runs its body once for each answer
before. -/
theorem poll_run (body : List A) (bs : List Bool) (w : World A) :
    ∃ rest, poll body bs w = (if true ∈ bs then .ok () else .error .waiting,
      { w with completes := rest
               acts := w.acts ++ (List.replicate (pauses bs) body).flatten }) := by
  induction bs generalizing w with
  | nil => exact ⟨[], by simp [poll, pauses]⟩
  | cons b bs ih =>
      cases b with
      | true => exact ⟨bs, by simp [poll, pauses]⟩
      | false =>
          obtain ⟨rest, h⟩ := ih { w with acts := w.acts ++ body }
          refine ⟨rest, ?_⟩
          rw [poll, h]
          simp [pauses, List.replicate_succ]

theorem whileIncomplete_run (body : List A) (w : World A) :
    ∃ rest, whileIncomplete body w =
      (if true ∈ w.completes then .ok () else .error .waiting,
        { w with completes := rest
                 acts := w.acts ++ (List.replicate (pauses w.completes) body).flatten }) :=
  poll_run body w.completes w

/-! ## The part that talks -/

/-- A parser of lines. -/
abbrev Parser (α : Type) : Type := StateT (List String) Option α

def Parser.line : Parser String := fun ls =>
  match ls with
  | [] => none
  | l :: ls => some (l, ls)

def Parser.convert (o : Option α) : Parser α := fun ls => o.map (·, ls)

def Parser.collect (f : Nat → Parser α) : Nat → Nat → Parser (List α)
  | _, 0 => pure []
  | i, n + 1 => do
      let a ← f i
      let as ← Parser.collect f (i + 1) n
      return a :: as

/-- A line that converts. -/
def Parser.item (f : String → Option α) : Parser α := do
  let l ← Parser.line
  Parser.convert (f l)

theorem Parser.bind_eq_some {p : Parser α} {q : α → Parser β} {ls rest : List String} {b : β} :
    (p >>= q) ls = some (b, rest) ↔ ∃ a mid, p ls = some (a, mid) ∧ q a mid = some (b, rest) := by
  show (p ls >>= fun r => q r.1 r.2) = _ ↔ _
  cases p ls with
  | none => exact iff_of_false (fun h => by cases h) fun ⟨_, _, h, _⟩ => by cases h
  | some r =>
      constructor
      · intro h
        exact ⟨r.1, r.2, rfl, h⟩
      · rintro ⟨a, mid, h, hq⟩
        cases h
        exact hq

theorem Parser.pure_eq_some {a b : α} {ls rest : List String} :
    (Pure.pure a : Parser α) ls = some (b, rest) ↔ a = b ∧ ls = rest := by
  show some (a, ls) = some (b, rest) ↔ _
  rw [Option.some_inj, Prod.mk.injEq]

theorem Parser.convert_eq_some {o : Option α} {ls rest : List String} {a : α} :
    Parser.convert o ls = some (a, rest) ↔ o = some a ∧ ls = rest := by
  rw [Parser.convert, Option.map_eq_some_iff]
  constructor
  · rintro ⟨a', ho, h⟩
    cases h
    exact ⟨ho, rfl⟩
  · rintro ⟨ho, rfl⟩
    exact ⟨a, ho, rfl⟩

theorem Parser.item_eq_some {f : String → Option α} {ls rest : List String} {a : α} :
    Parser.item f ls = some (a, rest) ↔ ∃ l, ls = l :: rest ∧ f l = some a := by
  cases ls with
  | nil => exact iff_of_false (fun h => by cases h) fun ⟨_, h, _⟩ => by cases h
  | cons l ls =>
      have heq : Parser.item f (l :: ls) = (f l).map (·, ls) := rfl
      rw [heq, Option.map_eq_some_iff]
      constructor
      · rintro ⟨a', hf, h⟩
        cases h
        exact ⟨l, rfl, hf⟩
      · rintro ⟨l', h, hf⟩
        cases h
        exact ⟨a, hf, rfl⟩

/-- `s` returns what `p` parses, and stops where `p` has no result.  It does nothing
else than what `P` allows, and asks the service nothing. -/
def Reads (P : A → Prop) (p : Parser α) (s : Script A α) : Prop :=
  ∀ w : World A, ∃ said, (∀ a ∈ said, P a) ∧
    match p w.lines with
    | some (a, rest) => s w = (.ok a, { w with lines := rest, acts := w.acts ++ said })
    | none => ∃ e rest, e ≠ .waiting ∧
        s w = (.error e, { w with lines := rest, acts := w.acts ++ said })

variable {P : A → Prop}

theorem Reads.pure (a : α) : Reads P (Pure.pure a) (Pure.pure a) := fun w =>
  ⟨[], by simp, by rw [List.append_nil]; rfl⟩

/-- Doing something is not seen by the parser. -/
theorem Reads.act {a : A} {p : Parser α} {s : Script A α} (ha : P a) (hs : Reads P p s) :
    Reads P p (act a >>= fun _ => s) := by
  intro w
  obtain ⟨said, hsaid, hw⟩ := hs { w with acts := w.acts ++ [a] }
  refine ⟨a :: said, ?_, ?_⟩
  · intro x hx
    cases List.mem_cons.mp hx with
    | inl h => exact h ▸ ha
    | inr h => exact hsaid x h
  · rw [act_bind, List.append_cons w.acts a said]
    exact hw

theorem Reads.line : Reads P Parser.line (line : Script A String) := by
  intro w
  refine ⟨[], by simp, ?_⟩
  rw [List.append_nil]
  cases hlines : w.lines with
  | nil =>
      refine ⟨.eof, w.lines, by decide, ?_⟩
      show Console.line w = (.error .eof, w)
      rw [Console.line, hlines]
  | cons l ls =>
      show Console.line w = _
      rw [Console.line, hlines]

theorem Reads.convert (o : Option α) : Reads P (Parser.convert o) (convert o : Script A α) := by
  intro w
  refine ⟨[], by simp, ?_⟩
  rw [List.append_nil]
  cases o with
  | none => exact ⟨.invalid, w.lines, by decide, rfl⟩
  | some a => rfl

theorem Reads.bind {p : Parser α} {s : Script A α} {q : α → Parser β} {f : α → Script A β}
    (hs : Reads P p s) (hf : ∀ a, Reads P (q a) (f a)) : Reads P (p >>= q) (s >>= f) := by
  intro w
  obtain ⟨said, hsaid, hw⟩ := hs w
  cases hp : p w.lines with
  | none =>
      rw [hp] at hw
      obtain ⟨e, rest, he, hw⟩ := hw
      refine ⟨said, hsaid, ?_⟩
      have hnone : (p >>= q) w.lines = none := by
        show (p w.lines >>= fun r => q r.1 r.2) = none
        rw [hp]
        rfl
      rw [hnone]
      exact ⟨e, rest, he, bind_of_error hw⟩
  | some r =>
      obtain ⟨a, rest⟩ := r
      rw [hp] at hw
      obtain ⟨said', hsaid', hw'⟩ := hf a { w with lines := rest, acts := w.acts ++ said }
      refine ⟨said ++ said', ?_, ?_⟩
      · intro x hx
        cases List.mem_append.mp hx with
        | inl h => exact hsaid x h
        | inr h => exact hsaid' x h
      · have hsome : (p >>= q) w.lines = q a rest := by
          show (p w.lines >>= fun r => q r.1 r.2) = _
          rw [hp]
          rfl
        rw [hsome, bind_of_ok hw, ← List.append_assoc]
        exact hw'

theorem Reads.collect {p : Nat → Parser α} {f : Nat → Script A α} (h : ∀ i, Reads P (p i) (f i))
    (i n : Nat) : Reads P (Parser.collect p i n) (collect f i n) := by
  induction n generalizing i with
  | zero => exact .pure []
  | succ n ih => exact .bind (h i) fun a => .bind (ih (i + 1)) fun as => .pure (a :: as)

/-! ## Errands -/

def actAll : List A → Script A Unit
  | [] => Pure.pure ()
  | a :: as => do
      act a
      actAll as

theorem actAll_run (as : List A) (w : World A) :
    actAll as w = (.ok (), { w with acts := w.acts ++ as }) := by
  induction as generalizing w with
  | nil => rw [List.append_nil]; rfl
  | cons a as ih =>
      rw [actAll, act_bind, ih, List.append_assoc]
      rfl

/-- A program that talks, hands in a task, waits for it and takes its leave. -/
def errand (s : Script A α) (before : α → List A) (body after : List A) : Script A Unit := do
  let a ← s
  actAll (before a)
  whileIncomplete body
  actAll after

/-- What an errand does after it has read `a`. -/
def errandActs (before : α → List A) (body after : List A) (completes : List Bool) (a : α) :
    List A :=
  before a ++ (List.replicate (pauses completes) body).flatten ++
    if true ∈ completes then after else []

/-- An errand hands in exactly what was read, and nothing if the input does not parse. -/
theorem errand_run {p : Parser α} {s : Script A α} (hs : Reads P p s) (before : α → List A)
    (body after : List A) (w : World A) :
    ∃ said, (∀ a ∈ said, P a) ∧
      (∀ a rest, p w.lines = some (a, rest) →
        (errand s before body after w).1 =
            (if true ∈ w.completes then .ok () else .error .waiting) ∧
          (errand s before body after w).2.acts =
            w.acts ++ said ++ errandActs before body after w.completes a) ∧
      (p w.lines = none → (∃ e, e ≠ .waiting ∧ (errand s before body after w).1 = .error e) ∧
        (errand s before body after w).2.acts = w.acts ++ said) := by
  obtain ⟨said, hsaid, hw⟩ := hs w
  refine ⟨said, hsaid, ?_, ?_⟩
  · intro a rest hp
    rw [hp] at hw
    obtain ⟨left, hloop⟩ := whileIncomplete_run body
      { w with lines := rest, acts := w.acts ++ said ++ before a }
    rw [errand, bind_of_ok hw, bind_of_ok (actAll_run ..), errandActs]
    split at hloop
    next hdone =>
      rw [bind_of_ok hloop, actAll_run, if_pos hdone, if_pos hdone]
      simp only [List.append_assoc, true_and]
    next hwait =>
      rw [bind_of_error hloop, if_neg hwait, if_neg hwait]
      simp only [List.append_assoc, List.append_nil, true_and]
  · intro hp
    rw [hp] at hw
    obtain ⟨e, rest, he, hw⟩ := hw
    rw [errand, bind_of_error hw]
    exact ⟨⟨e, he, rfl⟩, rfl⟩

end

end Console
