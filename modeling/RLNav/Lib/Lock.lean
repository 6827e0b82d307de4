import Mathlib.Logic.Relation
import Mathlib.Logic.Function.Basic

/-!
# Threads around a lock

Threads share a variable `V` that a lock guards, and a variable `A` whose
accesses are single steps.  A program gives the next instruction of a thread from
its local state, and a scheduler picks any thread that can go on.

A program is *disciplined* if it accesses `V` only in critical sections, between
taking the lock and giving it back, and reaches the end of every section.  Then at
most one thread is in a section and some thread can always go on
(`reach_guarded`, `exists_step`).  The sections are atomic: a state in which
nobody holds the lock is also reached by `Coarse` steps, each of which runs a
whole section at once (`coarse_of_reach`).
-/

namespace Lock

/-- The next instruction of a thread, with the local state that it leaves. -/
inductive Instr (V A L : Type) where
  /-- Touches the local state only. -/
  | silent (l : L)
  /-- Accesses `A` in one step. -/
  | atomic (f : A → A × L)
  /-- Takes the lock when it is free. -/
  | acquire (l : L)
  /-- One of the accesses to `V`. -/
  | access (f : V → V × L)
  /-- Gives the lock back. -/
  | release (l : L)

/-- The next instruction of each thread, or none at its end. -/
abbrev Program (ι V A : Type) (L : ι → Type) := ∀ i, L i → Option (Instr V A (L i))

/-- The variables and the local states. -/
@[ext] structure Config (ι V A : Type) (L : ι → Type) where
  val : V
  atom : A
  loc : ∀ i, L i

/-- A configuration with the holder of the lock. -/
structure State (ι V A : Type) (L : ι → Type) where
  config : Config ι V A L
  owner : Option ι

section
variable {ι V A : Type} {L : ι → Type} [DecidableEq ι]

def Config.setLoc (c : Config ι V A L) (i : ι) (l : L i) : Config ι V A L :=
  { c with loc := Function.update c.loc i l }

@[simp] theorem Config.setLoc_val (c : Config ι V A L) (i : ι) (l : L i) :
    (c.setLoc i l).val = c.val := rfl

@[simp] theorem Config.setLoc_atom (c : Config ι V A L) (i : ι) (l : L i) :
    (c.setLoc i l).atom = c.atom := rfl

@[simp] theorem Config.setLoc_self (c : Config ι V A L) (i : ι) (l : L i) :
    (c.setLoc i l).loc i = l := Function.update_self ..

theorem Config.setLoc_of_ne (c : Config ι V A L) {i j : ι} (l : L i) (h : j ≠ i) :
    (c.setLoc i l).loc j = c.loc j := Function.update_of_ne h ..

variable (prog : Program ι V A L)

/-- One step of some thread.  Nothing stops a thread from an access or a release
without the lock. -/
inductive Step : State ι V A L → State ι V A L → Prop where
  | silent {c : Config ι V A L} {o : Option ι} {i : ι} {l : L i} :
      prog i (c.loc i) = some (.silent l) → Step ⟨c, o⟩ ⟨c.setLoc i l, o⟩
  | atomic {c : Config ι V A L} {o : Option ι} {i : ι} {f : A → A × L i} :
      prog i (c.loc i) = some (.atomic f) →
      Step ⟨c, o⟩ ⟨{ c with atom := (f c.atom).1 }.setLoc i (f c.atom).2, o⟩
  | acquire {c : Config ι V A L} {i : ι} {l : L i} :
      prog i (c.loc i) = some (.acquire l) → Step ⟨c, none⟩ ⟨c.setLoc i l, some i⟩
  | access {c : Config ι V A L} {o : Option ι} {i : ι} {f : V → V × L i} :
      prog i (c.loc i) = some (.access f) →
      Step ⟨c, o⟩ ⟨{ c with val := (f c.val).1 }.setLoc i (f c.val).2, o⟩
  | release {c : Config ι V A L} {o : Option ι} {i : ι} {l : L i} :
      prog i (c.loc i) = some (.release l) → Step ⟨c, o⟩ ⟨c.setLoc i l, none⟩

/-- A schedule leads from one state to the other. -/
abbrev Reach : State ι V A L → State ι V A L → Prop := Relation.ReflTransGen (Step prog)

/-! ## The discipline -/

/-- The instruction keeps to the discipline at `l`, if `inside` holds of the local
states in a critical section. -/
def Instr.Keeps {V A L : Type} (inside : L → Prop) (l : L) : Instr V A L → Prop
  | .silent l' => inside l' ↔ inside l
  | .atomic f => ¬inside l ∧ ∀ a, ¬inside (f a).2
  | .acquire l' => ¬inside l ∧ inside l'
  | .access f => inside l ∧ ∀ v, inside (f v).2
  | .release l' => inside l ∧ ¬inside l'

/-- Every instruction keeps to the discipline, and no thread ends in a section. -/
structure Disciplined (inside : ∀ i, L i → Prop) : Prop where
  keeps : ∀ {i : ι} {l : L i} {x : Instr V A (L i)}, prog i l = some x → x.Keeps (inside i) l
  ends : ∀ {i : ι} {l : L i}, inside i l → prog i l ≠ none

/-- The threads in a section are those that hold the lock. -/
def Guarded (inside : ∀ i, L i → Prop) (s : State ι V A L) : Prop :=
  ∀ i, inside i (s.config.loc i) ↔ s.owner = some i

variable {prog} {inside : ∀ i, L i → Prop} {s s' : State ι V A L}

omit [DecidableEq ι] in
/-- At most one thread is in a section. -/
theorem Guarded.exclusive (h : Guarded inside s) {i j : ι} (hi : inside i (s.config.loc i))
    (hj : inside j (s.config.loc j)) : i = j := by
  have howner := ((h i).mp hi).symm.trans ((h j).mp hj)
  exact Option.some.inj howner

/-- A step moves one thread. -/
theorem Guarded.setLoc {c : Config ι V A L} {o o' : Option ι} {i : ι} {l : L i} {v : V} {a : A}
    (h : Guarded inside ⟨c, o⟩) (hi : inside i l ↔ o' = some i)
    (hj : ∀ j, j ≠ i → (o = some j ↔ o' = some j)) :
    Guarded inside ⟨Config.setLoc ⟨v, a, c.loc⟩ i l, o'⟩ := by
  intro j
  by_cases hne : j = i
  · subst hne
    simpa using hi
  · show inside j ((Config.setLoc ⟨v, a, c.loc⟩ i l).loc j) ↔ o' = some j
    rw [Config.setLoc_of_ne _ _ hne]
    exact (h j).trans (hj j hne)

theorem step_guarded (hd : Disciplined prog inside) (h : Guarded inside s)
    (hstep : Step prog s s') : Guarded inside s' := by
  cases hstep with
  | @silent c o i l hi =>
      have hsame : inside i l ↔ inside i (c.loc i) := hd.keeps hi
      exact h.setLoc (hsame.trans (h i)) fun _ _ => Iff.rfl
  | @atomic c o i f hi =>
      have hout := hd.keeps hi
      exact h.setLoc (iff_of_false (hout.2 c.atom) ((h i).not.mp hout.1)) fun _ _ => Iff.rfl
  | @acquire c i l hi =>
      refine h.setLoc (iff_of_true (hd.keeps hi).2 rfl) fun j hne => ?_
      exact iff_of_false (by simp) fun heq => hne (Option.some.inj heq).symm
  | @access c o i f hi =>
      have hin := hd.keeps hi
      exact h.setLoc (iff_of_true (hin.2 c.val) ((h i).mp hin.1)) fun _ _ => Iff.rfl
  | @release c o i l hi =>
      have hin := hd.keeps hi
      refine h.setLoc (iff_of_false hin.2 (by simp)) fun j hne => ?_
      refine iff_of_false (fun heq => hne ?_) (by simp)
      exact Option.some.inj (heq.symm.trans ((h i).mp hin.1))

/-- The discipline is kept under every schedule. -/
theorem reach_guarded (hd : Disciplined prog inside) (h : Guarded inside s)
    (hreach : Reach prog s s') : Guarded inside s' := by
  induction hreach with
  | refl => exact h
  | tail _ hstep ih => exact step_guarded hd ih hstep

/-- No deadlock: as long as a thread has something left to do, some thread can go
on.  If the lock is held, its holder can. -/
theorem exists_step (hd : Disciplined prog inside) (h : Guarded inside s) {i : ι}
    (hi : prog i (s.config.loc i) ≠ none) : ∃ s', Step prog s s' := by
  obtain ⟨c, o⟩ := s
  have hgo : ∀ {j : ι}, prog j (c.loc j) ≠ none → (o = none ∨ inside j (c.loc j)) →
      ∃ s', Step prog ⟨c, o⟩ s' := by
    intro j hj hfree
    cases hinstr : prog j (c.loc j) with
    | none => exact absurd hinstr hj
    | some instr =>
        cases instr with
        | silent l => exact ⟨_, .silent hinstr⟩
        | atomic f => exact ⟨_, .atomic hinstr⟩
        | acquire l =>
            obtain rfl := hfree.resolve_right (hd.keeps hinstr).1
            exact ⟨_, .acquire hinstr⟩
        | access f => exact ⟨_, .access hinstr⟩
        | release l => exact ⟨_, .release hinstr⟩
  cases o with
  | none => exact hgo hi (Or.inl rfl)
  | some j =>
      have hin : inside j (c.loc j) := (h j).mpr rfl
      exact hgo (hd.ends hin) (Or.inr hin)

/-! ## Atomic sections -/

variable (prog) in
/-- Thread `i` took the lock at `v₀` and `l₀`, and its section has come to `v` and
`l`. -/
inductive Begun (i : ι) (v₀ : V) (l₀ : L i) : V → L i → Prop where
  | acquire {l : L i} : prog i l₀ = some (.acquire l) → Begun i v₀ l₀ v₀ l
  | silent {v : V} {l l' : L i} : Begun i v₀ l₀ v l → prog i l = some (.silent l') →
      Begun i v₀ l₀ v l'
  | access {v : V} {l : L i} {f : V → V × L i} : Begun i v₀ l₀ v l →
      prog i l = some (.access f) → Begun i v₀ l₀ (f v).1 (f v).2

variable (prog) in
/-- The steps of a system whose sections are atomic. -/
inductive Coarse : Config ι V A L → Config ι V A L → Prop where
  | silent {c : Config ι V A L} {i : ι} {l : L i} :
      prog i (c.loc i) = some (.silent l) → Coarse c (c.setLoc i l)
  | atomic {c : Config ι V A L} {i : ι} {f : A → A × L i} :
      prog i (c.loc i) = some (.atomic f) →
      Coarse c ({ c with atom := (f c.atom).1 }.setLoc i (f c.atom).2)
  | critical {c : Config ι V A L} {i : ι} {v : V} {l l' : L i} :
      Begun prog i c.val (c.loc i) v l → prog i l = some (.release l') →
      Coarse c ({ c with val := v }.setLoc i l')

variable (prog) in
abbrev CoarseReach : Config ι V A L → Config ι V A L → Prop :=
  Relation.ReflTransGen (Coarse prog)

variable (prog) in
/-- `c` is `s` with the section in progress, if any, taken back. -/
def RolledBack (c : Config ι V A L) (s : State ι V A L) : Prop :=
  match s.owner with
  | none => c = s.config
  | some i => Begun prog i c.val (c.loc i) s.config.val (s.config.loc i) ∧
      c.atom = s.config.atom ∧ ∀ j, j ≠ i → c.loc j = s.config.loc j

/-- A step is a coarse step, or belongs to the section in progress. -/
theorem RolledBack.step (hd : Disciplined prog inside) (h : Guarded inside s)
    {c : Config ι V A L} (hc : RolledBack prog c s) (hstep : Step prog s s') :
    ∃ c', CoarseReach prog c c' ∧ RolledBack prog c' s' := by
  cases hstep with
  | @silent d o i l hi =>
      cases o with
      | none =>
          obtain rfl : c = d := hc
          exact ⟨_, .single (.silent hi), rfl⟩
      | some k =>
          obtain ⟨hbegun, hatom, hloc⟩ := hc
          by_cases hk : k = i
          · subst hk
            refine ⟨c, .refl, ?_, hatom, fun j hj => ?_⟩
            · simpa using hbegun.silent hi
            · exact (hloc j hj).trans (d.setLoc_of_ne l hj).symm
          · have hi' : prog i (c.loc i) = some (.silent l) := by rwa [hloc i (Ne.symm hk)]
            refine ⟨_, .single (.silent hi'), ?_, hatom, fun j hj => ?_⟩
            · simpa [Config.setLoc_of_ne _ _ hk] using hbegun
            · by_cases hji : j = i
              · subst hji
                simp
              · simpa [Config.setLoc_of_ne _ _ hji] using hloc j hj
  | @atomic d o i f hi =>
      cases o with
      | none =>
          obtain rfl : c = d := hc
          exact ⟨_, .single (.atomic hi), rfl⟩
      | some k =>
          obtain ⟨hbegun, hatom, hloc⟩ := hc
          have hk : k ≠ i := by
            rintro rfl
            exact (hd.keeps hi).1 ((h k).mpr rfl)
          have hatom : c.atom = d.atom := hatom
          have hi' : prog i (c.loc i) = some (.atomic f) := by rwa [hloc i (Ne.symm hk)]
          refine ⟨_, .single (.atomic hi'), ?_, ?_, fun j hj => ?_⟩
          · simpa [Config.setLoc_of_ne _ _ hk] using hbegun
          · simp [hatom]
          · by_cases hji : j = i
            · subst hji
              simp [hatom]
            · simpa [Config.setLoc_of_ne _ _ hji] using hloc j hj
  | @acquire d i l hi =>
      obtain rfl : c = d := hc
      have hbegun : Begun prog i c.val (c.loc i) c.val l := .acquire hi
      refine ⟨c, .refl, ?_, rfl, fun j hj => (c.setLoc_of_ne l hj).symm⟩
      simpa using hbegun
  | @access d o i f hi =>
      obtain rfl : o = some i := (h i).mp (hd.keeps hi).1
      obtain ⟨hbegun, hatom, hloc⟩ := hc
      refine ⟨c, .refl, ?_, hatom, fun j hj => ?_⟩
      · simpa using hbegun.access hi
      · exact (hloc j hj).trans (Config.setLoc_of_ne _ _ hj).symm
  | @release d o i l hi =>
      obtain rfl : o = some i := (h i).mp (hd.keeps hi).1
      obtain ⟨hbegun, hatom, hloc⟩ := hc
      refine ⟨_, .single (.critical hbegun hi), Config.ext rfl hatom (funext fun j => ?_)⟩
      by_cases hj : j = i
      · subst hj
        simp
      · simpa [Config.setLoc_of_ne _ _ hj] using hloc j hj

/-- Every schedule is one of coarse steps, up to the section in progress. -/
theorem coarse_of_reach (hd : Disciplined prog inside) (h : Guarded inside s)
    (hfree : s.owner = none) (hreach : Reach prog s s') :
    ∃ c, CoarseReach prog s.config c ∧ RolledBack prog c s' := by
  induction hreach with
  | refl =>
      refine ⟨s.config, .refl, ?_⟩
      rw [RolledBack, hfree]
  | tail hpast hstep ih =>
      obtain ⟨c, hcoarse, hback⟩ := ih
      obtain ⟨c', hnext, hback'⟩ := hback.step hd (reach_guarded hd h hpast) hstep
      exact ⟨c', hcoarse.trans hnext, hback'⟩

end

end Lock
