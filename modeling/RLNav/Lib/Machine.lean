import RLNav.Lib.Checked

/-!
# Runs of a deterministic machine

A machine is a step function `step : S → E → Except Fault (S × O)` that answers
one event with an output or a fault.  `run` feeds it a list of events and
collects the outputs.

Every law over runs is proved by one of four rules, each of which asks only
about a single step.

* `run_history` relates the state and the outputs to the events so far.
* `run_invariant` is the case where the events do not matter.
* `run_total` gives a run without fault.
* `run_simulation` relates two runs, on possibly different machines and events.
-/

namespace Machine

open Checked (Fault bind_eq_ok pure_eq_ok)

/-- The run of a machine over a list of events, with one output per event. -/
def run {S E O : Type} (step : S → E → Except Fault (S × O)) :
    S → List E → Except Fault (S × List O)
  | s, [] => .ok (s, [])
  | s, e :: es => do
      let (s₁, o) ← step s e
      let (s', os) ← run step s₁ es
      return (s', o :: os)

section
variable {S E O : Type} {step : S → E → Except Fault (S × O)}

theorem run_nil (s : S) : run step s [] = .ok (s, []) := rfl

theorem run_nil_eq_ok {s s' : S} {os : List O} :
    run step s [] = .ok (s', os) ↔ s = s' ∧ os = [] := by
  rw [run_nil, Except.ok.injEq, Prod.mk.injEq, eq_comm (a := [])]

/-- A run on one more event is a step followed by a run. -/
theorem run_cons_eq_ok {s s' : S} {e : E} {es : List E} {os : List O} :
    run step s (e :: es) = .ok (s', os) ↔
      ∃ s₁ o os', step s e = .ok (s₁, o) ∧ run step s₁ es = .ok (s', os') ∧ os = o :: os' := by
  simp only [run, bind_eq_ok, pure_eq_ok, Prod.exists, Prod.mk.injEq]
  constructor
  · rintro ⟨s₁, o, h₁, s₂, os', h₂, rfl, rfl⟩
    exact ⟨s₁, o, os', h₁, h₂, rfl⟩
  · rintro ⟨s₁, o, os', h₁, h₂, rfl⟩
    exact ⟨s₁, o, h₁, s', os', h₂, rfl, rfl⟩

/-- Runs compose. -/
theorem run_append_eq_ok {s s' : S} {es es' : List E} {os : List O} :
    run step s (es ++ es') = .ok (s', os) ↔
      ∃ s₁ os₁ os₂, run step s es = .ok (s₁, os₁) ∧ run step s₁ es' = .ok (s', os₂) ∧
        os = os₁ ++ os₂ := by
  induction es generalizing s os with
  | nil =>
      simp only [List.nil_append, run_nil_eq_ok]
      constructor
      · intro h
        exact ⟨s, [], os, ⟨rfl, rfl⟩, h, rfl⟩
      · rintro ⟨s₁, os₁, os₂, ⟨rfl, rfl⟩, h, rfl⟩
        exact h
  | cons e es ih =>
      simp only [List.cons_append, run_cons_eq_ok, ih]
      constructor
      · rintro ⟨s₁, o, os', h₁, ⟨s₂, os₁, os₂, h₂, h₃, rfl⟩, rfl⟩
        exact ⟨s₂, o :: os₁, os₂, ⟨s₁, o, os₁, h₁, h₂, rfl⟩, h₃, rfl⟩
      · rintro ⟨s₂, os₁, os₂, ⟨s₁, o, os', h₁, h₂, rfl⟩, h₃, rfl⟩
        exact ⟨s₁, o, os' ++ os₂, h₁, ⟨s₂, os', os₂, h₂, h₃, rfl⟩, rfl⟩

theorem run_singleton_eq_ok {s s' : S} {e : E} {os : List O} :
    run step s [e] = .ok (s', os) ↔ ∃ o, step s e = .ok (s', o) ∧ os = [o] := by
  rw [run_cons_eq_ok]
  constructor
  · rintro ⟨s₁, o, os', h₁, h₂, rfl⟩
    obtain ⟨rfl, rfl⟩ := run_nil_eq_ok.mp h₂
    exact ⟨o, h₁, rfl⟩
  · rintro ⟨o, h₁, rfl⟩
    exact ⟨s', o, [], h₁, run_nil s', rfl⟩

/-- A relation between the events so far, the state and the outputs so far that
holds at the start and is kept by every step holds after every run. -/
theorem run_history (I : List E → S → List O → Prop) {s : S} (init : I [] s [])
    (keep : ∀ es s₁ os e s₂ o, I es s₁ os → step s₁ e = .ok (s₂, o) →
      I (es ++ [e]) s₂ (os ++ [o]))
    {es : List E} {s' : S} {os : List O} (h : run step s es = .ok (s', os)) : I es s' os := by
  suffices H : ∀ (es : List E) (pre : List E) (s₁ : S) (pos os : List O), I pre s₁ pos →
      run step s₁ es = .ok (s', os) → I (pre ++ es) s' (pos ++ os) from
    H es [] s [] os init h
  intro es
  induction es with
  | nil =>
      intro pre s₁ pos os hI h
      obtain ⟨rfl, rfl⟩ := run_nil_eq_ok.mp h
      rwa [List.append_nil, List.append_nil]
  | cons e es ih =>
      intro pre s₁ pos os hI h
      obtain ⟨s₂, o, os', h₁, h₂, rfl⟩ := run_cons_eq_ok.mp h
      have := ih _ s₂ _ os' (keep pre s₁ pos e s₂ o hI h₁) h₂
      rwa [List.append_assoc, List.append_assoc] at this

/-- A property of the state that every step keeps holds after every run.  The
events of the run may be restricted by `P`. -/
theorem run_invariant (I : S → Prop) (P : E → Prop)
    (keep : ∀ s₁ e s₂ o, I s₁ → P e → step s₁ e = .ok (s₂, o) → I s₂)
    {s s' : S} {es : List E} {os : List O} (hs : I s) (hP : ∀ e ∈ es, P e)
    (h : run step s es = .ok (s', os)) : I s' := by
  induction es generalizing s os with
  | nil => rwa [← (run_nil_eq_ok.mp h).1]
  | cons e es ih =>
      obtain ⟨s₁, o, os', h₁, h₂, -⟩ := run_cons_eq_ok.mp h
      exact ih (keep s e s₁ o hs (hP e (List.mem_cons_self ..)) h₁)
        (fun e' he' => hP e' (List.mem_cons_of_mem _ he')) h₂

/-- A machine that never faults under an invariant runs without fault, and the
outputs satisfy what every step guarantees. -/
theorem run_total (step : S → E → Except Fault (S × O)) (I : S → Prop) (P : E → Prop) (Q : O → Prop)
    (total : ∀ s e, I s → P e → ∃ s' o, step s e = .ok (s', o) ∧ I s' ∧ Q o)
    {s : S} {es : List E} (hs : I s) (hP : ∀ e ∈ es, P e) :
    ∃ s' os, run step s es = .ok (s', os) ∧ I s' ∧ ∀ o ∈ os, Q o := by
  induction es generalizing s with
  | nil => exact ⟨s, [], run_nil s, hs, by simp⟩
  | cons e es ih =>
      obtain ⟨s₁, o, h₁, hs₁, ho⟩ := total s e hs (hP e (List.mem_cons_self ..))
      obtain ⟨s', os, h₂, hs', hos⟩ := ih hs₁ fun e' he' => hP e' (List.mem_cons_of_mem _ he')
      refine ⟨s', o :: os, run_cons_eq_ok.mpr ⟨s₁, o, os, h₁, h₂, rfl⟩, hs', ?_⟩
      intro o' ho'
      cases List.mem_cons.mp ho' with
      | inl he => exact he ▸ ho
      | inr hmem => exact hos o' hmem

end

/-- A second machine follows the first: related states answer an event and its
image with related outputs, as long as the events satisfy `P` and each event and
its output on the first machine satisfy `C`. -/
theorem run_simulation {S E O S' E' O' : Type} {step : S → E → Except Fault (S × O)}
    {step' : S' → E' → Except Fault (S' × O')} (R : S → S' → Prop) (Q : O → O' → Prop)
    (P : E → Prop) (C : E → O → Prop) (f : E → E')
    (sim : ∀ s t e s₁ o, R s t → P e → step s e = .ok (s₁, o) → C e o →
      ∃ t₁ o', step' t (f e) = .ok (t₁, o') ∧ R s₁ t₁ ∧ Q o o')
    {s s' : S} {t : S'} {es : List E} {os : List O} (hst : R s t) (hP : ∀ e ∈ es, P e)
    (h : run step s es = .ok (s', os)) (hC : List.Forall₂ C es os) :
    ∃ t' os', run step' t (es.map f) = .ok (t', os') ∧ R s' t' ∧ List.Forall₂ Q os os' := by
  induction es generalizing s t os with
  | nil =>
      obtain ⟨rfl, rfl⟩ := run_nil_eq_ok.mp h
      exact ⟨t, [], run_nil t, hst, .nil⟩
  | cons e es ih =>
      obtain ⟨s₁, o, os₁, h₁, h₂, rfl⟩ := run_cons_eq_ok.mp h
      cases hC with
      | cons ho hos =>
          obtain ⟨t₁, o', ht₁, hst₁, hQ⟩ :=
            sim s t e s₁ o hst (hP e (List.mem_cons_self ..)) h₁ ho
          obtain ⟨t', os', ht', hst', hQs⟩ :=
            ih hst₁ (fun e' he' => hP e' (List.mem_cons_of_mem _ he')) h₂ hos
          exact ⟨t', o' :: os', run_cons_eq_ok.mpr ⟨t₁, o', os', ht₁, ht', rfl⟩, hst',
            .cons hQ hQs⟩

end Machine
