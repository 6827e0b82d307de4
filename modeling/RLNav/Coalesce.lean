import RLNav.Exact.Startup
import RLNav.Interleaving

/-!
# Callbacks coalesce

Between two calls only the latest message, the latest plan and the latest value of the
parameter count.  `coalesce` rewrites the events of a run so that at most these three
are left before each call, always in the same order, and the lifecycle calls are gone.
The run ends in the same state and gives the same answers, or faults as before
(`run_coalesce`).  So two runs whose callbacks are delivered in another order, or more
often, cannot be told apart as long as they coalesce to the same events.
-/

namespace RLNav

open Checked (Fault)
open CFloat (lit)

section
variable {F D : Type}

/-- What the callbacks since the last call leave. -/
structure Pending (F D : Type) where
  scan : Option (LaserScan F)
  plan : Option (Path D)
  param : Option D
deriving DecidableEq, Repr

def Pending.none : Pending F D := ⟨.none, .none, .none⟩

/-- One more callback.  A call leaves nothing. -/
def Pending.note (p : Pending F D) : Event F D → Pending F D
  | .scan msg => { p with scan := some msg }
  | .setPlan path => { p with plan := some path }
  | .setParam value => { p with param := some value }
  | .lifecycle _ => p
  | .compute _ _ => .none

def Pending.events (p : Pending F D) : List (Event F D) :=
  p.scan.toList.map .scan ++ (p.plan.toList.map .setPlan ++ p.param.toList.map .setParam)

/-- The events of a run with the callbacks `p` before it. -/
def coalesce : Pending F D → List (Event F D) → List (Event F D)
  | p, [] => p.events
  | p, .compute pose velocity :: es => p.events ++ .compute pose velocity :: coalesce .none es
  | p, e :: es => coalesce (p.note e) es

/-- The state at the end of a run and the answers to its calls. -/
def answers {S : Type} : Except Fault (S × List (Output F D)) →
    Except Fault (S × List (Output F D)) :=
  Except.map fun r => (r.1, r.2.filterMap Output.answer?)

/-- The callbacks, run on a state. -/
def Pending.settle (p : Pending F D) (st : RLController F D) : RLController F D :=
  let st := p.scan.elim st (scanCallback st)
  let st := p.plan.elim st (setPlan st)
  p.param.elim st (setParam st)

theorem Pending.settle_none (st : RLController F D) : Pending.none.settle st = st := rfl

/-! ## Size -/

theorem Pending.events_length (p : Pending F D) : p.events.length ≤ 3 := by
  obtain ⟨scan, plan, param⟩ := p
  cases scan <;> cases plan <;> cases param <;> simp [Pending.events]

theorem coalesce_length (p : Pending F D) (es : List (Event F D)) :
    (coalesce p es).length ≤ 4 * (es.filter Event.isCall).length + 3 := by
  induction es generalizing p with
  | nil => simpa [coalesce] using p.events_length
  | cons e es ih =>
      cases e with
      | compute pose velocity =>
          have hevents := p.events_length
          have hrest := ih .none
          have hcall : ((Event.compute pose velocity :: es).filter Event.isCall).length =
              (es.filter Event.isCall).length + 1 := rfl
          rw [coalesce, List.length_append, List.length_cons, hcall]
          omega
      | _ => simpa [coalesce, Event.isCall] using ih _

/-- Callbacks that are left are noted again. -/
theorem coalesce_events (p : Pending F D) (es : List (Event F D)) :
    coalesce .none (p.events ++ es) = coalesce p es := by
  obtain ⟨scan, plan, param⟩ := p
  cases scan <;> cases plan <;> cases param <;> rfl

theorem coalesce_coalesce (p : Pending F D) (es : List (Event F D)) :
    coalesce .none (coalesce p es) = coalesce p es := by
  induction es generalizing p with
  | nil =>
      rw [coalesce, ← List.append_nil p.events, coalesce_events, coalesce, List.append_nil]
  | cons e es ih =>
      cases e with
      | compute pose velocity => rw [coalesce, coalesce_events, coalesce, ih]
      | _ => exact ih _

end

section
variable {F D : Type} [CFloat F] [CFloat D] [FloatCast F D] (host : Host F)

/-! ## The run -/

/-- The answers after one more event. -/
theorem answers_run_cons (st : RLController F D) (e : Event F D) (es : List (Event F D)) :
    answers (run host st (e :: es)) = step host st e >>= fun r =>
      (answers (run host r.1 es)).map fun r' => (r'.1, r.2.answer?.toList ++ r'.2) := by
  rw [run, Machine.run]
  cases step host st e with
  | error f => rfl
  | ok r =>
      obtain ⟨st₁, out⟩ := r
      show answers (run host st₁ es >>= fun r' => .ok (r'.1, out :: r'.2)) = Except.map _ _
      cases run host st₁ es with
      | error f => rfl
      | ok r' => cases out <;> rfl

/-- A callback gives no answer. -/
theorem answers_silent {st st₁ : RLController F D} {e : Event F D}
    (h : step host st e = .ok (st₁, .silent)) (es : List (Event F D)) :
    answers (run host st (e :: es)) = answers (run host st₁ es) := by
  rw [answers_run_cons, h, Checked.ok_bind]
  cases answers (run host st₁ es) <;> rfl

/-- The callbacks that are left have the effect of all of them. -/
theorem Pending.settle_note {st : RLController F D} (p : Pending F D) {e : Event F D}
    (he : e.isCall = false) :
    step host (p.settle st) e = .ok ((p.note e).settle st, .silent) := by
  obtain ⟨scan, plan, param⟩ := p
  cases e with
  | scan msg => cases scan <;> cases plan <;> cases param <;> rfl
  | setPlan path => cases scan <;> cases plan <;> cases param <;> rfl
  | setParam value => cases scan <;> cases plan <;> cases param <;> rfl
  | lifecycle call => cases call <;> rfl
  | compute pose velocity => cases he

theorem answers_events (st : RLController F D) (p : Pending F D) (es : List (Event F D)) :
    answers (run host st (p.events ++ es)) = answers (run host (p.settle st) es) := by
  have hscan : ∀ (scan : Option (LaserScan F)) (st : RLController F D) (es : List (Event F D)),
      answers (run host st (scan.toList.map .scan ++ es)) =
        answers (run host (scan.elim st (scanCallback st)) es) := by
    intro scan st es
    cases scan with
    | none => rfl
    | some msg => exact answers_silent host rfl es
  have hplan : ∀ (plan : Option (Path D)) (st : RLController F D) (es : List (Event F D)),
      answers (run host st (plan.toList.map .setPlan ++ es)) =
        answers (run host (plan.elim st (setPlan st)) es) := by
    intro plan st es
    cases plan with
    | none => rfl
    | some path => exact answers_silent host rfl es
  have hparam : ∀ (param : Option D) (st : RLController F D) (es : List (Event F D)),
      answers (run host st (param.toList.map .setParam ++ es)) =
        answers (run host (param.elim st (setParam st)) es) := by
    intro param st es
    cases param with
    | none => rfl
    | some value => exact answers_silent host rfl es
  rw [Pending.events, List.append_assoc, List.append_assoc, hscan, hplan, hparam]
  rfl

theorem answers_coalesce (st : RLController F D) (p : Pending F D) (es : List (Event F D)) :
    answers (run host st (coalesce p es)) = answers (run host (p.settle st) es) := by
  induction es generalizing p st with
  | nil =>
      rw [coalesce, ← List.append_nil p.events]
      exact answers_events host st p []
  | cons e es ih =>
      have hskip : e.isCall = false → answers (run host st (coalesce (p.note e) es)) =
          answers (run host (p.settle st) (e :: es)) := by
        intro he
        rw [ih, answers_silent host (p.settle_note host he)]
      cases e with
      | scan msg => exact hskip rfl
      | setPlan path => exact hskip rfl
      | setParam value => exact hskip rfl
      | lifecycle call => exact hskip rfl
      | compute pose velocity =>
          rw [coalesce, answers_events, answers_run_cons, answers_run_cons]
          simp only [ih, Pending.settle_none]

/-- Coalescing the callbacks of a run changes neither its answers nor its last state, nor
whether it faults, and leaves at most three callbacks before each call.  Coalescing once
more changes nothing. -/
theorem run_coalesce (st : RLController F D) (es : List (Event F D)) :
    answers (run host st (coalesce .none es)) = answers (run host st es) ∧
    (coalesce .none es).length ≤ 4 * (es.filter Event.isCall).length + 3 ∧
    coalesce .none (coalesce .none es) = coalesce .none es :=
  ⟨answers_coalesce host st .none es, coalesce_length .none es, coalesce_coalesce .none es⟩

end

end RLNav
