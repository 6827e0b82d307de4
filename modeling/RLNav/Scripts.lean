import RLNav.Model.Scripts

/-!
# The scripts send what was typed, or nothing

A script talks until it has all the numbers that it asks for.  If one of them does not
convert or is an infinite yaw, or the input ends, it stops and has sent nothing.
Otherwise it sends the poses of the numbers in their order, once, waits until the
navigator says that the task is complete, and only then says so itself, whatever became
of the task (`sendMultipoint_run`, `sendGoal_run`).
-/

namespace RLNav

open Console (Parser Reads Stop World)

section
variable {D : Type}

/-- What a script does before it sends anything. -/
def Act.Talks : Act D → Prop
  | .init => True
  | .print _ => True
  | .input _ => True
  | .waitUntilNav2Active => True
  | _ => False

/-! ## Numbers -/

theorem input_reads (prompt : String) : Reads Act.Talks Parser.line (input prompt (D := D)) :=
  .act trivial .line

theorem inputFloat_reads (py : Python D) (prompt : String) :
    Reads Act.Talks (Parser.item py.float) (inputFloat py prompt) :=
  .bind (input_reads prompt) fun l => .convert (py.float l)

theorem inputInt_reads (py : Python D) (prompt : String) :
    Reads Act.Talks (Parser.item py.int) (inputInt py prompt) :=
  .bind (input_reads prompt) fun l => .convert (py.int l)

variable [CFloat D]

/-! ## Poses -/

def typedPose (py : Python D) : Parser (PoseStamped D) := do
  let x ← Parser.item py.float
  let y ← Parser.item py.float
  let yaw ← Parser.item py.float
  Parser.convert (mapPose x y yaw)

/-- The lines spell the poses, three lines for each, and `math` rejects no yaw. -/
inductive Spelled (py : Python D) : List (PoseStamped D) → List String → Prop where
  | nil : Spelled py [] []
  | cons {x y yaw : D} {a b c : String} {p : PoseStamped D} {ps : List (PoseStamped D)}
      {ls : List String} :
      py.float a = some x → py.float b = some y → py.float c = some yaw →
      mapPose x y yaw = some p → Spelled py ps ls → Spelled py (p :: ps) (a :: b :: c :: ls)

theorem typedPose_eq_some {py : Python D} {lines rest : List String} {p : PoseStamped D} :
    typedPose py lines = some (p, rest) ↔
      ∃ x y yaw a b c, lines = a :: b :: c :: rest ∧ py.float a = some x ∧ py.float b = some y ∧
        py.float c = some yaw ∧ mapPose x y yaw = some p := by
  simp only [typedPose, Parser.bind_eq_some, Parser.item_eq_some, Parser.convert_eq_some]
  constructor
  · rintro ⟨x, _, ⟨a, rfl, ha⟩, y, _, ⟨b, rfl, hb⟩, yaw, _, ⟨c, rfl, hc⟩, hp, rfl⟩
    exact ⟨x, y, yaw, a, b, c, rfl, ha, hb, hc, hp⟩
  · rintro ⟨x, y, yaw, a, b, c, rfl, ha, hb, hc, hp⟩
    exact ⟨x, _, ⟨a, rfl, ha⟩, y, _, ⟨b, rfl, hb⟩, yaw, _, ⟨c, rfl, hc⟩, hp, rfl⟩

theorem inputWaypoint_reads (py : Python D) (i : Nat) :
    Reads Act.Talks (typedPose py) (inputWaypoint py i) :=
  .act trivial <| .bind (inputFloat_reads py _) fun _ =>
    .bind (inputFloat_reads py _) fun _ => .bind (inputFloat_reads py _) fun _ => .convert _

/-- The loop reads the poses that the lines spell. -/
theorem collect_eq_some {py : Python D} {n : Nat} (i : Nat) {lines rest : List String}
    {ps : List (PoseStamped D)} :
    Parser.collect (fun _ => typedPose py) i n lines = some (ps, rest) ↔
      ∃ ls, lines = ls ++ rest ∧ ps.length = n ∧ Spelled py ps ls := by
  induction n generalizing i lines rest ps with
  | zero =>
      rw [Parser.collect, Parser.pure_eq_some]
      constructor
      · rintro ⟨rfl, rfl⟩
        exact ⟨[], rfl, rfl, .nil⟩
      · rintro ⟨ls, rfl, hlen, hspell⟩
        cases hspell with
        | nil => exact ⟨rfl, rfl⟩
        | cons => cases hlen
  | succ n ih =>
      simp only [Parser.collect, Parser.bind_eq_some, typedPose_eq_some, ih]
      constructor
      · rintro ⟨p, _, ⟨x, y, yaw, a, b, c, rfl, ha, hb, hc, hp⟩, ps', _, ⟨ls, rfl, rfl, hls⟩, h⟩
        obtain ⟨rfl, rfl⟩ := Parser.pure_eq_some.mp h
        exact ⟨a :: b :: c :: ls, rfl, rfl, .cons ha hb hc hp hls⟩
      · rintro ⟨ls, rfl, hlen, hspell⟩
        cases hspell with
        | nil => cases hlen
        | @cons x y yaw a b c p ps ls ha hb hc hp hls =>
            exact ⟨_, _, ⟨x, y, yaw, a, b, c, rfl, ha, hb, hc, hp⟩, ps, _,
              ⟨ls, rfl, Nat.succ.inj hlen, hls⟩, Parser.pure_eq_some.mpr ⟨rfl, rfl⟩⟩

/-! ## The scripts -/

/-- The input of `send_multipoint.py` spells the waypoints. -/
def TypedWaypoints (py : Python D) (lines : List String) (ps : List (PoseStamped D)) : Prop :=
  ∃ l num ls rest, lines = l :: (ls ++ rest) ∧ py.int l = some num ∧ ps.length = num.toNat ∧
    Spelled py ps ls

/-- The input of `send_goal.py` spells the goal. -/
def TypedGoal (py : Python D) (lines : List String) (p : PoseStamped D) : Prop :=
  ∃ ls rest, lines = ls ++ rest ∧ Spelled py [p] ls

def typedWaypoints (py : Python D) : Parser (List (PoseStamped D)) := do
  let num ← Parser.item py.int
  Parser.collect (fun _ => typedPose py) 0 num.toNat

theorem typedWaypoints_iff {py : Python D} {lines : List String} {ps : List (PoseStamped D)} :
    (∃ rest, typedWaypoints py lines = some (ps, rest)) ↔ TypedWaypoints py lines ps := by
  simp only [typedWaypoints, Parser.bind_eq_some, Parser.item_eq_some, collect_eq_some]
  constructor
  · rintro ⟨rest, num, _, ⟨l, rfl, hl⟩, ls, rfl, hlen, hls⟩
    exact ⟨l, num, ls, rest, rfl, hl, hlen, hls⟩
  · rintro ⟨l, num, ls, rest, rfl, hl, hlen, hls⟩
    exact ⟨rest, num, _, ⟨l, rfl, hl⟩, ls, rfl, hlen, hls⟩

theorem typedGoal_iff {py : Python D} {lines : List String} {p : PoseStamped D} :
    (∃ rest, typedPose py lines = some (p, rest)) ↔ TypedGoal py lines p := by
  simp only [typedPose_eq_some]
  constructor
  · rintro ⟨rest, x, y, yaw, a, b, c, rfl, ha, hb, hc, hp⟩
    exact ⟨[a, b, c], rest, rfl, .cons ha hb hc hp .nil⟩
  · rintro ⟨ls, rest, rfl, hspell⟩
    cases hspell with
    | @cons x y yaw a b c p ps ls ha hb hc hp hls =>
        cases hls
        exact ⟨rest, x, y, yaw, a, b, c, rfl, ha, hb, hc, hp⟩

theorem inputWaypoints_reads (py : Python D) :
    Reads Act.Talks (typedWaypoints py) (inputWaypoints py) :=
  .act trivial <| .act trivial <| .act trivial <|
    .bind (inputInt_reads py _) fun num => .collect (inputWaypoint_reads py) 0 num.toNat

theorem inputGoal_reads (py : Python D) : Reads Act.Talks (typedPose py) (inputGoal py) := by
  refine .act trivial <| .act trivial <| .act trivial <| .act trivial <|
    .bind (inputFloat_reads py _) fun x => .bind (inputFloat_reads py _) fun y =>
    .bind (inputFloat_reads py _) fun yaw => ?_
  rw [← bind_pure (Parser.convert (mapPose x y yaw))]
  exact .bind (.convert _) fun p => .act trivial (.pure p)

/-- `send_multipoint.py` as an errand. -/
theorem sendMultipoint_eq (py : Python D) :
    sendMultipoint py = Console.errand (inputWaypoints py)
      (fun ps => [.print "Sending waypoints...", .followWaypoints ps]) [.sleep]
      [.print "All waypoints completed!", .shutdown] := rfl

theorem sendGoal_eq (py : Python D) :
    sendGoal py = Console.errand (inputGoal py) (fun p => [.goToPose p]) [.getFeedback, .sleep]
      [.getResult, .print "Navigation completed!", .shutdown] := rfl

/-- `send_multipoint.py` sends the waypoints that its input spells, in one task, and it
says that they are completed when the navigator does.  On any other input it stops
before it sends anything. -/
theorem sendMultipoint_run (py : Python D) (lines : List String) (completes : List Bool) :
    ∃ said : List (Act D), (∀ a ∈ said, a.Talks) ∧
      (∀ ps, TypedWaypoints py lines ps →
        (sendMultipoint py ⟨lines, completes, []⟩).1 =
            (if true ∈ completes then .ok () else .error .waiting) ∧
          (sendMultipoint py ⟨lines, completes, []⟩).2.acts = said ++
            ([.print "Sending waypoints...", .followWaypoints ps] ++
              (List.replicate (Console.pauses completes) [.sleep]).flatten ++
              if true ∈ completes then [.print "All waypoints completed!", .shutdown] else [])) ∧
      ((∀ ps, ¬TypedWaypoints py lines ps) →
        (∃ e, e ≠ Stop.waiting ∧ (sendMultipoint py ⟨lines, completes, []⟩).1 = .error e) ∧
          (sendMultipoint py ⟨lines, completes, []⟩).2.acts = said) := by
  obtain ⟨said, hsaid, hsome, hnone⟩ := Console.errand_run (inputWaypoints_reads py)
    (fun ps => [.print "Sending waypoints...", .followWaypoints ps]) [.sleep]
    [.print "All waypoints completed!", .shutdown] ⟨lines, completes, []⟩
  rw [← sendMultipoint_eq] at hsome hnone
  refine ⟨said, hsaid, ?_, ?_⟩
  · intro ps hps
    obtain ⟨rest, hrest⟩ := typedWaypoints_iff.mpr hps
    exact hsome ps rest hrest
  · intro hps
    refine hnone (Option.eq_none_iff_forall_ne_some.mpr fun r hr => ?_)
    exact hps r.1 (typedWaypoints_iff.mp ⟨r.2, hr⟩)

/-- `send_goal.py` sends the goal that its input spells, and it says that the navigation
is completed when the navigator does, whatever the result.  On any other input it stops
before it sends anything. -/
theorem sendGoal_run (py : Python D) (lines : List String) (completes : List Bool) :
    ∃ said : List (Act D), (∀ a ∈ said, a.Talks) ∧
      (∀ p, TypedGoal py lines p →
        (sendGoal py ⟨lines, completes, []⟩).1 =
            (if true ∈ completes then .ok () else .error .waiting) ∧
          (sendGoal py ⟨lines, completes, []⟩).2.acts = said ++
            ([.goToPose p] ++
              (List.replicate (Console.pauses completes) [.getFeedback, .sleep]).flatten ++
              if true ∈ completes then
                [.getResult, .print "Navigation completed!", .shutdown] else [])) ∧
      ((∀ p, ¬TypedGoal py lines p) →
        (∃ e, e ≠ Stop.waiting ∧ (sendGoal py ⟨lines, completes, []⟩).1 = .error e) ∧
          (sendGoal py ⟨lines, completes, []⟩).2.acts = said) := by
  obtain ⟨said, hsaid, hsome, hnone⟩ := Console.errand_run (inputGoal_reads py)
    (fun p => [.goToPose p]) [.getFeedback, .sleep]
    [.getResult, .print "Navigation completed!", .shutdown] ⟨lines, completes, []⟩
  rw [← sendGoal_eq] at hsome hnone
  refine ⟨said, hsaid, ?_, ?_⟩
  · intro p hp
    obtain ⟨rest, hrest⟩ := typedGoal_iff.mpr hp
    exact hsome p rest hrest
  · intro hp
    refine hnone (Option.eq_none_iff_forall_ne_some.mpr fun r hr => ?_)
    exact hp r.1 (typedGoal_iff.mp ⟨r.2, hr⟩)

end

end RLNav
