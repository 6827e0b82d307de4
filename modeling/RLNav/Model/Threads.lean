import RLNav.Lib.Lock
import RLNav.Model.Controller

/-!
# The two threads

The callback of `/scan` and the parameter service run on the executor of the
node, `setPlan` and `computeVelocityCommands` on the thread that controls the
robot.  They share the pointer `last_scan_`, which `scan_mtx_` guards, and the
parameter, which the node reads and writes in one step.  Every other member
belongs to the control thread.

A `shared_ptr` is two words, the pointer and the control block that keeps the
message alive, so its assignment and its copy are two accesses each.
-/

namespace RLNav

open Checked (Fault)
open Lock (Instr)

/-- A `shared_ptr` to a message. -/
structure SharedPtr (F : Type) where
  ptr : Option (LaserScan F)
  ctrl : Option (LaserScan F)
deriving DecidableEq, Repr

/-- The thread owns the message that it points to. -/
def SharedPtr.Whole {F : Type} (p : SharedPtr F) : Prop := p.ptr = p.ctrl

inductive Thread where
  | executor
  | control
deriving DecidableEq, Repr

/-- What the executor runs. -/
inductive Callback (F D : Type) where
  | scan (msg : LaserScan F)
  | setParam (value : D)
deriving DecidableEq, Repr

/-- What the control thread is asked for. -/
inductive Request (D : Type) where
  | setPlan (path : Path D)
  | lifecycle (call : Lifecycle D)
  | compute (pose : PoseStamped D) (velocity : Twist D)
deriving DecidableEq, Repr

/-- Where the executor is, with the callbacks still to come. -/
inductive Executor (F D : Type) where
  | idle (pending : List (Callback F D))
  | locked (msg : LaserScan F) (pending : List (Callback F D))
  | pointed (msg : LaserScan F) (pending : List (Callback F D))
  | owned (pending : List (Callback F D))
deriving DecidableEq, Repr

/-- Where the control thread is.  `started` has seen a plan, `sampling` has read
the parameter, and the others are about the copy `s` of the pointer. -/
inductive ControlPc (F D : Type) where
  | idle
  | started (pose : PoseStamped D) (velocity : Twist D)
  | sampling (pose : PoseStamped D) (velocity : Twist D)
  | locked (pose : PoseStamped D) (velocity : Twist D)
  | pointed (pose : PoseStamped D) (velocity : Twist D) (ptr : Option (LaserScan F))
  | copied (pose : PoseStamped D) (velocity : Twist D) (s : SharedPtr F)
  | sampled (pose : PoseStamped D) (velocity : Twist D) (s : SharedPtr F)
  | faulted (f : Fault)
deriving DecidableEq, Repr

/-- The control thread.  The fields `lookaheadParam` and `lastScan` of `members`
hold what a call has read of the parameter and of the pointer. -/
structure Control (F D : Type) where
  pc : ControlPc F D
  members : RLController F D
  requests : List (Request D)
  answers : List (Output F D)
deriving DecidableEq, Repr

/-- The local states. -/
abbrev Local (F D : Type) : Thread → Type
  | .executor => Executor F D
  | .control => Control F D

section
variable {F D : Type}

/-- The callbacks. -/
def executorProgram : Executor F D → Option (Instr (SharedPtr F) D (Executor F D))
  | .idle [] => none
  | .idle (.scan msg :: cs) => some (.acquire (.locked msg cs))
  | .idle (.setParam value :: cs) => some (.atomic fun _ => (value, .idle cs))
  | .locked msg cs => some (.access fun p => ({ p with ptr := some msg }, .pointed msg cs))
  | .pointed msg cs => some (.access fun p => ({ p with ctrl := some msg }, .owned cs))
  | .owned cs => some (.release (.idle cs))

variable [CFloat F] [CFloat D] [FloatCast F D]

/-- The part of a call that shares nothing. -/
def Control.finish (host : Host F) (k : Control F D) (pose : PoseStamped D)
    (velocity : Twist D) : Control F D :=
  match computeVelocityCommands host k.members pose velocity with
  | .ok (st, out) => { k with pc := .idle, members := st, answers := k.answers ++ [out] }
  | .error f => { k with pc := .faulted f }

/-- The calls.  Without a plan a call answers at once. -/
def controlProgram (host : Host F) (k : Control F D) :
    Option (Instr (SharedPtr F) D (Control F D)) :=
  match k.pc with
  | .idle =>
      match k.requests with
      | [] => none
      | .setPlan path :: rs =>
          some (.silent { k with members := RLNav.setPlan k.members path, requests := rs })
      | .lifecycle call :: rs =>
          some (.silent { k with members := RLNav.lifecycle k.members call, requests := rs })
      | .compute pose velocity :: rs =>
          if k.members.currentPath.poses.isEmpty then
            some (.silent ({ k with requests := rs }.finish host pose velocity))
          else some (.silent { k with pc := .started pose velocity, requests := rs })
  | .started pose velocity =>
      some (.atomic fun value => (value,
        { k with pc := .sampling pose velocity
                 members := { k.members with lookaheadParam := value } }))
  | .sampling pose velocity => some (.acquire { k with pc := .locked pose velocity })
  | .locked pose velocity =>
      some (.access fun p => (p, { k with pc := .pointed pose velocity p.ptr }))
  | .pointed pose velocity ptr =>
      some (.access fun p => (p, { k with pc := .copied pose velocity ⟨ptr, p.ctrl⟩ }))
  | .copied pose velocity s => some (.release { k with pc := .sampled pose velocity s })
  | .sampled pose velocity s =>
      some (.silent ({ k with members := { k.members with lastScan := s.ptr } }.finish host
        pose velocity))
  | .faulted _ => none

/-- The controller as two threads. -/
def threads (host : Host F) : Lock.Program Thread (SharedPtr F) D (Local F D)
  | .executor => executorProgram
  | .control => controlProgram host

/-- A configured controller with callbacks and requests to come. -/
def launch (st : RLController F D) (cs : List (Callback F D)) (rs : List (Request D)) :
    Lock.State Thread (SharedPtr F) D (Local F D) where
  owner := none
  config :=
    { val := ⟨st.lastScan, st.lastScan⟩
      atom := st.lookaheadParam
      loc := fun
        | .executor => .idle cs
        | .control => { pc := .idle, members := st, requests := rs, answers := [] } }

end

end RLNav
