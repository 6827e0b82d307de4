import RLNav.Lib.Checked
import RLNav.Model.Messages
import Mathlib.Algebra.Ring.Rat

/-!
# The lidar part of the controller

`sampleScan` resamples the latest scan message into 90 rays.
`updateLidarBuffers` pushes the result into the stack of six frames and updates
the smoothed sector differences.  Both index vectors, so both return `.ok` or a
fault.
-/

namespace RLNav

open Checked (Fault read readInt write addInt remInt InInt32)
open CFloat (lit)

/-- What the controller calls and does not define.  `session` is the network
that `session_->Run` evaluates, on the observation.  `unspecInt v` is the result
of the cast of `lround v` to `int` where the language leaves it open. -/
structure Host (F : Type) where
  session : List F → F × F
  unspecInt : F → Int32

section
variable {F : Type} [CFloat F]

/-! ## `sampleScan` -/

/-- `static_cast<int>(std::lround(v))`. -/
def lroundInt (host : Host F) (v : F) : Int :=
  match CFloat.lround v with
  | some z => if InInt32 z then z else (host.unspecInt v).toInt
  | none => (host.unspecInt v).toInt

/-- The direction of training ray `i`, wrapped to `[-π, π]`. -/
def rayAngle (i : Nat) : F :=
  let ang : F := lit 2 * CFloat.pi * lit i / lit nRays + lidarOffset
  CFloat.atan2 (CFloat.sin ang) (CFloat.cos ang)

/-- `((idx % n) + n) % n` in `int` arithmetic. -/
def wrapIndex (idx n : Int) : Except Fault Int := do
  let r ← remInt idx n
  let t ← addInt r n
  remInt t n

/-- The index of the beam that ray `i` looks at.  The cast of the size to `int`
keeps its low 32 bits. -/
def beamIndex (host : Host F) (s : LaserScan F) (i : Nat) : Except Fault Int :=
  wrapIndex (lroundInt host ((rayAngle i - s.angleMin) / s.angleIncrement))
    (Int.bmod s.ranges.length (2 ^ 32))

/-- A range as a fraction of `lidarCap`.  `1.0` stands for far or no hit. -/
def normReading (r : F) : F :=
  if !CFloat.isfinite r || CFloat.le lidarCap r then lit 1
  else CFloat.clamp (r / lidarCap) (lit 0) (lit 1)

/-- A message that `sampleScan` reads, and does not answer with the
placeholder. -/
def LaserScan.usable (s : LaserScan F) : Bool :=
  !(s.ranges.isEmpty || CFloat.eq s.angleIncrement (lit 0))

/-- One iteration of the loop of `sampleScan`. -/
def sampleRay (host : Host F) (s : LaserScan F) (i : Nat) : Except Fault F := do
  let idx ← beamIndex host s i
  let r ← readInt s.ranges idx
  return normReading r

/-- Resample the latest scan into 90 rays at the training lidar's angles. -/
def sampleScan (host : Host F) (lastScan : Option (LaserScan F)) : Except Fault (List F) :=
  match lastScan with
  | none => .ok (List.replicate nRays (lit 1))
  | some s =>
      if s.usable then (List.range nRays).mapM (sampleRay host s)
      else .ok (List.replicate nRays (lit 1))

/-! ## `updateLidarBuffers` -/

/-- The members that only `updateLidarBuffers` writes. -/
structure LidarBuffers (F : Type) where
  frames : List (List F)
  prevScan : List F
  temporal : List F
  buffersReady : Bool
deriving DecidableEq, Repr

/-- The members of a controller that has seen no scan. -/
def LidarBuffers.init : LidarBuffers F :=
  { frames := List.replicate nFrames [], prevScan := [], temporal := [], buffersReady := false }

/-- The smallest difference of the two scans over rays `start, …, start+len-1`. -/
def sectorMin (scan prevScan : List F) (start len : Nat) : Except Fault F :=
  (List.range' start len).foldlM
    (fun mn k => do
      let a ← read scan k
      let b ← read prevScan k
      return CFloat.min mn (a - b))
    CFloat.infinity

/-- The EMA step of one sector. -/
def smooth (t mn : F) : F :=
  temporalEma * t + (lit 1 - temporalEma) * (mn * temporalScale)

/-- One iteration of the loop over the sectors, on the running `start` and on
`temporal_`. -/
def sectorStep (scan prevScan : List F) (acc : Nat × List F) (s : Nat) :
    Except Fault (Nat × List F) := do
  let base := nRays / nSectors
  let rem := nRays % nSectors
  let len := base + (if s < rem then 1 else 0)
  let mn ← sectorMin scan prevScan acc.1 len
  let t ← read acc.2 s
  let temporal ← write acc.2 s (smooth t mn)
  return (acc.1 + len, temporal)

def updateSectors (scan prevScan temporal : List F) : Except Fault (List F) := do
  let (_, temporal) ← (List.range nSectors).foldlM (sectorStep scan prevScan) (0, temporal)
  return temporal

/-- One iteration of the shift of the frame stack. -/
def shiftStep (frames : List (List F)) (f : Nat) : Except Fault (List (List F)) := do
  let v ← read frames (f - 1)
  write frames f v

/-- Push the new scan into the frame stack and update the sector differences.  The frames
move in place, from the oldest one down. -/
def updateLidarBuffers (b : LidarBuffers F) (scan : List F) : Except Fault (LidarBuffers F) :=
  if !b.buffersReady then do
    let frames ← (List.range nFrames).foldlM (fun fr f => write fr f scan) b.frames
    return { frames, prevScan := scan, temporal := List.replicate nSectors (lit 0),
             buffersReady := true }
  else do
    let frames ← (List.range' 1 (nFrames - 1)).reverse.foldlM shiftStep b.frames
    let frames ← write frames 0 scan
    let temporal ← updateSectors scan b.prevScan b.temporal
    return { b with frames, temporal, prevScan := scan }

end

end RLNav
