import RLNav.Model.Controller
import RLNav.Lib.Blocks

/-!
# The lidar memory

The abstract model of the lidar part.  A *scan* is a function on the 90 rays and
a `Memory` holds six frames, the previous scan and one smoothed difference per
sector, so every length is right by construction.  A controller that has seen no
scan has no memory.  `next` pushes a scan, and `remember` and
`trace` push a history.

`Memory` is what the vectors of the controller mean: `buffers` writes a memory
out as the members of the class, and the faithful `updateLidarBuffers` never
faults on such members and computes `next` (`updateLidarBuffers_eq`).  The
observation of a controller with a memory has exactly 554 entries
(`assembleObs_eq`).
-/

namespace RLNav

open Checked (Fault read write Cursor ok_bind foldlM_eq_foldl read_ofFn)
open CFloat (lit)

/-! ## Scans, sectors and memories -/

/-- A resampled scan. -/
abbrev Scan (F : Type) := Fin nRays → F

/-- The rays of sector `s`: the balanced partition of the rays. -/
abbrev sector (s : Fin nSectors) : List (Fin nRays) := Blocks.block nRays nSectors s

structure Memory (F : Type) where
  frames : Fin nFrames → Scan F
  prevScan : Scan F
  temporal : Fin nSectors → F

/-- The frame before frame `f`. -/
def newer (f : Fin nFrames) : Fin nFrames := ⟨f.val - 1, (Nat.sub_le ..).trans_lt f.isLt⟩

namespace Memory

variable {F : Type} [CFloat F]

/-- The smallest difference of two scans over a sector. -/
def sectorDiff (x p : Scan F) (s : Fin nSectors) : F :=
  (sector s).foldl (fun mn k => CFloat.min mn (x k - p k)) CFloat.infinity

/-- The first scan fills the stack. -/
def seed (x : Scan F) : Memory F where
  frames _ := x
  prevScan := x
  temporal _ := lit 0

/-- Any other scan shifts the stack. -/
def push (m : Memory F) (x : Scan F) : Memory F where
  frames f := if f.val = 0 then x else m.frames (newer f)
  prevScan := x
  temporal s := smooth (m.temporal s) (sectorDiff x m.prevScan s)

def next : Option (Memory F) → Scan F → Memory F
  | none, x => seed x
  | some m, x => push m x

/-- The memory after a history of scans that starts with memory `m`. -/
def remember (m : Option (Memory F)) (xs : List (Scan F)) : Option (Memory F) :=
  xs.foldl (fun m x => some (next m x)) m

/-- The memories after each scan of the history. -/
def trace : Option (Memory F) → List (Scan F) → List (Memory F)
  | _, [] => []
  | m, x :: xs => next m x :: trace (some (next m x)) xs

/-- The members of the class that hold a memory. -/
def buffers : Option (Memory F) → LidarBuffers F
  | none => LidarBuffers.init
  | some m =>
      { frames := List.ofFn fun f => List.ofFn (m.frames f)
        prevScan := List.ofFn m.prevScan
        temporal := List.ofFn m.temporal
        buffersReady := true }

/-- The 548 lidar entries of the observation. -/
def features (m : Memory F) : List F :=
  (List.ofFn fun f => List.ofFn (m.frames f)).flatten ++
    List.ofFn fun s => CFloat.clamp (m.temporal s / temporalOut) (lit (-1.0)) (lit 1.0)

end Memory

/-! ## The frame stack -/

/-- Shifting in place from the oldest frame down makes room for the newest. -/
theorem shiftFrames_eq {F : Type} (fr : Fin nFrames → List F) :
    (List.range' 1 (nFrames - 1)).reverse.foldlM shiftStep (List.ofFn fr) =
      .ok (List.ofFn fun f => fr (newer f)) := rfl

theorem newestFrame_eq {F : Type} (fr : Fin nFrames → List F) (x : List F) :
    write (List.ofFn fr) 0 x = .ok (List.ofFn fun f => if f.val = 0 then x else fr f) := rfl

section
variable {F : Type} [CFloat F]

/-! ## The sector loop -/

theorem sectorMin_eq (x p : Scan F) (s : Fin nSectors) :
    sectorMin (List.ofFn x) (List.ofFn p) (Blocks.start nRays nSectors s)
      (Blocks.len nRays nSectors s) = .ok (Memory.sectorDiff x p s) := by
  unfold sectorMin
  rw [← Blocks.block_val, List.foldlM_map]
  refine foldlM_eq_foldl _ fun k _ mn => ?_
  rw [read_ofFn, ok_bind, read_ofFn, ok_bind]
  rfl

/-- Updating one more entry of a vector that is updated from the front. -/
theorem set_ofFn {α : Type} {n i : Nat} (f g : Fin n → α) (hi : i < n) :
    (List.ofFn fun j => if j.val < i then g j else f j).set i (g ⟨i, hi⟩) =
      List.ofFn fun j => if j.val < i + 1 then g j else f j := by
  refine List.ext_getElem (by simp) fun j h₁ h₂ => ?_
  rw [List.getElem_set]
  split
  next heq =>
    subst heq
    simp
  next hne =>
    have hlt : (j < i) = (j < i + 1) := by
      rw [eq_iff_iff]
      omega
    simp [hlt]

/-- One sector: the running start moves to the next block. -/
theorem sectorStep_eq (x p : Scan F) (t : Fin nSectors → F) {n : Nat} (hn : n < nSectors) :
    sectorStep (List.ofFn x) (List.ofFn p)
        (Blocks.start nRays nSectors n, List.ofFn fun s => if s.val < n then
          smooth (t s) (Memory.sectorDiff x p s) else t s) n =
      .ok (Blocks.start nRays nSectors (n + 1), List.ofFn fun s => if s.val < n + 1 then
        smooth (t s) (Memory.sectorDiff x p s) else t s) := by
  have hmin := sectorMin_eq x p ⟨n, hn⟩
  unfold Blocks.len at hmin
  unfold sectorStep
  simp only [hmin, ok_bind, read_ofFn _ (⟨n, hn⟩ : Fin nSectors), lt_irrefl, if_false]
  rw [Checked.write_of_lt (by simpa using hn), ok_bind,
    set_ofFn t (fun s => smooth (t s) (Memory.sectorDiff x p s)) hn, Blocks.start_succ]
  rfl

/-- The invariant of the sector loop: the running start is the start of the next
block, and the sectors before it are updated. -/
theorem sectorLoop_eq (x p : Scan F) (t : Fin nSectors → F) :
    ∀ {n : Nat}, n ≤ nSectors →
      (List.range n).foldlM (sectorStep (List.ofFn x) (List.ofFn p)) (0, List.ofFn t) =
        .ok (Blocks.start nRays nSectors n, List.ofFn fun s => if s.val < n then
          smooth (t s) (Memory.sectorDiff x p s) else t s)
  | 0, _ => by simp [pure, Except.pure]
  | n + 1, h => by
      rw [List.range_succ, List.foldlM_append, sectorLoop_eq x p t (by omega), ok_bind,
        List.foldlM_cons, sectorStep_eq x p t h, ok_bind]
      rfl

theorem updateSectors_eq (x p : Scan F) (t : Fin nSectors → F) :
    updateSectors (List.ofFn x) (List.ofFn p) (List.ofFn t) =
      .ok (List.ofFn fun s => smooth (t s) (Memory.sectorDiff x p s)) := by
  have h := sectorLoop_eq x p t (le_refl nSectors)
  simp only [Fin.is_lt, if_true] at h
  rw [updateSectors, h, ok_bind]
  rfl

/-- The faithful update computes `next`, and never faults on the members that
hold a memory. -/
theorem updateLidarBuffers_eq (m : Option (Memory F)) (x : Scan F) :
    updateLidarBuffers (Memory.buffers m) (List.ofFn x) =
      .ok (Memory.buffers (some (Memory.next m x))) := by
  cases m with
  | none => rfl
  | some m =>
      simp only [updateLidarBuffers, Memory.buffers, Bool.not_true, Bool.false_eq_true, if_false]
      rw [shiftFrames_eq, ok_bind, newestFrame_eq, ok_bind, updateSectors_eq, ok_bind]
      simp only [Memory.next, Memory.push, apply_ite List.ofFn]
      rfl

/-! ## The observation -/

omit [CFloat F] in
/-- The loop over the frames writes them out one after the other. -/
theorem frameLoop_eq (m : Memory F) (c : Cursor F) :
    (List.range nFrames).foldlM
      (fun c f => (List.range nRays).foldlM
        (fun c k => (read (List.ofFn fun f => List.ofFn (m.frames f)) f >>= fun frame =>
          read frame k) >>= fun v => c.put v) c) c =
      (List.ofFn fun f => List.ofFn (m.frames f)).flatten.foldlM Cursor.put c := by
  refine Checked.rangeFold_flatten c fun f c => Checked.rangeFold_ofFn c fun k c => ?_
  rw [read_ofFn, ok_bind, read_ofFn, ok_bind]

/-- The loop over the sectors writes their clamped differences. -/
theorem sectorOutLoop_eq (m : Memory F) (c : Cursor F) :
    (List.range nSectors).foldlM
      (fun c s => (read (List.ofFn m.temporal) s >>= fun t =>
        .ok (CFloat.clamp (t / temporalOut) (lit (-1.0)) (lit 1.0))) >>= fun v => c.put v) c =
      (List.ofFn fun s => CFloat.clamp (m.temporal s / temporalOut) (lit (-1.0))
        (lit 1.0)).foldlM Cursor.put c := by
  refine Checked.rangeFold_ofFn c fun s c => ?_
  rw [read_ofFn, ok_bind, ok_bind]

theorem features_length (m : Memory F) : m.features.length = 548 := by
  have hframes : (List.ofFn fun f => List.ofFn (m.frames f)).flatten.length = nFrames * nRays := by
    simp [List.length_flatten, List.map_ofFn, Function.comp_def, List.ofFn_const]
  rw [Memory.features, List.length_append, hframes, List.length_ofFn]
  rfl

/-- The observation is the lidar features, the goal, the velocity and the
previous action, and the running index ends at 554. -/
theorem assembleObs_eq (m : Memory F) (goal_dist goal_angle lin_n ang_n : F)
    (lastAction : F × F) :
    assembleObs (Memory.buffers (some m)) goal_dist goal_angle lin_n ang_n lastAction =
      .ok ⟨m.features ++ [goal_dist, goal_angle, lin_n, ang_n, lastAction.1, lastAction.2],
        obsDim⟩ := by
  have hlen : (m.features ++
      [goal_dist, goal_angle, lin_n, ang_n, lastAction.1, lastAction.2]).length = obsDim := by
    rw [List.length_append, features_length]
    rfl
  have hfill := Cursor.fill_eq_ok ((List.length_replicate (a := (lit 0 : F))).trans hlen.symm)
  rw [hlen, List.foldlM_append, Memory.features, List.foldlM_append] at hfill
  simp only [List.foldlM_cons, List.foldlM_nil, bind_pure, bind_assoc] at hfill
  simp only [assembleObs, Memory.buffers, frameLoop_eq, sectorOutLoop_eq]
  exact hfill

end

end RLNav
