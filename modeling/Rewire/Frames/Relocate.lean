import Rewire.Bytes.Fit
import Rewire.Frames.Basic

/-!
# Stack map frames for a new code layout

When code moves, its stack map table is written again for the new offsets. Frames whose position
is gone are left out, and their changes of the locals are carried into the next frame that stays
(`Carried`). This file fixes

* what is carried over from frames left out (`Carried`, `Carried.followedBy`);
* the bytes of one frame at its new place (`frameBytes`), always in the shortest shape that can
  express it;
* the whole table (`relocateFrames`), given by a partial map from old to new offsets.
-/

namespace Rewire

/-! ## 1. Changes carried over removed frames -/

/-- The combined change of locals since the last frame that was kept. -/
inductive Carried where
  /-- First removes some of the last locals, then adds some. -/
  | relative (chopped : Nat) (appended : List VerificationType)
  | absolute (types : List VerificationType)
  deriving DecidableEq, Repr

namespace Carried

/-- No change. -/
def nothing : Carried := relative 0 []

/-- The change followed by another one. -/
def followedBy : Carried → LocalsChange → Carried
  | c, .same => c
  | _, .full types => absolute types
  | relative chopped appended, .append types => relative chopped (appended ++ types)
  | absolute locals, .append types => absolute (locals ++ types)
  | relative chopped appended, .chop count =>
    relative (chopped + (count - appended.length)) (appended.take (appended.length - count))
  | absolute locals, .chop count => absolute (locals.take (locals.length - count))

/-- The locals after the change. -/
def apply : Carried → List VerificationType → List VerificationType
  | relative chopped appended, locals => locals.take (locals.length - chopped) ++ appended
  | absolute types, _ => types

@[simp] theorem apply_nothing (locals : List VerificationType) : nothing.apply locals = locals := by
  simp [nothing, apply]

end Carried

/-! ## 2. Writing -/

/-- The bytes of a type. -/
def VerificationType.bytes : VerificationType → Bytes
  | top => [0]
  | int => [1]
  | float => [2]
  | double => [3]
  | long => [4]
  | null => [5]
  | uninitializedThis => [6]
  | object index => 7 :: be16 index
  | uninitialized site => 8 :: be16 (UInt16.ofNat site)

/-- A type whose allocation has moved. -/
def VerificationType.relocate (newOffset : Nat → Option Nat) :
    VerificationType → Outcome VerificationType
  | uninitialized site =>
    match newOffset site with
    | some s => .ok (uninitialized s)
    | none => fail (.allocationSiteRemoved site)
  | t => .ok t

/-- Types whose allocations have moved. -/
def relocateTypes (newOffset : Nat → Option Nat) (types : List VerificationType) :
    Outcome (List VerificationType) :=
  types.mapM (VerificationType.relocate newOffset)

/-- Short distances are part of the first byte of a frame. -/
def shortDelta : UInt16 := 63

/-- Frames that append or chop can do so by this many locals. -/
def shortChange : Nat := 3

/-- The bytes of a frame at a distance from the one before, with the locals changed as carried. The
    stack has its new allocation sites, the carried types still have the old ones. -/
def frameBytes (newOffset : Nat → Option Nat) (delta : UInt16) (stack : List VerificationType) :
    Carried → Outcome Bytes
  | .relative 0 [] =>
    match stack with
    | [] =>
      .ok (if delta ≤ shortDelta then [delta.toUInt8] else 251 :: be16 delta)
    | [item] =>
      .ok (if delta ≤ shortDelta then (64 + delta.toUInt8) :: item.bytes
        else 247 :: be16 delta ++ item.bytes)
    | _ => fail (.noCompactFrame stack.length)
  | .relative 0 appended =>
    if appended.length ≤ shortChange ∧ stack = [] then do
      let types ← relocateTypes newOffset appended
      return UInt8.ofNat (251 + appended.length) :: be16 delta ++
        types.flatMap VerificationType.bytes
    else fail (.inexpressibleLocals 0 appended.length)
  | .relative chopped appended =>
    if appended = [] ∧ chopped ≤ shortChange ∧ stack = [] then
      .ok (UInt8.ofNat (251 - chopped) :: be16 delta)
    else fail (.inexpressibleLocals chopped appended.length)
  | .absolute types => do
    let localCount ← fitUnsigned16 .writingFrameLocals types.length
    let types ← relocateTypes newOffset types
    let stackCount ← fitUnsigned16 .writingFrameStack stack.length
    return 255 :: be16 delta ++ be16 localCount ++ types.flatMap VerificationType.bytes ++
      be16 stackCount ++ stack.flatMap VerificationType.bytes

/-! ## 3. Tables -/

/-- A table under construction. -/
structure FrameTable where
  /-- The frames written so far, last first. -/
  written : List Bytes := []
  /-- The new offset of the last frame written. -/
  previous : Option Nat := none
  /-- The changes of the frames left out since. -/
  carried : Carried := .nothing

namespace FrameTable

/-- The distance to write for a frame that lands at `target`. -/
def delta (t : FrameTable) (old target : Nat) : Outcome Nat :=
  match t.previous with
  | none => .ok target
  | some p =>
    if p < target then .ok (target - p - 1) else fail (.framesCollide old target p)

/-- Adds a frame, or carries its change on if its position is gone. -/
def add (newOffset : Nat → Option Nat) (t : FrameTable) (f : Frame) : Outcome FrameTable := do
  let carried := t.carried.followedBy f.locals
  match newOffset f.offset with
  | none => return { t with carried }
  | some target =>
    let delta ← fitUnsigned16 .writingFrameDelta (← t.delta f.offset target)
    let stack ← relocateTypes newOffset f.stack
    let bytes ← frameBytes newOffset delta stack carried
    return { written := bytes :: t.written, previous := some target, carried := .nothing }

/-- The body of the finished table. -/
def bytes (t : FrameTable) : Bytes :=
  be16 (UInt16.ofNat t.written.length) ++ t.written.reverse.flatten

end FrameTable

/-- The body of a stack map table for a new layout. `newOffset` is where an old offset is now, if
    it still exists. -/
def relocateFrames (newOffset : Nat → Option Nat) (body : Bytes) : Outcome Bytes := do
  let frames ← readFrames body
  return (← frames.foldlM (FrameTable.add newOffset) {}).bytes

end Rewire
