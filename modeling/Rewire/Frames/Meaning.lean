import Rewire.Frames.Basic

/-!
# What a stack map table says

The frames of a table are changes of changes. Taken together, from given first locals, they say at
each of their offsets which types the locals and the stack have there. This file fixes

* the types at an offset (`FrameState`);
* the meaning of a list of frames (`interpret`), which applies the changes of the locals in order;
* the meaning a table should have for code that moved: the states whose offset still exists
  (`survivors`), with their offset and their allocation sites moved (`FrameState.relocate?`);
* a frame for code of which nothing is gone (`Frame.mapOffsets`): the same change and stack, with
  every offset at its place.
-/

namespace Rewire

/-! ## 1. The meaning of frames -/

/-- The types of the locals and of the stack at a code offset. -/
structure FrameState where
  offset : Nat
  locals : List VerificationType
  stack : List VerificationType
  deriving DecidableEq, Repr, Inhabited

/-- The state at each frame, when the locals before the first one have the given types. -/
def interpret (locals : List VerificationType) : List Frame → List FrameState
  | [] => []
  | f :: rest =>
    let now := f.locals.apply locals
    ⟨f.offset, now, f.stack⟩ :: interpret now rest

@[simp] theorem length_interpret (locals : List VerificationType) (frames : List Frame) :
    (interpret locals frames).length = frames.length := by
  induction frames generalizing locals with
  | nil => rfl
  | cons f rest ih => simp [interpret, ih]

theorem map_offset_interpret (locals : List VerificationType) (frames : List Frame) :
    (interpret locals frames).map FrameState.offset = frames.map Frame.offset := by
  induction frames generalizing locals with
  | nil => rfl
  | cons f rest ih => simp [interpret, ih]

/-! ## 2. The meaning after code has moved -/

/-- A type whose allocation has moved, if the allocation is still there. -/
def VerificationType.relocate? (newOffset : Nat → Option Nat) :
    VerificationType → Option VerificationType
  | uninitialized site => (newOffset site).map uninitialized
  | t => some t

/-- The state at its new offset, if that and all its allocations are still there. -/
def FrameState.relocate? (newOffset : Nat → Option Nat) (s : FrameState) : Option FrameState :=
  return {
    offset := ← newOffset s.offset
    locals := ← s.locals.mapM (VerificationType.relocate? newOffset)
    stack := ← s.stack.mapM (VerificationType.relocate? newOffset) }

/-- The states whose offset still exists. -/
def survivors (newOffset : Nat → Option Nat) (states : List FrameState) : List FrameState :=
  states.filter fun s => (newOffset s.offset).isSome

/-! ## 3. Frames of code of which nothing is gone -/

/-- A type with its allocation at its place. -/
def VerificationType.mapSite (place : Nat → Nat) : VerificationType → VerificationType
  | uninitialized site => uninitialized (place site)
  | t => t

/-- The same change with other types. -/
def LocalsChange.mapTypes (f : VerificationType → VerificationType) : LocalsChange → LocalsChange
  | same => same
  | chop count => chop count
  | append types => append (types.map f)
  | full types => full (types.map f)

/-- A frame with its own offset and the allocations of its types at their places. -/
def Frame.mapOffsets (place : Nat → Nat) (f : Frame) : Frame where
  offset := place f.offset
  locals := f.locals.mapTypes (.mapSite place)
  stack := f.stack.map (.mapSite place)

@[simp] theorem VerificationType.mapSite_id : VerificationType.mapSite id = id := by
  funext t
  cases t <;> rfl

@[simp] theorem LocalsChange.mapTypes_id : LocalsChange.mapTypes id = id := by
  funext change
  cases change <;> simp [mapTypes]

@[simp] theorem Frame.mapOffsets_id : Frame.mapOffsets id = id := by
  funext f
  simp [mapOffsets]

theorem LocalsChange.types_mapTypes (f : VerificationType → VerificationType)
    (change : LocalsChange) : (change.mapTypes f).types = change.types.map f := by
  cases change <;> rfl

end Rewire
