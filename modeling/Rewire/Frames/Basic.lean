import Rewire.Bytes.Cursor

/-!
# Stack map frames

A stack map table lists, for chosen code offsets, the types of the local variables and of the
operand stack there. Each frame gives its offset as a distance from the frame before and its
locals as a change of the locals there. This file fixes

* the types (`VerificationType`), changes of locals (`LocalsChange`) and frames with their
  absolute offsets (`Frame`);
* what a change does to a list of locals (`LocalsChange.apply`);
* reading a table (`Reader.frames`, `readFrames`) and the code offsets that its frames mention
  (`Frame.offsets`).
-/

namespace Rewire

/-! ## 1. Frames -/

/-- The type of a local variable or stack item. -/
inductive VerificationType where
  | top
  | int
  | float
  | double
  | long
  | null
  | uninitializedThis
  /-- An object of the class in a slot of the constant pool. -/
  | object (index : UInt16)
  /-- What the `new` at a code offset created. -/
  | uninitialized (site : Nat)
  deriving DecidableEq, Repr, Inhabited

/-- How the locals differ from those of the frame before. -/
inductive LocalsChange where
  | same
  | chop (count : Nat)
  | append (types : List VerificationType)
  | full (types : List VerificationType)
  deriving DecidableEq, Repr, Inhabited

namespace LocalsChange

/-- The locals after a change. Chopping more than there is leaves none. -/
def apply : LocalsChange → List VerificationType → List VerificationType
  | same, locals => locals
  | chop count, locals => locals.take (locals.length - count)
  | append types, locals => locals ++ types
  | full types, _ => types

/-- The types a change mentions. -/
def types : LocalsChange → List VerificationType
  | same | chop _ => []
  | append types | full types => types

end LocalsChange

/-- A frame at a code offset. -/
structure Frame where
  offset : Nat
  locals : LocalsChange
  stack : List VerificationType
  deriving DecidableEq, Repr, Inhabited

/-- The allocation a type refers to. -/
def VerificationType.site? : VerificationType → Option Nat
  | uninitialized site => some site
  | _ => none

/-- The code offsets a frame mentions: its own, then the allocations of its types. -/
def Frame.offsets (f : Frame) : List Nat :=
  f.offset :: (f.locals.types ++ f.stack).filterMap VerificationType.site?

/-! ## 2. Reading -/

namespace Reader

/-- Reads a type. -/
def verificationType : Reader VerificationType := do
  match ← u8 with
  | 0 => return .top
  | 1 => return .int
  | 2 => return .float
  | 3 => return .double
  | 4 => return .long
  | 5 => return .null
  | 6 => return .uninitializedThis
  | 7 => return .object (← u16)
  | 8 => return .uninitialized (← u16).toNat
  | tag => fail (.unknownTypeTag tag)

/-- A frame before its offset is known: the distance, the locals and the stack. -/
structure FrameDelta where
  delta : Nat
  locals : LocalsChange
  stack : List VerificationType

/-- Reads a frame. The first byte gives the shape and, in the shortest shapes, the distance. -/
def frameDelta : Reader FrameDelta := do
  let tag ← u8
  if tag ≤ 63 then return ⟨tag.toNat, .same, []⟩
  else if tag ≤ 127 then return ⟨tag.toNat - 64, .same, [← verificationType]⟩
  else if tag ≤ 246 then fail (.reservedFrameKind tag)
  else
    let delta := (← u16).toNat
    if tag = 247 then return ⟨delta, .same, [← verificationType]⟩
    else if tag ≤ 250 then return ⟨delta, .chop (251 - tag.toNat), []⟩
    else if tag = 251 then return ⟨delta, .same, []⟩
    else if tag ≤ 254 then
      return ⟨delta, .append (← times (tag.toNat - 251) verificationType), []⟩
    else
      let locals ← times (← u16).toNat verificationType
      let stack ← times (← u16).toNat verificationType
      return ⟨delta, .full locals, stack⟩

/-- The offset of a frame: the distance from the start for the first one, one more than the
    distance from the frame before for the others. -/
def frameOffset (previous : Option Nat) (delta : Nat) : Nat :=
  match previous with
  | none => delta
  | some p => p + delta + 1

/-- The offset of the last frame, given in reverse order. -/
def lastOffset? (done : List Frame) : Option Nat :=
  done.head?.map Frame.offset

/-- Reads a stack map table. -/
def frames : Reader (List Frame) := do
  let count ← u16
  let done ← (List.range count.toNat).foldlM
    (fun done _ => do
      let f ← frameDelta
      return ⟨frameOffset (lastOffset? done) f.delta, f.locals, f.stack⟩ :: done)
    []
  return done.reverse

end Reader

/-- The frames of the body of a stack map table. -/
def readFrames (body : Bytes) : Outcome (List Frame) :=
  Reader.frames.onBytes body

end Rewire
