import Rewire.Attribute
import Rewire.Frames.Basic
import Rewire.Pool.Basic

/-!
# The parts of a code attribute

The body of a `Code` attribute holds limits, the code itself, a table of exception regions and
nested attributes. This file takes such a body apart without looking into the code: offsets stay
numbers and names stay slots of the constant pool. It fixes

* the parts (`RawHandler`, `RawLocal`, `CodeParts`);
* how nested attributes are sorted by name (`CodeParts.take`): line numbers and local variables
  are taken apart and may be split over several attributes; everything else is kept as it is;
* reading a body (`CodeParts.read`).
-/

namespace Rewire

/-! ## 1. Parts -/

/-- An exception region by offsets; the catch type is a slot of the constant pool, or 0. -/
structure RawHandler where
  start : Nat
  stop : Nat
  handler : Nat
  catchType : UInt16
  deriving Repr

/-- A local variable record by offsets; name and descriptor are slots of the constant pool. -/
structure RawLocal where
  start : Nat
  stop : Nat
  name : UInt16
  descriptor : UInt16
  slot : UInt16
  deriving Repr

/-- A code attribute taken apart. -/
structure CodeParts where
  maxStack : UInt16
  maxLocals : UInt16
  code : Array UInt8
  handlers : List RawHandler
  /-- Line numbers with the offsets they start at, in the order of the tables. -/
  lines : List (Nat × UInt16) := []
  locals : List RawLocal := []
  localTypes : List RawLocal := []
  /-- The offsets that the frames of the last stack map table mention. -/
  frameOffsets : List Nat := []
  /-- The other attributes with their names, the stack map tables among them. -/
  others : List (String × Bytes) := []
  deriving Repr

/-! ## 2. Reading -/

namespace Reader

/-- Reads an exception region. -/
def rawHandler : Reader RawHandler := do
  let start ← u16
  let stop ← u16
  let handler ← u16
  let catchType ← u16
  return { start := start.toNat, stop := stop.toNat, handler := handler.toNat, catchType }

/-- Reads a line number with the offset it starts at. -/
def lineEntry : Reader (Nat × UInt16) := do
  let start ← u16
  let number ← u16
  return (start.toNat, number)

/-- Reads a local variable record, whose region is given by its start and its length. -/
def rawLocal : Reader RawLocal := do
  let start ← u16
  let length ← u16
  let name ← u16
  let descriptor ← u16
  let slot ← u16
  return { start := start.toNat, stop := start.toNat + length.toNat, name, descriptor, slot }

/-- Reads a 16-bit count and then so many entries. -/
def counted {α : Type} (entry : Reader α) : Reader (List α) := do
  let count ← u16
  times count.toNat entry

end Reader

/-- Sorts one nested attribute. -/
def CodeParts.take (parts : CodeParts) (name : String) (body : Bytes) : Outcome CodeParts := do
  if name = AttributeName.lineNumbers then
    return { parts with lines := parts.lines ++ (← (Reader.counted .lineEntry).onBytes body) }
  else if name = AttributeName.locals then
    return { parts with locals := parts.locals ++ (← (Reader.counted .rawLocal).onBytes body) }
  else if name = AttributeName.localTypes then
    return { parts with
      localTypes := parts.localTypes ++ (← (Reader.counted .rawLocal).onBytes body) }
  else if name = AttributeName.stackMap then
    let frames ← during .readingStackMap (readFrames body)
    return { parts with
      frameOffsets := frames.flatMap Frame.offsets
      others := parts.others ++ [(name, body)] }
  else return { parts with others := parts.others ++ [(name, body)] }

/-- Reads a nested attribute and sorts it. -/
def CodeParts.readAttribute (pool : ConstantPool) (parts : CodeParts) : Reader CodeParts := do
  let a ← Reader.rawAttribute
  let name ← during .resolvingAttributeName (pool.text a.name : Outcome String)
  parts.take name a.body

/-- Reads the body of a code attribute. What follows the last nested attribute is ignored. -/
def CodeParts.reader (pool : ConstantPool) : Reader CodeParts := do
  let maxStack ← Reader.u16
  let maxLocals ← Reader.u16
  let length ← Reader.u32
  let code ← Reader.bytes length.toNat
  let handlers ← Reader.counted .rawHandler
  let attributes ← Reader.u16
  (List.range attributes.toNat).foldlM (fun parts _ => parts.readAttribute pool)
    { maxStack, maxLocals, code := code.toArray, handlers }

/-- The parts of the body of a code attribute. -/
def CodeParts.read (pool : ConstantPool) (body : Bytes) : Outcome CodeParts :=
  (CodeParts.reader pool).onBytes body

end Rewire
