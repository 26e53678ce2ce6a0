import Rewire.Fault

/-!
# Reading bytes

Two ways of reading big-endian numbers out of a byte string:

* at a given position (`u8At`, `u16At`, `u32At`, …), which fails when the word does not lie wholly
  inside the string;
* from a cursor that moves past what it has read (`Reader`), which fails in the same cases and
  then leaves the cursor where it was.

`Cursor.rest` is the view on a cursor: the bytes still ahead. Each reading step takes its bytes
off the front of that view and moves nothing else.
-/

namespace Rewire

/-! ## 1. Words at a position -/

/-- The byte at a position. -/
def u8At (data : Array UInt8) (i : Nat) : Outcome UInt8 :=
  orFail (.wordOutOfBounds 8) data[i]?

/-- The unsigned 16-bit word at a position. -/
def u16At (data : Array UInt8) (i : Nat) : Outcome UInt16 :=
  match data[i]?, data[i + 1]? with
  | some a, some b => .ok (word16 a b)
  | _, _ => fail (.wordOutOfBounds 16)

/-- The unsigned 32-bit word at a position. -/
def u32At (data : Array UInt8) (i : Nat) : Outcome UInt32 :=
  match data[i]?, data[i + 1]?, data[i + 2]?, data[i + 3]? with
  | some a, some b, some c, some d => .ok (word32 a b c d)
  | _, _, _, _ => fail (.wordOutOfBounds 32)

/-- The signed 8-bit number at a position. -/
def i8At (data : Array UInt8) (i : Nat) : Outcome Int8 :=
  return (← u8At data i).toInt8

/-- The signed 16-bit number at a position. -/
def i16At (data : Array UInt8) (i : Nat) : Outcome Int16 :=
  return (← u16At data i).toInt16

/-- The signed 32-bit number at a position. -/
def i32At (data : Array UInt8) (i : Nat) : Outcome Int32 :=
  return (← u32At data i).toInt32

/-- Bytes to skip after the opcode at a position so that what follows is aligned to four bytes. -/
def padding (offset : Nat) : Nat :=
  (4 - (offset + 1) % 4) % 4

theorem padding_lt (offset : Nat) : padding offset < 4 := by
  unfold padding; omega

theorem padding_aligned (offset : Nat) : (offset + 1 + padding offset) % 4 = 0 := by
  unfold padding; omega

/-! ## 2. Cursors -/

/-- A position in a byte string. -/
structure Cursor where
  data : Array UInt8
  offset : Nat
  deriving Repr

namespace Cursor

/-- The cursor at the start of a byte string. -/
def ofBytes (bytes : Bytes) : Cursor :=
  ⟨bytes.toArray, 0⟩

/-- The bytes still ahead. -/
def rest (c : Cursor) : Bytes :=
  c.data.toList.drop c.offset

/-- Number of bytes still ahead. -/
def remaining (c : Cursor) : Nat :=
  c.data.size - c.offset

@[simp] theorem rest_ofBytes (bytes : Bytes) : (ofBytes bytes).rest = bytes := by
  simp [ofBytes, rest]

theorem length_rest (c : Cursor) : c.rest.length = c.remaining := by
  simp [rest, remaining]

end Cursor

/-- A step that reads from a cursor and moves it. -/
abbrev Reader := StateT Cursor Outcome

namespace Reader

/-- Positions are 64-bit numbers: the end of a byte string lies below this bound. -/
def positionLimit : Nat := 0x10000000000000000

/-- Reads one byte. -/
def u8 : Reader UInt8 := fun c =>
  match c.data[c.offset]? with
  | some b => .ok (b, { c with offset := c.offset + 1 })
  | none => fail .truncated

/-- Reads an unsigned 16-bit word. -/
def u16 : Reader UInt16 := fun c => do
  let v ← during .readingWord (u16At c.data c.offset)
  return (v, { c with offset := c.offset + 2 })

/-- Reads an unsigned 32-bit word. -/
def u32 : Reader UInt32 := fun c => do
  let v ← during .readingWord (u32At c.data c.offset)
  return (v, { c with offset := c.offset + 4 })

/-- Reads a byte string of the given length. -/
def bytes (length : Nat) : Reader Bytes := fun c =>
  let stop := c.offset + length
  if positionLimit ≤ stop then fail .lengthOverflow
  else if stop ≤ c.data.size then
    .ok ((c.data.extract c.offset stop).toList, { c with offset := stop })
  else fail .truncated

/-- Reads the same thing a number of times. -/
def times {α : Type} (count : Nat) (step : Reader α) : Reader (List α) :=
  (List.range count).mapM fun _ => step

/-- Runs a reader on a byte string from its start, forgetting the bytes it does not reach. -/
def onBytes {α : Type} (r : Reader α) (input : Bytes) : Outcome α :=
  return (← r (Cursor.ofBytes input)).1

end Reader

end Rewire
