import Rewire.Bytes.Cursor
import Rewire.Bytes.Fit
import Rewire.Code.Opcode

/-!
# How far instructions reach

Code is looked at twice before it is decoded: to find where its instructions end, and where they jump
to. This file fixes

* the length of the instruction at an offset (`insnLength`), which for switches depends on the
  operands and on how far the offset is from a multiple of four. A switch has to have a number of
  entries that is a 32-bit number and not negative;
* the offsets an instruction may jump to (`branchTargets`). Of a switch as many are read as its
  operands say; whether that number is one is not asked again.

Each has its own table of opcodes. That they agree, with each other and with decoding, is a theorem
about them.
-/

namespace Rewire

/-! ## 1. Switches -/

/-- Where the aligned operands of a switch start. -/
def switchBase (offset : Nat) : Nat :=
  offset + 1 + padding offset

/-- The length of a `tableswitch` with the given number of targets. -/
def tableSwitchLength (offset count : Nat) : Nat :=
  1 + padding offset + 12 + 4 * count

/-- The length of a `lookupswitch` with the given number of pairs. -/
def lookupSwitchLength (offset count : Nat) : Nat :=
  1 + padding offset + 8 + 8 * count

/-- The number of values from `low` to `high`, if it is a signed 32-bit number. -/
def tableCount? (low high : Int32) : Option Int32 := do
  addInt32? (← subInt32? high low) 1

/-! ## 2. Lengths -/

/-- Ranges of opcodes, which include both ends, and the length of the instructions of each. -/
def fixedLengths : List (UInt8 × UInt8 × Nat) := [
  (0x00, 0x0f, 1), (0x10, 0x10, 2), (0x11, 0x11, 3), (Opcode.ldc, Opcode.ldc, 2),
  (Opcode.ldcWide, Opcode.ldc2, 3), (0x15, 0x19, 2), (0x1a, 0x35, 1), (0x36, 0x3a, 2),
  (0x3b, 0x4e, 1), (0x4f, 0x56, 1), (0x57, 0x5f, 1), (0x60, 0x83, 1), (0x84, 0x84, 3),
  (0x85, 0x98, 1), (0x99, 0xa6, 3), (Opcode.goto, Opcode.jsr, 3), (0xa9, 0xa9, 2),
  (0xac, 0xb1, 1), (0xb2, 0xb5, 3), (Opcode.invokeVirtual, Opcode.invokeStatic, 3),
  (Opcode.invokeInterface, Opcode.invokeDynamic, 5), (0xbb, 0xbb, 3), (0xbc, 0xbc, 2),
  (0xbd, 0xbd, 3), (0xbe, 0xbf, 1), (0xc0, 0xc1, 3), (0xc2, 0xc3, 1), (0xc5, 0xc5, 4),
  (0xc6, 0xc7, 3), (Opcode.gotoWide, Opcode.jsrWide, 5)]

/-- The length of the instructions with an opcode, if it is the same for all of them. -/
def fixedLength? (op : UInt8) : Option Nat :=
  (fixedLengths.find? fun (first, last, _) => first ≤ op && op ≤ last).map fun (_, _, n) => n

/-- The length of the `tableswitch` at an offset. -/
def tableSwitchLengthAt (code : Array UInt8) (offset : Nat) : Outcome Nat := do
  let low ← i32At code (switchBase offset + 4)
  let high ← i32At code (switchBase offset + 8)
  let count ← orFail .invalidTableRange (tableCount? low high)
  if count < 0 then fail .invalidTableRange
  else return tableSwitchLength offset count.toInt.toNat

/-- The length of the `lookupswitch` at an offset. -/
def lookupSwitchLengthAt (code : Array UInt8) (offset : Nat) : Outcome Nat := do
  let count ← i32At code (switchBase offset + 4)
  if count < 0 then fail .invalidPairCount
  else return lookupSwitchLength offset count.toInt.toNat

/-- The length of the instruction with the prefix for large slots at an offset. -/
def wideLengthAt (code : Array UInt8) (offset : Nat) : Outcome Nat := do
  let op ← orFail .missingWideOpcode code[offset + 1]?
  return if op = Opcode.iinc then 6 else 4

/-- The length of the instruction at an offset. -/
def insnLength (code : Array UInt8) (offset : Nat) : Outcome Nat := do
  let op ← u8At code offset
  if op = 0xaa then tableSwitchLengthAt code offset
  else if op = 0xab then lookupSwitchLengthAt code offset
  else if op = 0xc4 then wideLengthAt code offset
  else orFail (.unsupportedOpcode op) (fixedLength? op)

/-! ## 3. Branch targets -/

/-- An offset as a 32-bit word. -/
def asOffset (n : Int) : Nat :=
  (n % 0x100000000).toNat

theorem asOffset_of_lt {n : Nat} (h : n < 0x100000000) : asOffset n = n := by
  unfold asOffset
  omega

/-- The offset at a displacement from an instruction, which has to lie in the code. -/
def branchTarget (code : Array UInt8) (offset : Nat) (delta : Int) : Outcome Nat :=
  let target := offset + delta
  if 0 ≤ target ∧ target < code.size then .ok (asOffset target)
  else fail (.branchOutOfRange target offset)

/-- The offset whose displacement is stored as a 32-bit number at a position. -/
def branchTargetAt (code : Array UInt8) (offset position : Nat) : Outcome Nat := do
  branchTarget code offset (← i32At code position).toInt

/-- Behind the offsets in `done`, a number of offsets whose displacements are stored at a position and
    then every `step` bytes. -/
def targetsFrom (code : Array UInt8) (offset step : Nat) (done : List Nat) (position : Nat) :
    Nat → Outcome (List Nat)
  | 0 => return done.reverse
  | n + 1 => do
    let target ← branchTargetAt code offset position
    targetsFrom code offset step (target :: done) (position + step) n

/-- The offsets that the `tableswitch` at an offset may jump to: the default, then one for each value
    from the lowest to the highest. -/
def tableTargets (code : Array UInt8) (offset : Nat) : Outcome (List Nat) := do
  let low ← i32At code (switchBase offset + 4)
  let high ← i32At code (switchBase offset + 8)
  let default ← branchTargetAt code offset (switchBase offset)
  targetsFrom code offset 4 [default] (switchBase offset + 12) (high.toInt - low.toInt + 1).toNat

/-- The offsets that the `lookupswitch` at an offset may jump to: the default, then one for each
    pair. -/
def pairTargets (code : Array UInt8) (offset : Nat) : Outcome (List Nat) := do
  let count ← i32At code (switchBase offset + 4)
  let default ← branchTargetAt code offset (switchBase offset)
  targetsFrom code offset 8 [default] (switchBase offset + 8 + 4) count.toInt.toNat

/-- The offsets that the instruction at an offset may jump to; the default of a switch first. -/
def branchTargets (code : Array UInt8) (offset : Nat) : Outcome (List Nat) := do
  let op ← u8At code offset
  if Opcode.ifeq ≤ op ∧ op ≤ Opcode.jsr ∨ op = Opcode.ifNull ∨ op = Opcode.ifNonNull then
    return [← branchTarget code offset (← i16At code (offset + 1)).toInt]
  else if op = Opcode.gotoWide ∨ op = Opcode.jsrWide then
    return [← branchTargetAt code offset (offset + 1)]
  else if op = Opcode.tableSwitch then tableTargets code offset
  else if op = Opcode.lookupSwitch then pairTargets code offset
  else return []

end Rewire
