import Rewire.Code.Encode
import Rewire.Code.Format

/-!
# Where control goes

A jump means the same before and after it is laid out in bytes. This file fixes

* what jumps and switches look at (`Operands`) and when the condition of a jump holds of it
  (`Operands.holds`);
* where control goes after an instruction with labels (`Insn.select?`);
* where it goes after the jump or switch at an offset of code in bytes (`controlAfter`), and, for
  jumps that are written as several, where it goes when it leaves the room they take
  (`controlLeaving`).
-/

namespace Rewire

/-! ## 1. Conditions -/

/-- What jumps and switches find on the operand stack: the numbers and the references on top of it
    and below that. A reference is an address, or nothing if it is null. -/
structure Operands where
  top : Int32
  below : Int32
  topRef : Option Nat
  belowRef : Option Nat
  deriving Repr, Inhabited

/-- Whether the condition of a jump holds: comparisons of a number with zero, of two numbers, of two
    references, and of a reference with null. -/
def Operands.holds (x : Operands) : UInt8 → Bool
  | 0x99 => x.top = 0
  | 0x9a => x.top ≠ 0
  | 0x9b => x.top < 0
  | 0x9c => 0 ≤ x.top
  | 0x9d => 0 < x.top
  | 0x9e => x.top ≤ 0
  | 0x9f => x.below = x.top
  | 0xa0 => x.below ≠ x.top
  | 0xa1 => x.below < x.top
  | 0xa2 => x.top ≤ x.below
  | 0xa3 => x.top < x.below
  | 0xa4 => x.below ≤ x.top
  | 0xa5 => x.belowRef = x.topRef
  | 0xa6 => x.belowRef ≠ x.topRef
  | 0xc6 => x.topRef = none
  | 0xc7 => x.topRef ≠ none
  | _ => false

/-- Whether a jump is taken: always, or if its condition holds. -/
def Operands.takes (x : Operands) (op : UInt8) : Bool :=
  op = Opcode.goto || op = Opcode.jsr || Opcode.IsWideJump op || x.holds op

/-- The place of the number on top in a table from `low` to `high`. -/
def Operands.entry? (x : Operands) (low high : Int32) : Option Nat :=
  if low ≤ x.top ∧ x.top ≤ high then some (x.top.toInt - low.toInt).toNat else none

/-! ## 2. Instructions with labels -/

/-- The label control goes to; nothing if it goes on to the next instruction. -/
def Insn.select? (x : Operands) : Insn → Option Label
  | .jump op l => if x.takes op then some l else none
  | .tableSwitch low high default targets =>
    ((x.entry? low high).bind fun n => targets[n]?).getD default
  | .lookupSwitch default pairs =>
    ((pairs.find? fun pair => pair.1 = x.top).map Prod.snd).getD default
  | _ => none

/-! ## 3. Instructions in bytes -/

/-- Where the displacement is stored that the `tableswitch` at an offset follows. -/
def tableEntryAt (code : Array UInt8) (x : Operands) (offset : Nat) : Outcome Nat := do
  let low ← i32At code (switchBase offset + 4)
  let high ← i32At code (switchBase offset + 8)
  match x.entry? low high with
  | some n => return switchBase offset + 12 + 4 * n
  | none => return switchBase offset

/-- Where the displacement is stored that the `lookupswitch` at an offset follows. -/
def pairEntryAt (code : Array UInt8) (x : Operands) (offset : Nat) : Outcome Nat := do
  let count ← pairCountAt code offset
  let found := (pairPositions offset count).find? fun p =>
    (i32At code (p - 4)).toOption = some x.top
  return found.getD (switchBase offset)

/-- Where control goes after the jump or switch at an offset. -/
def controlAfter (code : Array UInt8) (x : Operands) (offset : Nat) : Outcome Int := do
  let op ← u8At code offset
  match ← formatAt code offset with
  | .jump =>
    if x.takes op then return offset + (← i16At code (offset + 1)).toInt else return offset + 3
  | .wideJump _ => follow (offset + 1)
  | .tableSwitch => follow (← tableEntryAt code x offset)
  | .lookupSwitch => follow (← pairEntryAt code x offset)
  | _ => fail (.unsupportedOpcode op)
where
  /-- The offset at the displacement that is stored at a position. -/
  follow (position : Nat) : Outcome Int :=
    return offset + (← i32At code position).toInt

/-- Where control goes when it leaves the room up to `stop`, from an offset in it, as long as it
    moves forward inside. -/
def controlLeaving (code : Array UInt8) (x : Operands) (stop offset : Nat) : Outcome Int := do
  let next ← controlAfter code x offset
  if offset < next ∧ next < stop then controlLeaving code x stop next.toNat else return next
termination_by stop - offset

end Rewire
