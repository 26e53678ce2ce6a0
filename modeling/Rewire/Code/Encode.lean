import Rewire.Bytes.Fit
import Rewire.Code.Layout
import Rewire.Descriptor.Scanner

/-!
# Instructions in bytes

The bytes of an instruction at its offset. This file fixes

* the opcode with the slot in it of a load or store (`shortForm`) and the opposite of a condition
  (`oppositeCondition`);
* the bytes of each instruction (`Insn.encode`), as many as the layout reserves for it. The pairs
  of a `lookupswitch` are written in the order of their keys; pairs with equal keys keep their
  order;
* the bytes of a layout (`Layout.encode`).
-/

namespace Rewire

/-! ## 1. Opcodes -/

/-- The load or store of one of the first four slots. -/
def shortForm (op : UInt8) (slot : UInt8) : Outcome UInt8 :=
  if Opcode.IsLoad op then .ok (Opcode.iload0 + (op - Opcode.iload) * 4 + slot)
  else if Opcode.IsStore op then .ok (Opcode.istore0 + (op - Opcode.istore) * 4 + slot)
  else fail (.notLocalAccess op)

/-- The jump that is taken exactly when the given one is not. -/
def oppositeCondition (op : UInt8) : Outcome UInt8 :=
  if Opcode.IsComparison op then .ok (((op - Opcode.ifeq) ^^^ 1) + Opcode.ifeq)
  else if op = Opcode.ifNull then .ok Opcode.ifNonNull
  else if op = Opcode.ifNonNull then .ok Opcode.ifNull
  else fail (.notConditional op)

/-! ## 2. Instructions -/

/-- The two bytes of a signed 16-bit number. -/
def bytes16 (n : Int16) : Bytes := be16 n.toUInt16

/-- The four bytes of a signed 32-bit number. -/
def bytes32 (n : Int32) : Bytes := be32 n.toUInt32

/-- The bytes of `bipush`, `sipush` or `newarray`. -/
def encodeInt (op : UInt8) (value : Int32) : Outcome Bytes :=
  if op = Opcode.sipush then
    return op :: bytes16 (← fitSigned16 .writingShortPush value.toInt)
  else if op = Opcode.bipush then
    return [op, (← fitSigned8 .writingBytePush value.toInt).toUInt8]
  else return [op, ← fitUnsigned8 .writingArrayType value.toInt]

/-- The bytes of a load from the constant pool. -/
def encodeLdc (value : Loadable) (operand : UInt16) : Bytes :=
  if value.isWide then Opcode.ldc2 :: be16 operand
  else if operand ≤ 255 then [Opcode.ldc, operand.toUInt8]
  else Opcode.ldcWide :: be16 operand

/-- The bytes of a load, store or `ret`. -/
def encodeVar (op : UInt8) (slot : UInt16) : Outcome Bytes :=
  if 255 < slot then .ok (Opcode.wide :: op :: be16 slot)
  else if hasShortForm op slot then return [← shortForm op slot.toUInt8]
  else .ok [op, slot.toUInt8]

/-- The bytes of an increment. -/
def encodeIinc (slot : UInt16) (delta : Int16) : Bytes :=
  if iincIsShort slot delta then [Opcode.iinc, slot.toUInt8, delta.toInt8.toUInt8]
  else Opcode.wide :: Opcode.iinc :: be16 slot ++ bytes16 delta

/-- The bytes of a jump with a displacement. Around a wide `goto`, which is five bytes long and
    starts three bytes later, the opposite condition jumps eight bytes ahead. -/
def encodeJump (op : UInt8) (wide : Bool) (delta : Int) : Outcome Bytes := do
  if !wide then return op :: bytes16 (← fitSigned16 .writingJump delta)
  else if op = Opcode.goto ∨ op = Opcode.jsr then
    let opWide := if op = Opcode.goto then Opcode.gotoWide else Opcode.jsrWide
    return opWide :: bytes32 (← fitSigned32 .writingJump delta)
  else
    let opposite ← oppositeCondition op
    return opposite :: bytes16 8 ++ Opcode.gotoWide ::
      bytes32 (← fitSigned32 .writingJump (delta - 3))

/-- The zero bytes between the opcode of a switch and its operands. -/
def switchPadding (offset : Nat) : Bytes :=
  List.replicate (padding offset) 0

/-- The pairs of a switch in the order of their keys. -/
def sortedPairs (pairs : List (Int32 × Label)) : List (Int32 × Label) :=
  pairs.mergeSort fun a b => a.1.toInt ≤ b.1.toInt

/-- The bytes of an instruction at an offset. -/
def Insn.encode (offset : Nat) (operand : UInt16) (wide : Bool) (target : Label → Nat) :
    Insn → Outcome Bytes
  | .simple op => .ok [op]
  | .int op value => encodeInt op value
  | .ldc value => .ok (encodeLdc value operand)
  | .var op slot => encodeVar op slot
  | .iinc slot delta => .ok (encodeIinc slot delta)
  | .jump op l => encodeJump op wide (delta l)
  | .tableSwitch low high default targets =>
    if high.toInt - low.toInt + 1 ≠ targets.length then
      fail (.tableArity low high targets.length)
    else
      .ok (Opcode.tableSwitch :: switchPadding offset ++ displacement default ++ bytes32 low ++
        bytes32 high ++ targets.flatMap displacement)
  | .lookupSwitch default pairs =>
    .ok (Opcode.lookupSwitch :: switchPadding offset ++ displacement default ++
      bytes32 (Int32.ofNat pairs.length) ++
      (sortedPairs pairs).flatMap fun (key, l) => bytes32 key ++ displacement l)
  | .field op _ | .type op _ => .ok (op :: be16 operand)
  | .call site =>
    if site.kind = .interface then do
      let d ← Descriptor.parse site.descriptor
      let words ← addWord16 (← d.argumentWidth) 1
      let count ← fitUnsigned8 .writingArgumentCount words.toNat
      return site.kind.opcode :: be16 operand ++ [count, 0]
    else .ok (site.kind.opcode :: be16 operand)
  | .invokeDynamic _ _ _ => .ok (Opcode.invokeDynamic :: be16 operand ++ [0, 0])
  | .multiANewArray _ dimensions => .ok (Opcode.multiANewArray :: be16 operand ++ [dimensions])
where
  /-- How far away a label is. -/
  delta (l : Label) : Int := (target l : Int) - offset
  /-- How far away a label is, in four bytes. -/
  displacement (l : Label) : Bytes := bytes32 (Int32.ofInt (delta l))

/-! ## 3. Layouts -/

/-- The bytes of an element at an offset. -/
def Piece.encode (target : Label → Nat) (placed : Piece × Nat) : Outcome Bytes :=
  match placed.1.node with
  | .insn i => i.encode placed.2 placed.1.operand placed.1.wide target
  | _ => .ok []

/-- The bytes of the code. -/
def Layout.encode (l : Layout) : Outcome Bytes :=
  return (← l.placed.mapM (Piece.encode l.offsetOf)).flatten

end Rewire
