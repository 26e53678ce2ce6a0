import Rewire.Attribute
import Rewire.Code.Encode
import Rewire.Code.Stack
import Rewire.Frames.Relocate
import Rewire.Log

/-!
# From nodes to code attributes

Assembling gives every operand a slot in the constant pool, lays the code out and writes the body
of a `Code` attribute. This file fixes

* the checks on labels (`distinctPositions`, `checkReferences`);
* operand slots (`internOperand`);
* the tables that refer to offsets: exception regions, of which empty ones are left out, source
  lines, and local variables, of which those that end before they start are left out;
* the attributes carried over from the code that was read (`carryAttribute`). While every label
  made from that code is where it was and the code is as long, they are kept as they are.
  Otherwise the stack map table is written for the new offsets and any other attribute is dropped;
* the limits (`requiredLocals`), which are never lowered;
* the whole body (`assemble`).
-/

namespace Rewire

/-! ## 1. Labels -/

/-- The position of each label; no label may be placed twice. -/
def distinctPositions (nodes : Array Node) : Outcome (Std.HashMap Label Nat) :=
  nodes.zipIdx.foldlM
    (fun found (node, i) =>
      match node with
      | .label l => if found.contains l then fail (.labelPlacedTwice l.id) else .ok (found.insert l i)
      | _ => .ok found)
    ∅

/-- Requires that every label a method refers to is placed. -/
def checkReferences (m : Method) (positions : Std.HashMap Label Nat) : Outcome Unit :=
  match m.references.find? fun l => !positions.contains l with
  | some l => fail (.danglingLabel l.id)
  | none => .ok ()

/-! ## 2. Operands -/

open ConstantPool in
/-- The slot of an instruction's operand, or 0 if it has none. -/
def internOperand : Insn → PoolStep UInt16
  | .ldc (.int value) => internInteger value
  | .ldc (.float bits) => internFloat bits
  | .ldc (.long value) => internLong value
  | .ldc (.double bits) => internDouble bits
  | .ldc (.string text) => internString text
  | .ldc (.classRef name) => internClass name
  | .ldc (.pooled index _) => pure index
  | .field _ m => internField m
  | .call site => internMethod site.toMemberRef
  | .invokeDynamic index _ _ => pure index
  | .type _ name | .multiANewArray name _ => internClass name
  | _ => pure 0

/-- The element of a node. -/
def internPiece : Node → ConstantPool.PoolStep Piece
  | .insn i => do return { node := .insn i, operand := ← internOperand i }
  | node => pure { node }

/-! ## 3. Tables -/

/-- Code has at most this many bytes. -/
def maxCodeLength : Nat := 65535

/-- An offset as it is written. -/
def offset16 (n : Nat) : Bytes := be16 (UInt16.ofNat n)

/-- The entry of an exception region, or nothing if the region is empty. -/
def encodeHandler (m : Method) (l : Layout) (h : Handler) : Assembly (Option Bytes) := do
  if l.offsetOf h.start ≥ l.offsetOf h.stop then
    Assembly.note (.emptyHandlerDropped m.name m.descriptor)
    return none
  else
    let catchType ←
      match h.catchType with
      | some name => (ConstantPool.internClass name : ConstantPool.PoolStep UInt16)
      | none => pure 0
    return some (offset16 (l.offsetOf h.start) ++ offset16 (l.offsetOf h.stop) ++
      offset16 (l.offsetOf h.handler) ++ be16 catchType)

/-- A counted table. -/
def tableBytes (entries : List Bytes) : Bytes :=
  offset16 entries.length ++ entries.flatten

/-- The attribute with the given name. -/
def namedAttribute (name : String) (body : Bytes) : ConstantPool.PoolStep RawAttribute := do
  return { name := ← ConstantPool.internText name, body }

/-- The attribute of a table, if the table has entries. -/
def tableAttribute (name : String) (entries : List Bytes) :
    ConstantPool.PoolStep (List RawAttribute) := do
  if entries.isEmpty then return []
  else return [← namedAttribute name (tableBytes entries)]

/-- The entry of a source line. -/
def encodeLine (line : Nat × UInt16) : Bytes :=
  offset16 line.1 ++ be16 line.2

/-- The entry of a local variable record. -/
def encodeLocal (l : Layout) (r : LocalRecord) : ConstantPool.PoolStep Bytes := do
  let name ← ConstantPool.internText r.name
  let descriptor ← ConstantPool.internText r.descriptor
  return offset16 (l.offsetOf r.start) ++ offset16 (l.offsetOf r.stop - l.offsetOf r.start) ++
    be16 name ++ be16 descriptor ++ be16 r.slot

/-- The attribute of a list of local variable records. -/
def localsAttribute (name : String) (l : Layout) (records : List LocalRecord) :
    ConstantPool.PoolStep (List RawAttribute) := do
  let kept := records.filter fun r => l.offsetOf r.start ≤ l.offsetOf r.stop
  tableAttribute name (← kept.mapM (encodeLocal l))

/-! ## 4. Attributes carried over -/

/-- Whether the code is as long as the code that was read and every label made from that code is
    at its old offset. -/
def CodeOrigin.isPreserved (o : CodeOrigin) (l : Layout) : Bool :=
  l.codeLength = o.codeLength &&
    o.labelOffsets.all fun (label, offset) => l.offsetOf? label = some offset

/-- Where an offset of the code that was read is now: the place of its label, if that is before
    the end of the code. -/
def CodeOrigin.newOffset (o : CodeOrigin) (l : Layout) : Nat → Option Nat :=
  let labels := labelTable o.labelOffsets
  let stop := l.codeLength
  fun offset => do
    let label ← labels[offset]?
    let new ← l.offsetOf? label
    if new < stop then some new else none

/-- The attributes written so far, and the names of those that were dropped. -/
structure Carryover where
  kept : List RawAttribute
  dropped : List String := []

/-- Keeps, relocates or drops an attribute of the code that was read. -/
def carryAttribute (m : Method) (preserved : Bool) (newOffset : Nat → Option Nat) (c : Carryover)
    (name : String) (body : Bytes) : Assembly Carryover := do
  if preserved then keep body
  else if name = AttributeName.stackMap then
    match relocateFrames newOffset body with
    | .ok body => keep body
    | .error reason =>
      Assembly.note (.framesLost m.name m.descriptor reason)
      drop
  else drop
where
  /-- Writes the attribute. -/
  keep (body : Bytes) : Assembly Carryover := do
    let a ← (namedAttribute name body : ConstantPool.PoolStep RawAttribute)
    return { c with kept := c.kept ++ [a] }
  /-- Leaves the attribute out. -/
  drop : Assembly Carryover :=
    return { c with dropped := c.dropped ++ [name] }

/-! ## 5. Limits -/

/-- The local variable slots that an instruction touches: as many from the start. -/
def touchedLocals : Insn → Nat
  | .var op slot =>
    slot.toNat + if op = Opcode.lload ∨ op = Opcode.dload ∨ op = Opcode.lstore ∨ op = Opcode.dstore
      then 2 else 1
  | .iinc slot _ => slot.toNat + 1
  | _ => 0

/-- The local variable slots needed by the arguments, the receiver and the code. -/
def requiredLocals (m : Method) : Outcome UInt16 := do
  let d ← Descriptor.parse m.descriptor
  let arguments := (← d.argumentWidth).toNat + if m.isStatic then 0 else 1
  let needed := (m.nodes.toList.filterMap Node.insn?).foldl
    (fun most i => max most (touchedLocals i)) arguments
  fitUnsigned16 .countingLocals needed

/-! ## 6. Whole bodies -/

/-- The body of a code attribute, and the names of the nested attributes that could not be
    kept. -/
structure Assembled where
  body : Bytes
  dropped : List String
  deriving DecidableEq, Repr

/-- The layout of a method's code, its operands added to the pool. -/
def layOut (m : Method) : ConstantPool.PoolStep Layout := do
  if m.nodes.all Node.isMarker then fail .noInstructions
  let positions ← distinctPositions m.nodes
  checkReferences m positions
  let pieces ← m.nodes.toList.mapM internPiece
  let l ← Layout.settle positions pieces
  if maxCodeLength < l.codeLength then fail (.codeTooLong l.codeLength maxCodeLength)
  return l

/-- The body of the code attribute of a method. -/
def assemble (m : Method) : Assembly Assembled := do
  let l ← (layOut m : ConstantPool.PoolStep Layout)
  let code ← (l.encode : Outcome Bytes)
  let handlers ← m.handlers.filterMapM (encodeHandler m l)
  let lines ← (tableAttribute AttributeName.lineNumbers (l.lines.map encodeLine) :
    ConstantPool.PoolStep (List RawAttribute))
  let locals ← (localsAttribute AttributeName.locals l m.locals :
    ConstantPool.PoolStep (List RawAttribute))
  let localTypes ← (localsAttribute AttributeName.localTypes l m.localTypes :
    ConstantPool.PoolStep (List RawAttribute))
  let tables : Carryover := { kept := lines ++ locals ++ localTypes }
  let carried ←
    match m.origin with
    | none => pure tables
    | some o =>
      let preserved := o.isPreserved l
      let newOffset := o.newOffset l
      o.attributes.foldlM
        (fun c (name, body) => carryAttribute m preserved newOffset c name body) tables
  let stack ← (maxStack m : Outcome UInt16)
  let slots ← (requiredLocals m : Outcome UInt16)
  let attributes ← (attributesBytes carried.kept : Outcome Bytes)
  let oldStack := (m.origin.map CodeOrigin.maxStack).getD 0
  let oldLocals := (m.origin.map CodeOrigin.maxLocals).getD 0
  return {
    body := be16 (max oldStack stack) ++ be16 (max oldLocals slots) ++
      be32 (UInt32.ofNat l.codeLength) ++ code ++ tableBytes handlers ++ attributes
    dropped := carried.dropped }

end Rewire
