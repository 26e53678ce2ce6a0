import Std.Data.HashSet
import Rewire.Code.Extent
import Rewire.Code.Method
import Rewire.Code.Parts

/-!
# From code bytes to nodes

Decoding cuts code into instructions and puts a label at every offset that something refers to:
jumps, exception regions, local variable records and stack map frames. This file fixes

* the cut into instructions (`CodeScan`, `scanCode`);
* the labels, numbered by ascending offset (`LabelTable`), and the requirement that each lies at
  the start of an instruction or at the end of the code;
* the instruction at an offset (`decodeInsn`), which is told by the opcode alone. Nothing that was
  found out about its length and its targets is used; the bytes are taken as if they were there;
* the order of nodes: at each offset its label, its source lines, its instruction (`nodesAt`);
* decoding a whole method (`decodeMethod`).
-/

namespace Rewire

/-! ## 1. Cutting code into instructions -/

/-- The starts of instructions and the offsets they jump to, both in the order of the code. -/
structure CodeScan where
  starts : Array Nat := #[]
  targets : Array Nat := #[]

/-- Cuts the code from an offset on. -/
def scanFrom (code : Array UInt8) (offset : Nat) (found : CodeScan) : Outcome CodeScan := do
  if offset < code.size then
    let length ← insnLength code offset
    if _h : length = 0 ∨ code.size < offset + length then fail (.invalidInstructionLength offset)
    else
      let targets ← branchTargets code offset
      scanFrom code (offset + length)
        { starts := found.starts.push offset, targets := found.targets ++ targets }
  else return found
termination_by code.size - offset

/-- Cuts the whole code. -/
def scanCode (code : Array UInt8) : Outcome CodeScan :=
  scanFrom code 0 {}

/-! ## 2. Labels -/

/-- The offsets of code with something else than an instruction's target. -/
def CodeParts.tableOffsets (parts : CodeParts) : List Nat :=
  parts.handlers.flatMap (fun h => [h.start, h.stop, h.handler]) ++
    (parts.locals ++ parts.localTypes).flatMap (fun l => [l.start, l.stop]) ++ parts.frameOffsets

/-- The least of a list of numbers. -/
def least? (offsets : List Nat) : Option Nat :=
  offsets.foldl (fun least n => some (match least with | none => n | some l => min l n)) none

/-- The offsets that get labels, ascending: places for instructions that are referred to. A
    reference to any other offset is refused, the least one first. -/
def labelledOffsets (parts : CodeParts) (scan : CodeScan) : Outcome (List Nat) := do
  let referenced := scan.targets.toList ++ parts.tableOffsets
  let places := scan.starts.toList ++ [parts.code.size]
  let placeSet := Std.HashSet.ofList places
  let referencedSet := Std.HashSet.ofList referenced
  match least? (referenced.filter fun n => !placeSet.contains n) with
  | some n => fail (.notInstructionBoundary n)
  | none => return places.filter referencedSet.contains

/-! ## 3. Instructions -/

/-- The value in a slot that an instruction loads. -/
def decodeLoadable (pool : ConstantPool) (index : UInt16) (wide : Bool) : Outcome Loadable := do
  match ← pool.get index with
  | .integer value => return .int value
  | .float bits => return .float bits
  | .long value => return .long value
  | .double bits => return .double bits
  | .string text => return .string (← pool.text text)
  | .classRef name => return .classRef (← pool.text name)
  | .methodType _ | .methodHandle _ _ | .dynamic _ _ => return .pooled index wide
  | entry => fail (.notLoadable index entry)

/-- The call computed by a slot. -/
def decodeComputedCall (pool : ConstantPool) (index : UInt16) : Outcome Insn := do
  match ← pool.get index with
  | .invokeDynamic _ member =>
    let (name, descriptor) ← pool.nameAndType member
    return .invokeDynamic index name descriptor
  | _ => fail (.notInvokeDynamic index)

/-- The label at a displacement from an instruction. -/
def jumpLabel (labels : LabelTable) (offset : Nat) (delta : Int) : Outcome Label :=
  labels.get (asOffset (offset + delta))

/-- The label whose displacement is stored as a 32-bit number at a position. -/
def jumpLabelAt (code : Array UInt8) (labels : LabelTable) (offset position : Nat) :
    Outcome Label := do
  jumpLabel labels offset (← i32At code position).toInt

/-- Behind the labels in `done`, the labels of a number of values of the `tableswitch` at an offset,
    from the one at `index` on. -/
def tableLabels (code : Array UInt8) (labels : LabelTable) (offset : Nat) (done : List Label)
    (index : Nat) : Nat → Outcome (List Label)
  | 0 => return done.reverse
  | n + 1 => do
    let target ← jumpLabelAt code labels offset (switchBase offset + 12 + index * 4)
    tableLabels code labels offset (target :: done) (index + 1) n

/-- The `tableswitch` at an offset. -/
def decodeTableSwitch (code : Array UInt8) (labels : LabelTable) (offset : Nat) : Outcome Insn := do
  let default ← jumpLabelAt code labels offset (switchBase offset)
  let low ← i32At code (switchBase offset + 4)
  let high ← i32At code (switchBase offset + 8)
  let count ← orFail .invalidTableRange (tableCount? low high)
  return .tableSwitch low high default (← tableLabels code labels offset [] 0 count.toInt.toNat)

/-- Behind the pairs in `done`, a number of pairs of the `lookupswitch` at an offset, from the one at
    `index` on. -/
def keyLabels (code : Array UInt8) (labels : LabelTable) (offset : Nat)
    (done : List (Int32 × Label)) (index : Nat) : Nat → Outcome (List (Int32 × Label))
  | 0 => return done.reverse
  | n + 1 => do
    let key ← i32At code (switchBase offset + 8 + index * 8)
    let target ← jumpLabelAt code labels offset (switchBase offset + 12 + index * 8)
    keyLabels code labels offset ((key, target) :: done) (index + 1) n

/-- The `lookupswitch` at an offset. -/
def decodeLookupSwitch (code : Array UInt8) (labels : LabelTable) (offset : Nat) :
    Outcome Insn := do
  let default ← jumpLabelAt code labels offset (switchBase offset)
  let count ← i32At code (switchBase offset + 4)
  return .lookupSwitch default (← keyLabels code labels offset [] 0 count.toInt.toNat)

/-- The load or store with its slot in the opcode: four slots to each opcode, counted from `first`, in
    the order of the opcodes from `base`. -/
def decodeShortVar (first base op : UInt8) : Insn :=
  .var (base + (op - first) / 4) ((op - first) % 4).toUInt16

/-- The instruction with the prefix for large slots at an offset. -/
def decodeWide (code : Array UInt8) (offset : Nat) : Outcome Insn := do
  let inner ← u8At code (offset + 1)
  let slot ← u16At code (offset + 2)
  if inner = Opcode.iinc then return .iinc slot (← i16At code (offset + 4))
  else return .var inner slot

/-- The instruction at an offset. -/
def decodeInsn (code : Array UInt8) (pool : ConstantPool) (labels : LabelTable) (offset : Nat) :
    Outcome Insn := do
  let op ← u8At code offset
  if op ≤ 0x0f then return .simple op
  else if op = Opcode.bipush then return .int op (← i8At code (offset + 1)).toInt32
  else if op = Opcode.sipush then return .int op (← i16At code (offset + 1)).toInt32
  else if op = Opcode.ldc then
    return .ldc (← decodeLoadable pool (← u8At code (offset + 1)).toUInt16 false)
  else if op = Opcode.ldcWide then
    return .ldc (← decodeLoadable pool (← u16At code (offset + 1)) false)
  else if op = Opcode.ldc2 then
    return .ldc (← decodeLoadable pool (← u16At code (offset + 1)) true)
  else if Opcode.iload ≤ op ∧ op ≤ Opcode.aload ∨ Opcode.istore ≤ op ∧ op ≤ Opcode.astore ∨
      op = Opcode.ret then
    return .var op (← u8At code (offset + 1)).toUInt16
  else if 0x1a ≤ op ∧ op ≤ 0x2d then return decodeShortVar Opcode.iload0 Opcode.iload op
  else if 0x3b ≤ op ∧ op ≤ 0x4e then return decodeShortVar Opcode.istore0 Opcode.istore op
  else if 0x2e ≤ op ∧ op ≤ 0x35 ∨ 0x4f ≤ op ∧ op ≤ 0x83 then return .simple op
  else if op = Opcode.iinc then
    return .iinc (← u8At code (offset + 1)).toUInt16 (← i8At code (offset + 2)).toInt16
  else if 0x85 ≤ op ∧ op ≤ 0x98 then return .simple op
  else if Opcode.ifeq ≤ op ∧ op ≤ Opcode.jsr ∨ op = Opcode.ifNull ∨ op = Opcode.ifNonNull then
    return .jump op (← jumpLabel labels offset (← i16At code (offset + 1)).toInt)
  else if op = Opcode.gotoWide then
    return .jump Opcode.goto (← jumpLabelAt code labels offset (offset + 1))
  else if op = Opcode.jsrWide then
    return .jump Opcode.jsr (← jumpLabelAt code labels offset (offset + 1))
  else if op = Opcode.tableSwitch then decodeTableSwitch code labels offset
  else if op = Opcode.lookupSwitch then decodeLookupSwitch code labels offset
  else if 0xac ≤ op ∧ op ≤ 0xb1 then return .simple op
  else if Opcode.getStatic ≤ op ∧ op ≤ Opcode.putField then
    let m ← during .resolvingField (pool.memberRef (← u16At code (offset + 1)))
    return .field op m.toMember
  else if Opcode.invokeVirtual ≤ op ∧ op ≤ Opcode.invokeInterface then
    let m ← during .resolvingMethod (pool.memberRef (← u16At code (offset + 1)))
    let kind ← orFail .missingCallKind (CallKind.ofOpcode? op)
    return .call { m with kind }
  else if op = Opcode.invokeDynamic then decodeComputedCall pool (← u16At code (offset + 1))
  else if op = Opcode.new ∨ op = 0xbd ∨ op = 0xc0 ∨ op = 0xc1 then
    return .type op (← during .resolvingType (pool.className (← u16At code (offset + 1))))
  else if op = Opcode.newArray then return .int op (← u8At code (offset + 1)).toUInt32.toInt32
  else if op = 0xbe ∨ op = Opcode.athrow ∨ op = 0xc2 ∨ op = 0xc3 then return .simple op
  else if op = Opcode.wide then decodeWide code offset
  else if op = Opcode.multiANewArray then
    let name ← during .resolvingArrayType (pool.className (← u16At code (offset + 1)))
    return .multiANewArray name (← u8At code (offset + 3))
  else fail (.unsupportedOpcode op)

/-! ## 4. Nodes and tables -/

/-- The source lines that start at each offset, in the order of the tables. -/
def lineTable (lines : List (Nat × UInt16)) : Std.HashMap Nat (List UInt16) :=
  lines.foldr (fun (offset, number) found =>
    found.alter offset fun numbers => some (number :: numbers.getD [])) ∅

/-- The nodes at the offset of an instruction: its label, its source lines, the instruction. -/
def nodesAt (parts : CodeParts) (pool : ConstantPool) (labels : LabelTable)
    (lines : Std.HashMap Nat (List UInt16)) (offset : Nat) : Outcome (List Node) := do
  let i ← during (.readingInstruction offset) (decodeInsn parts.code pool labels offset)
  return (labels.at? offset).toList.map .label ++ ((lines[offset]?).getD []).map .line ++ [.insn i]

/-- The exception region with labels for its offsets. -/
def decodeHandler (pool : ConstantPool) (labels : LabelTable) (h : RawHandler) :
    Outcome Handler := do
  let catchType ←
    if h.catchType = 0 then pure none
    else some <$> during .resolvingCatchType (pool.className h.catchType)
  let start ← labels.get h.start
  let stop ← labels.get h.stop
  let handler ← labels.get h.handler
  return { start, stop, handler, catchType }

/-- The local variable record with labels for its offsets. -/
def decodeLocal (pool : ConstantPool) (labels : LabelTable) (l : RawLocal) :
    Outcome LocalRecord := do
  let name ← during .resolvingLocalName (pool.text l.name)
  let descriptor ← during .resolvingLocalDescriptor (pool.text l.descriptor)
  let start ← labels.get l.start
  let stop ← labels.get l.stop
  return { slot := l.slot, name, descriptor, start, stop }

/-! ## 5. Methods -/

/-- The code of a method without code, read from the body of a code attribute. -/
def decodeMethod (pool : ConstantPool) (method : Method) (body : Bytes) : Outcome Method := do
  let parts ← CodeParts.read pool body
  let scan ← scanCode parts.code
  let labels := numberLabels (← labelledOffsets parts scan)
  let table := labelTable labels
  let nodes ← scan.starts.toList.mapM (nodesAt parts pool table (lineTable parts.lines))
  let atEnd := (table.at? parts.code.size).toList.map Node.label
  let handlers ← parts.handlers.mapM (decodeHandler pool table)
  let locals ← parts.locals.mapM (decodeLocal pool table)
  let localTypes ← parts.localTypes.mapM (decodeLocal pool table)
  return { method with
    nodes := (nodes.flatten ++ atEnd).toArray
    handlers, locals, localTypes
    nextLabel := UInt32.ofNat labels.length
    origin := some
      { maxStack := parts.maxStack
        maxLocals := parts.maxLocals
        codeLength := parts.code.size
        labelOffsets := labels
        attributes := parts.others } }

end Rewire
