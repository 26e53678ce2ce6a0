import Rewire.Code.Decode

/-!
# Instruction formats

Every opcode has one format, which says what follows it in the code. This file fixes

* the formats (`Format`) and the format of each opcode (`Format.of?`);
* the entries of switches by the positions of their displacements (`tablePositions`,
  `pairPositions`);
* what the format says of the instruction at an offset: its length (`Format.length`), the offsets it
  jumps to (`Format.targets`) and the instruction itself (`Format.insn`).

The functions that read code do not know of formats. That each of them reads an instruction as its
format says is a theorem about them.
-/

namespace Rewire

/-! ## 1. Formats -/

/-- What follows an opcode. -/
inductive Format where
  /-- Nothing. -/
  | simple
  /-- A signed byte. -/
  | pushByte
  /-- A signed 16-bit number. -/
  | pushShort
  /-- The code of an element type. -/
  | arrayType
  /-- A one-byte slot of the constant pool. -/
  | ldc
  /-- A two-byte slot of the constant pool; `wide` tells whether the value takes two words. -/
  | ldcWide (wide : Bool)
  /-- A one-byte local variable slot. -/
  | var
  /-- Nothing: the opcode stands for the given opcode and local variable slot. -/
  | shortVar (opcode : UInt8) (slot : UInt16)
  /-- A one-byte local variable slot and a signed byte. -/
  | iinc
  /-- A 16-bit displacement. -/
  | jump
  /-- A 32-bit displacement; the opcode stands for the given jump. -/
  | wideJump (opcode : UInt8)
  | tableSwitch
  | lookupSwitch
  /-- A slot of the constant pool naming a field. -/
  | field
  /-- A slot of the constant pool naming a method; after it, for a call through an interface, two
      bytes that repeat what the method's descriptor says. -/
  | call (kind : CallKind)
  /-- A slot of the constant pool and two zero bytes. -/
  | invokeDynamic
  /-- A slot of the constant pool naming a class. -/
  | type
  /-- An opcode with a local variable slot of two bytes, and for `iinc` a two-byte number. -/
  | wide
  /-- A slot of the constant pool naming an array class, and the number of dimensions. -/
  | multiANewArray
  deriving DecidableEq, Repr

/-- The opcode and slot of a load or store that has its slot in the opcode: four slots to each
    opcode, counted from `first`, in the order of the opcodes from `base`. -/
def shortVarFormat (first base op : UInt8) : Format :=
  .shortVar (base + (op - first) / 4) ((op - first) % 4).toUInt16

/-- The format of an opcode, if there is such an opcode. -/
def Format.of? (op : UInt8) : Option Format :=
  if Opcode.IsSimple op then some .simple
  else if Opcode.IsLoad op ∨ Opcode.IsStore op ∨ op = Opcode.ret then some .var
  else if Opcode.IsShortLoad op then some (shortVarFormat Opcode.iload0 Opcode.iload op)
  else if Opcode.IsShortStore op then some (shortVarFormat Opcode.istore0 Opcode.istore op)
  else if Opcode.IsShortJump op then some .jump
  else if Opcode.IsField op then some .field
  else if Opcode.IsType op then some .type
  else if op = Opcode.bipush then some .pushByte
  else if op = Opcode.sipush then some .pushShort
  else if op = Opcode.newArray then some .arrayType
  else if op = Opcode.ldc then some .ldc
  else if op = Opcode.ldcWide then some (.ldcWide false)
  else if op = Opcode.ldc2 then some (.ldcWide true)
  else if op = Opcode.iinc then some .iinc
  else if op = Opcode.gotoWide then some (.wideJump Opcode.goto)
  else if op = Opcode.jsrWide then some (.wideJump Opcode.jsr)
  else if op = Opcode.tableSwitch then some .tableSwitch
  else if op = Opcode.lookupSwitch then some .lookupSwitch
  else if op = Opcode.invokeDynamic then some .invokeDynamic
  else if op = Opcode.wide then some .wide
  else if op = Opcode.multiANewArray then some .multiANewArray
  else (CallKind.ofOpcode? op).map .call

/-- The format of the instruction at an offset. -/
def formatAt (code : Array UInt8) (offset : Nat) : Outcome Format := do
  let op ← u8At code offset
  orFail (.unsupportedOpcode op) (Format.of? op)

/-! ## 2. Switches -/

/-- The number of targets of the `tableswitch` at an offset, if that is a number. -/
def tableSizeAt (code : Array UInt8) (offset : Nat) : Outcome Nat := do
  let low ← i32At code (switchBase offset + 4)
  let high ← i32At code (switchBase offset + 8)
  let count := high.toInt - low.toInt + 1
  if 0 ≤ count ∧ count < 0x80000000 then return count.toNat else fail .invalidTableRange

/-- The number of pairs of the `lookupswitch` at an offset, if that is a number. -/
def pairCountAt (code : Array UInt8) (offset : Nat) : Outcome Nat := do
  let count ← i32At code (switchBase offset + 4)
  if count < 0 then fail .invalidPairCount else return count.toInt.toNat

/-- Where the displacements of the targets in the table of a switch are stored. -/
def tablePositions (offset count : Nat) : List Nat :=
  (List.range count).map fun i => switchBase offset + 12 + 4 * i

/-- Where the displacements of the pairs of a switch are stored. -/
def pairPositions (offset count : Nat) : List Nat :=
  (List.range count).map fun i => switchBase offset + 12 + 8 * i

/-- The offsets that the switch at an offset may jump to: the default, then the ones whose
    displacements are stored at the given positions. -/
def switchTargets (code : Array UInt8) (offset : Nat) (positions : List Nat) : Outcome (List Nat) :=
  (switchBase offset :: positions).mapM (branchTargetAt code offset)

/-! ## 3. What a format says -/

namespace Format

variable (code : Array UInt8) (offset : Nat)

/-- The length of the instruction at an offset. -/
def length : Format → Outcome Nat
  | simple | shortVar _ _ => return 1
  | pushByte | arrayType | ldc | var => return 2
  | pushShort | ldcWide _ | iinc | jump | field | type => return 3
  | multiANewArray => return 4
  | wideJump _ | invokeDynamic => return 5
  | call kind => return if kind = .interface then 5 else 3
  | tableSwitch => return tableSwitchLength offset (← tableSizeAt code offset)
  | lookupSwitch => return lookupSwitchLength offset (← pairCountAt code offset)
  | wide => wideLengthAt code offset

/-- The offsets that the instruction at an offset may jump to; the default of a switch first. -/
def targets : Format → Outcome (List Nat)
  | jump => return [← branchTarget code offset (← i16At code (offset + 1)).toInt]
  | wideJump _ => return [← branchTargetAt code offset (offset + 1)]
  | tableSwitch => do
    let low ← i32At code (switchBase offset + 4)
    let high ← i32At code (switchBase offset + 8)
    switchTargets code offset (tablePositions offset (high.toInt - low.toInt + 1).toNat)
  | lookupSwitch => do
    let count ← i32At code (switchBase offset + 4)
    switchTargets code offset (pairPositions offset count.toInt.toNat)
  | simple | pushByte | pushShort | arrayType | ldc | ldcWide _ | var | shortVar _ _ | iinc | field
  | call _ | invokeDynamic | type | wide | multiANewArray => return []

/-- The instruction at an offset, with its opcode. -/
def insn (pool : ConstantPool) (labels : LabelTable) (op : UInt8) : Format → Outcome Insn
  | simple => return .simple op
  | pushByte => return .int op (← i8At code (offset + 1)).toInt32
  | pushShort => return .int op (← i16At code (offset + 1)).toInt32
  | arrayType => return .int op (← u8At code (offset + 1)).toUInt32.toInt32
  | ldc => return .ldc (← decodeLoadable pool (← u8At code (offset + 1)).toUInt16 false)
  | ldcWide isWide => return .ldc (← decodeLoadable pool (← u16At code (offset + 1)) isWide)
  | var => return .var op (← u8At code (offset + 1)).toUInt16
  | shortVar opcode slot => return .var opcode slot
  | iinc => return .iinc (← u8At code (offset + 1)).toUInt16 (← i8At code (offset + 2)).toInt16
  | jump => return .jump op (← jumpLabel labels offset (← i16At code (offset + 1)).toInt)
  | wideJump opcode => return .jump opcode (← jumpLabelAt code labels offset (offset + 1))
  | tableSwitch => do
    let default ← jumpLabelAt code labels offset (switchBase offset)
    let low ← i32At code (switchBase offset + 4)
    let high ← i32At code (switchBase offset + 8)
    let count ← orFail .invalidTableRange (tableCount? low high)
    let targets ← (tablePositions offset count.toInt.toNat).mapM (jumpLabelAt code labels offset)
    return .tableSwitch low high default targets
  | lookupSwitch => do
    let default ← jumpLabelAt code labels offset (switchBase offset)
    let count ← i32At code (switchBase offset + 4)
    let pairs ← (pairPositions offset count.toInt.toNat).mapM fun position => do
      let key ← i32At code (position - 4)
      return (key, ← jumpLabelAt code labels offset position)
    return .lookupSwitch default pairs
  | field => do
    let index ← u16At code (offset + 1)
    let m ← during .resolvingField (pool.memberRef index)
    return .field op m.toMember
  | call kind => do
    let index ← u16At code (offset + 1)
    let m ← during .resolvingMethod (pool.memberRef index)
    return .call { m with kind }
  | invokeDynamic => do decodeComputedCall pool (← u16At code (offset + 1))
  | type => do
    let index ← u16At code (offset + 1)
    return .type op (← during .resolvingType (pool.className index))
  | wide => decodeWide code offset
  | multiANewArray => do
    let index ← u16At code (offset + 1)
    let name ← during .resolvingArrayType (pool.className index)
    return .multiANewArray name (← u8At code (offset + 3))

end Format

end Rewire
