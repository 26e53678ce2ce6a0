/-!
# Opcodes

The one-byte operation codes of the JVM that this library treats by name, and the classes of
opcodes that share an instruction format. The classes (`IsLoad`, `IsStore`, …) are what the
decoder, the assembler and the predicates agree on.
-/

namespace Rewire.Opcode

/-! ## 1. Single opcodes -/

def nop : UInt8 := 0x00
def bipush : UInt8 := 0x10
def sipush : UInt8 := 0x11
def ldc : UInt8 := 0x12
def ldcWide : UInt8 := 0x13
def ldc2 : UInt8 := 0x14
def iload : UInt8 := 0x15
def lload : UInt8 := 0x16
def fload : UInt8 := 0x17
def dload : UInt8 := 0x18
def aload : UInt8 := 0x19
def iload0 : UInt8 := 0x1a
def istore : UInt8 := 0x36
def lstore : UInt8 := 0x37
def fstore : UInt8 := 0x38
def dstore : UInt8 := 0x39
def astore : UInt8 := 0x3a
def istore0 : UInt8 := 0x3b
def pop : UInt8 := 0x57
def pop2 : UInt8 := 0x58
def dup : UInt8 := 0x59
def iinc : UInt8 := 0x84
def ifeq : UInt8 := 0x99
def goto : UInt8 := 0xa7
def jsr : UInt8 := 0xa8
def ret : UInt8 := 0xa9
def tableSwitch : UInt8 := 0xaa
def lookupSwitch : UInt8 := 0xab
def getStatic : UInt8 := 0xb2
def putStatic : UInt8 := 0xb3
def getField : UInt8 := 0xb4
def putField : UInt8 := 0xb5
def invokeVirtual : UInt8 := 0xb6
def invokeSpecial : UInt8 := 0xb7
def invokeStatic : UInt8 := 0xb8
def invokeInterface : UInt8 := 0xb9
def invokeDynamic : UInt8 := 0xba
def new : UInt8 := 0xbb
def newArray : UInt8 := 0xbc
def athrow : UInt8 := 0xbf
def wide : UInt8 := 0xc4
def multiANewArray : UInt8 := 0xc5
def ifNull : UInt8 := 0xc6
def ifNonNull : UInt8 := 0xc7
def gotoWide : UInt8 := 0xc8
def jsrWide : UInt8 := 0xc9

/-! ## 2. Classes of opcodes -/

/-- Loads of a local variable with an explicit slot. -/
def IsLoad (op : UInt8) : Prop := 0x15 ≤ op ∧ op ≤ 0x19

/-- Stores to a local variable with an explicit slot. -/
def IsStore (op : UInt8) : Prop := 0x36 ≤ op ∧ op ≤ 0x3a

/-- Loads of a local variable whose slot is part of the opcode. -/
def IsShortLoad (op : UInt8) : Prop := 0x1a ≤ op ∧ op ≤ 0x2d

/-- Stores to a local variable whose slot is part of the opcode. -/
def IsShortStore (op : UInt8) : Prop := 0x3b ≤ op ∧ op ≤ 0x4e

/-- Branches with a condition on integers or references, and `goto` and `jsr`, with a 16-bit
    displacement. -/
def IsShortJump (op : UInt8) : Prop := 0x99 ≤ op ∧ op ≤ 0xa8 ∨ op = ifNull ∨ op = ifNonNull

/-- `goto` and `jsr` with a 32-bit displacement. -/
def IsWideJump (op : UInt8) : Prop := op = gotoWide ∨ op = jsrWide

/-- Comparisons that have an opposite at the other opcode of a pair. -/
def IsComparison (op : UInt8) : Prop := 0x99 ≤ op ∧ op ≤ 0xa6

/-- Accesses to a field. -/
def IsField (op : UInt8) : Prop := 0xb2 ≤ op ∧ op ≤ 0xb5

/-- Calls of a named method. -/
def IsCall (op : UInt8) : Prop := 0xb6 ≤ op ∧ op ≤ 0xb9

/-- Instructions whose operand is a class. -/
def IsType (op : UInt8) : Prop := op = 0xbb ∨ op = 0xbd ∨ op = 0xc0 ∨ op = 0xc1

/-- Returns from a method. -/
def IsReturn (op : UInt8) : Prop := 0xac ≤ op ∧ op ≤ 0xb1

/-- Instructions after which control does not go on to the next one: returns and `athrow`. -/
def IsExit (op : UInt8) : Prop := IsReturn op ∨ op = athrow

/-- Instructions without operands. -/
def IsSimple (op : UInt8) : Prop :=
  op ≤ 0x0f ∨ 0x2e ≤ op ∧ op ≤ 0x35 ∨ 0x4f ≤ op ∧ op ≤ 0x83 ∨ 0x85 ≤ op ∧ op ≤ 0x98 ∨
    IsReturn op ∨ op = 0xbe ∨ op = 0xbf ∨ op = 0xc2 ∨ op = 0xc3

instance : DecidablePred IsLoad := fun _ => inferInstanceAs (Decidable (_ ∧ _))
instance : DecidablePred IsStore := fun _ => inferInstanceAs (Decidable (_ ∧ _))
instance : DecidablePred IsShortLoad := fun _ => inferInstanceAs (Decidable (_ ∧ _))
instance : DecidablePred IsShortStore := fun _ => inferInstanceAs (Decidable (_ ∧ _))
instance : DecidablePred IsShortJump := fun _ => inferInstanceAs (Decidable (_ ∨ _))
instance : DecidablePred IsWideJump := fun _ => inferInstanceAs (Decidable (_ ∨ _))
instance : DecidablePred IsComparison := fun _ => inferInstanceAs (Decidable (_ ∧ _))
instance : DecidablePred IsField := fun _ => inferInstanceAs (Decidable (_ ∧ _))
instance : DecidablePred IsCall := fun _ => inferInstanceAs (Decidable (_ ∧ _))
instance : DecidablePred IsType := fun _ => inferInstanceAs (Decidable (_ ∨ _))
instance : DecidablePred IsReturn := fun _ => inferInstanceAs (Decidable (_ ∧ _))
instance : DecidablePred IsExit := fun _ => inferInstanceAs (Decidable (_ ∨ _))
instance : DecidablePred IsSimple := fun _ => inferInstanceAs (Decidable (_ ∨ _))

end Rewire.Opcode
