import Rewire.Bytes.Cursor
import Rewire.Pool.Basic

/-!
# Constant pools in bytes

In a class file a constant pool is the number of its slots followed by its constants, each a tag
byte and its parts; the slots that hold nothing are not written. This file fixes

* the bytes of one constant and of a pool (`Constant.bytes`, `ConstantPool.bytes`);
* reading them back (`Reader.constant`, `Reader.pool`). A pool whose last wide constant would reach
  beyond the announced number of slots is refused, and so is one that announces no slot at all.
-/

namespace Rewire

/-! ## 1. Writing -/

/-- The bytes of a constant: its tag, then its parts. -/
def Constant.bytes : Constant → Bytes
  | .utf8 bytes => 1 :: be16 (UInt16.ofNat bytes.length) ++ bytes
  | .integer value => 3 :: be32 value.toUInt32
  | .float bits => 4 :: be32 bits
  | .long value => 5 :: be64 value.toUInt64
  | .double bits => 6 :: be64 bits
  | .classRef name => 7 :: be16 name
  | .string text => 8 :: be16 text
  | .fieldRef owner member => 9 :: be16 owner ++ be16 member
  | .methodRef owner member => 10 :: be16 owner ++ be16 member
  | .interfaceMethodRef owner member => 11 :: be16 owner ++ be16 member
  | .nameAndType name descriptor => 12 :: be16 name ++ be16 descriptor
  | .methodHandle kind reference => 15 :: kind :: be16 reference
  | .methodType descriptor => 16 :: be16 descriptor
  | .dynamic bootstrap member => 17 :: be16 bootstrap ++ be16 member
  | .invokeDynamic bootstrap member => 18 :: be16 bootstrap ++ be16 member
  | .moduleRef name => 19 :: be16 name
  | .packageRef name => 20 :: be16 name

namespace ConstantPool

/-- The constants of a pool in the order of their slots. -/
def constants (p : ConstantPool) : List Constant :=
  p.slots.toList.filterMap id

/-- The bytes of a pool: the number of its slots, then its constants. -/
def bytes (p : ConstantPool) : Bytes :=
  be16 (UInt16.ofNat p.size) ++ p.constants.flatMap Constant.bytes

end ConstantPool

/-! ## 2. Reading -/

namespace Reader

/-- Reads two 16-bit parts into a constant. -/
def pair (make : UInt16 → UInt16 → Constant) : Reader Constant := do
  let a ← u16
  let b ← u16
  return make a b

/-- Reads a 64-bit word. -/
def u64 : Reader UInt64 := do
  let high ← u32
  let low ← u32
  return word64 high low

/-- Reads the parts of a constant with the given tag, for the given slot. -/
def constant (tag : UInt8) (slot : Nat) : Reader Constant :=
  match tag with
  | 1 => do return .utf8 (← bytes (← u16).toNat)
  | 3 => return .integer (← u32).toInt32
  | 4 => return .float (← u32)
  | 5 => return .long (← u64).toInt64
  | 6 => return .double (← u64)
  | 7 => return .classRef (← u16)
  | 8 => return .string (← u16)
  | 9 => pair .fieldRef
  | 10 => pair .methodRef
  | 11 => pair .interfaceMethodRef
  | 12 => pair .nameAndType
  | 15 => do return .methodHandle (← u8) (← u16)
  | 16 => return .methodType (← u16)
  | 17 => pair .dynamic
  | 18 => pair .invokeDynamic
  | 19 => return .moduleRef (← u16)
  | 20 => return .packageRef (← u16)
  | _ => fail (.unknownConstantTag tag slot)

/-- Reads constants into a pool until it has `count` slots or more. -/
def constants (count : Nat) (p : ConstantPool) : Reader ConstantPool := do
  if p.size < count then
    let tag ← u8
    let c ← constant tag p.size
    constants count (p.push c)
  else return p
termination_by count - p.size
decreasing_by
  have := ConstantPool.size_push p c
  have := c.width_pos
  omega

/-- Reads a constant pool. -/
def pool : Reader ConstantPool := do
  let count ← u16
  let p ← constants count.toNat .empty
  if p.size = count.toNat then return p
  else fail .slotCountMismatch

end Reader

end Rewire
