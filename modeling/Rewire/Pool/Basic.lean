import Std.Data.ExtHashMap
import Rewire.Text.Modified

/-!
# Constant pools

A constant pool is a numbered list of slots. Slot 0 holds nothing, and neither does the slot after
a long or a double. This file fixes

* the pool (`ConstantPool`): its slots, and an index from each stored constant to the first slot
  holding it;
* resolving a slot number to what it denotes (`get`, `text`, `className`, `nameAndType`,
  `memberRef`);
* adding constants without duplicates (`intern` and the functions built on it). A constant that is
  already there keeps its slot, so instructions that do not change keep their operands.

Adding may stop half-way, with what was added so far kept: an adding step gives back the pool in
either case (`PoolStep`).
-/

namespace Rewire

/-! ## 1. Pools -/

/-- A member of a class: its owner, its name and its descriptor. -/
structure Member where
  owner : String
  name : String
  descriptor : String
  deriving DecidableEq, Repr, Inhabited

/-- A member as a reference names it: through an interface or not. -/
structure MemberRef extends Member where
  interface : Bool
  deriving DecidableEq, Repr, Inhabited

/-- Slots of constants, and the first slot of each constant. -/
structure ConstantPool where
  slots : Array (Option Constant)
  firstSlot : Std.ExtHashMap Constant UInt16

namespace ConstantPool

/-- A pool has at most this many slots. -/
def maxSlots : Nat := 65535

/-- The text of a constant has at most this many bytes. -/
def maxTextLength : Nat := 65535

/-- The pool without constants. -/
def empty : ConstantPool :=
  ⟨#[none], ∅⟩

instance : Inhabited ConstantPool := ⟨empty⟩

/-- Number of slots, slot 0 included. -/
def size (p : ConstantPool) : Nat :=
  p.slots.size

/-- Whether the pool holds no constant. -/
def isEmpty (p : ConstantPool) : Bool :=
  p.size ≤ 1

/-- Puts a constant into the next slot, and leaves the slot after a wide one without content. -/
def push (p : ConstantPool) (c : Constant) : ConstantPool :=
  let next := UInt16.ofNat p.size
  match p with
  | ⟨slots, firstSlot⟩ =>
    let slots := slots.push (some c)
    ⟨if c.isWide then slots.push none else slots, firstSlot.insertIfNew c next⟩

theorem size_push (p : ConstantPool) (c : Constant) : (p.push c).size = p.size + c.width := by
  simp only [push, size, Constant.width]
  split <;> simp

/-! ## 2. Resolving slots -/

/-- The constant in a slot. -/
def get (p : ConstantPool) (index : UInt16) : Outcome Constant :=
  match p.slots[index.toNat]? with
  | some (some c) => .ok c
  | _ => fail (.invalidSlot index)

/-- The text in a slot. -/
def text (p : ConstantPool) (index : UInt16) : Outcome String := do
  match ← p.get index with
  | .utf8 bytes => Modified.decodeText bytes
  | _ => fail (.notText index)

/-- The name of the class in a slot. -/
def className (p : ConstantPool) (index : UInt16) : Outcome String := do
  match ← p.get index with
  | .classRef name => p.text name
  | _ => fail (.notClass index)

/-- The name and the descriptor in a slot. -/
def nameAndType (p : ConstantPool) (index : UInt16) : Outcome (String × String) := do
  match ← p.get index with
  | .nameAndType name descriptor => return (← p.text name, ← p.text descriptor)
  | _ => fail (.notNameAndType index)

/-- The field or method a slot refers to. -/
def memberRef (p : ConstantPool) (index : UInt16) : Outcome MemberRef := do
  match ← p.get index with
  | .fieldRef owner member | .methodRef owner member => resolve owner member false
  | .interfaceMethodRef owner member => resolve owner member true
  | _ => fail (.notMember index)
where
  /-- The reference through an owner slot and a name-and-type slot. -/
  resolve (owner member : UInt16) (interface : Bool) : Outcome MemberRef := do
    let owner ← during .resolvingOwner (p.className owner)
    let (name, descriptor) ← during .resolvingNameAndType (p.nameAndType member)
    return { owner, name, descriptor, interface }

/-! ## 3. Adding constants -/

/-- A step that adds to a pool: the pool is kept also when the step fails. -/
abbrev PoolStep := ExceptT Failure (StateM ConstantPool)

/-- The slot of a constant, which is added unless it is there. -/
def intern (c : Constant) : PoolStep UInt16 :=
  ExceptT.mk fun p =>
    match p.firstSlot[c]? with
    | some i => (.ok i, p)
    | none =>
      let next := UInt16.ofNat p.size
      if p.size + c.width ≤ maxSlots then (.ok next, p.push c)
      else (fail .poolOverflow, p)

/-- The slot of a text. -/
def internText (s : String) : PoolStep UInt16 := do
  let bytes := Modified.encodeText s
  if bytes.length ≤ maxTextLength then intern (.utf8 bytes)
  else fail .textTooLong

/-- The slot of a class. -/
def internClass (name : String) : PoolStep UInt16 := do
  intern (.classRef (← internText name))

/-- The slot of a string literal. -/
def internString (s : String) : PoolStep UInt16 := do
  intern (.string (← internText s))

/-- The slot of an integer. -/
def internInteger (value : Int32) : PoolStep UInt16 :=
  intern (.integer value)

/-- The slot of a float, given by its bits. -/
def internFloat (bits : UInt32) : PoolStep UInt16 :=
  intern (.float bits)

/-- The slot of a long. -/
def internLong (value : Int64) : PoolStep UInt16 :=
  intern (.long value)

/-- The slot of a double, given by its bits. -/
def internDouble (bits : UInt64) : PoolStep UInt16 :=
  intern (.double bits)

/-- The slot of a name with its descriptor. -/
def internNameAndType (name descriptor : String) : PoolStep UInt16 := do
  let name ← internText name
  let descriptor ← internText descriptor
  intern (.nameAndType name descriptor)

/-- The slot of a reference to a field. -/
def internField (m : Member) : PoolStep UInt16 := do
  let owner ← internClass m.owner
  let member ← internNameAndType m.name m.descriptor
  intern (.fieldRef owner member)

/-- The slot of a reference to a method. -/
def internMethod (m : MemberRef) : PoolStep UInt16 := do
  let owner ← internClass m.owner
  let member ← internNameAndType m.name m.descriptor
  intern (if m.interface then .interfaceMethodRef owner member else .methodRef owner member)

end ConstantPool

end Rewire
