import Rewire.Bytes.Basic

/-!
# Constants of a class file

The entries a constant pool holds, as the class-file format defines them. Entries refer to each
other by slot number and keep text in its encoded form; floating point values are kept as bit
patterns, so that equality of constants is equality of what is stored (two NaNs with different
payloads stay different). This file fixes

* the seventeen kinds of entry (`Constant`) and how many slots each takes (`Constant.width`);
* the spelling of an entry in messages (`Constant.describe`).
-/

namespace Rewire

/-- An entry of a constant pool. -/
inductive Constant where
  /-- Text in modified UTF-8. -/
  | utf8 (bytes : Bytes)
  | integer (value : Int32)
  | float (bits : UInt32)
  | long (value : Int64)
  | double (bits : UInt64)
  /-- A class, array or interface, by the slot of its name. -/
  | classRef (name : UInt16)
  /-- A string literal, by the slot of its text. -/
  | string (text : UInt16)
  | fieldRef (owner nameAndType : UInt16)
  | methodRef (owner nameAndType : UInt16)
  | interfaceMethodRef (owner nameAndType : UInt16)
  | nameAndType (name descriptor : UInt16)
  | methodHandle (kind : UInt8) (reference : UInt16)
  | methodType (descriptor : UInt16)
  /-- A computed constant, by its bootstrap method and its name and type. -/
  | dynamic (bootstrap nameAndType : UInt16)
  /-- A computed call site, by its bootstrap method and its name and type. -/
  | invokeDynamic (bootstrap nameAndType : UInt16)
  | moduleRef (name : UInt16)
  | packageRef (name : UInt16)
  deriving DecidableEq, Hashable, Repr, Inhabited

namespace Constant

/-! ## 1. Slots -/

/-- Whether the entry takes the slot after its own as well. -/
def isWide : Constant → Bool
  | long _ | double _ => true
  | _ => false

/-- Number of slots the entry takes: two for a long or a double, one otherwise. -/
def width (c : Constant) : Nat :=
  if c.isWide then 2 else 1

theorem width_pos (c : Constant) : 0 < c.width := by
  unfold width; split <;> decide

theorem width_le_two (c : Constant) : c.width ≤ 2 := by
  unfold width; split <;> decide

/-! ## 2. The spelling in messages -/

/-- A named list of named parts. -/
private def spellParts (name : String) (parts : List (String × String)) : String :=
  name ++ " \x7b " ++ ", ".intercalate (parts.map fun (k, v) => k ++ ": " ++ v) ++ " \x7d"

/-- The entry's kind and parts, as messages show them. -/
def describe : Constant → String
  | utf8 bytes =>
    spellParts "Utf8" [("bytes", "[" ++ ", ".intercalate (bytes.map fun b => toString b.toNat) ++ "]")]
  | integer value => spellParts "Integer" [("value", toString value.toInt)]
  | float bits => spellParts "Float" [("bits", toString bits.toNat)]
  | long value => spellParts "Long" [("value", toString value.toInt)]
  | double bits => spellParts "Double" [("bits", toString bits.toNat)]
  | classRef name => spellParts "Class" [("name_index", toString name.toNat)]
  | string text => spellParts "String" [("string_index", toString text.toNat)]
  | fieldRef owner member =>
    spellParts "Fieldref"
      [("class_index", toString owner.toNat), ("name_and_type_index", toString member.toNat)]
  | methodRef owner member =>
    spellParts "Methodref"
      [("class_index", toString owner.toNat), ("name_and_type_index", toString member.toNat)]
  | interfaceMethodRef owner member =>
    spellParts "InterfaceMethodref"
      [("class_index", toString owner.toNat), ("name_and_type_index", toString member.toNat)]
  | nameAndType name descriptor =>
    spellParts "NameAndType"
      [("name_index", toString name.toNat), ("descriptor_index", toString descriptor.toNat)]
  | methodHandle kind reference =>
    spellParts "MethodHandle"
      [("reference_kind", toString kind.toNat), ("reference_index", toString reference.toNat)]
  | methodType descriptor =>
    spellParts "MethodType" [("descriptor_index", toString descriptor.toNat)]
  | dynamic bootstrap member =>
    spellParts "Dynamic"
      [("bootstrap_method_attr_index", toString bootstrap.toNat),
        ("name_and_type_index", toString member.toNat)]
  | invokeDynamic bootstrap member =>
    spellParts "InvokeDynamic"
      [("bootstrap_method_attr_index", toString bootstrap.toNat),
        ("name_and_type_index", toString member.toNat)]
  | moduleRef name => spellParts "Module" [("name_index", toString name.toNat)]
  | packageRef name => spellParts "Package" [("name_index", toString name.toNat)]

end Constant

end Rewire
