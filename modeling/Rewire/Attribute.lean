import Rewire.Bytes.Cursor
import Rewire.Bytes.Fit

/-!
# Attributes

Class files, their members and their code carry named byte strings. This file fixes

* the names of the attributes that are looked into (`AttributeName`);
* attributes (`RawAttribute`), reading lists of them and writing such lists, each with a 16-bit
  count in front.
-/

namespace Rewire

/-! ## 1. Names -/

namespace AttributeName

def code : String := "Code"
def lineNumbers : String := "LineNumberTable"
def locals : String := "LocalVariableTable"
def localTypes : String := "LocalVariableTypeTable"
def stackMap : String := "StackMapTable"

end AttributeName

/-! ## 2. Attributes -/

/-- An attribute: the slot of its name, and its body. -/
structure RawAttribute where
  name : UInt16
  body : Bytes
  deriving DecidableEq, Repr, Inhabited

namespace Reader

/-- Reads an attribute. -/
def rawAttribute : Reader RawAttribute := do
  let name ← u16
  let length ← u32
  let body ← bytes length.toNat
  return { name, body }

/-- Reads a counted list of attributes. -/
def rawAttributes : Reader (List RawAttribute) := do
  let count ← u16
  times count.toNat rawAttribute

end Reader

/-- The bytes of an attribute. -/
def RawAttribute.bytes (a : RawAttribute) : Outcome Bytes := do
  let length ← fitUnsigned32 .measuringAttribute a.body.length
  return be16 a.name ++ be32 length ++ a.body

/-- The bytes of a counted list of attributes. -/
def attributesBytes (attributes : List RawAttribute) : Outcome Bytes := do
  let count ← fitUnsigned16 .countingAttributes attributes.length
  return be16 count ++ (← attributes.mapM RawAttribute.bytes).flatten

end Rewire
