import Rewire.Bytes.Fit

/-!
# Descriptors

A descriptor spells a type or a method signature in letters. For stack accounting only the
category of each type matters. This file fixes

* the categories of values (`Category`) and how many stack words each takes (`Category.width`);
* the types that descriptors spell (`TypeDescriptor`) and the category of each (`Category.of`);
* what reads them (`DescriptorReader`). It is not part of this library: all that is asked of it is
  that it makes types of texts, or fails;
* method descriptors by category (`Descriptor.parse`), whose parameters have to be values, the stack
  words they take (`Descriptor.argumentWidth`), and field descriptors (`fieldCategory`).
-/

namespace Rewire

/-! ## 1. Categories -/

/-- How a value travels on the operand stack. -/
inductive Category where
  /-- No value: the result of a method that returns nothing. -/
  | void
  /-- Integers of up to 32 bits, truth values among them. -/
  | int
  | long
  | float
  | double
  | reference
  deriving DecidableEq, Repr, Inhabited

namespace Category

/-- Stack words a value of the category takes. -/
def width : Category → Nat
  | void => 0
  | long | double => 2
  | int | float | reference => 1

/-- The instruction that drops one value of the category. -/
def popOpcode? (c : Category) : Option UInt8 :=
  match c.width with
  | 0 => none
  | 1 => some 0x57
  | _ => some 0x58

/-- The instruction that pushes the zero (or null) of the category. -/
def zeroOpcode? : Category → Option UInt8
  | void => none
  | int => some 0x03
  | long => some 0x09
  | float => some 0x0b
  | double => some 0x0e
  | reference => some 0x01

theorem width_le_two (c : Category) : c.width ≤ 2 := by
  cases c <;> decide

end Category

/-! ## 2. Types -/

/-- A type, or the absence of one, as the reader of descriptors gives it. -/
inductive TypeDescriptor where
  | void
  | boolean
  | byte
  | char
  | short
  | integer
  | long
  | float
  | double
  /-- An object of a class. -/
  | object (className : List Char)
  /-- An array with a number of dimensions. -/
  | array (dimensions : Nat) (element : TypeDescriptor)
  deriving DecidableEq, Repr, Inhabited

/-- Arrays have at most this many dimensions. -/
def maxDimensions : Nat := 255

/-- How the values of a type travel. -/
def Category.of : TypeDescriptor → Category
  | .void => .void
  | .boolean | .byte | .char | .short | .integer => .int
  | .long => .long
  | .float => .float
  | .double => .double
  | .object _ | .array _ _ => .reference

/-- The types of a method: those of its parameters, and what it returns. -/
structure MethodTypeDescriptor where
  parameters : List TypeDescriptor
  result : TypeDescriptor
  deriving DecidableEq, Repr

/-- What may stand at the front of a text. -/
inductive TypeToken where
  /-- A type, and the text after it. -/
  | type (type : TypeDescriptor) (rest : List Char)
  /-- The closing parenthesis of a parameter list, and the text after it. -/
  | close (rest : List Char)
  deriving DecidableEq, Repr

/-- A reader of descriptors. -/
class DescriptorReader where
  /-- Reads the type of a method. -/
  methodType : String → Outcome MethodTypeDescriptor
  /-- Reads the type of a field. -/
  fieldType : String → Outcome TypeDescriptor

/-! ## 3. Method descriptors -/

/-- A method signature, reduced to categories. -/
structure Descriptor where
  arguments : List Category
  result : Category
  deriving DecidableEq, Repr

namespace Descriptor

variable [DescriptorReader]

/-- Reads a method descriptor, whose parameters have to be values. -/
def parse (text : String) : Outcome Descriptor := do
  let t ← during (.readingMethodDescriptor text) (DescriptorReader.methodType text)
  let arguments := t.parameters.map Category.of
  if Category.void ∈ arguments then fail (.voidParameter text)
  else return { arguments, result := Category.of t.result }

omit [DescriptorReader]

/-- Stack words the arguments take, a receiver not counted; a 16-bit sum. -/
def argumentWidth (d : Descriptor) : Outcome UInt16 :=
  d.arguments.foldlM (fun n c => addWord16 n (UInt16.ofNat c.width)) 0

end Descriptor

/-! ## 4. Field descriptors -/

/-- The category of the values a field holds. -/
def fieldCategory [DescriptorReader] (text : String) : Outcome Category := do
  let t ← during (.readingFieldDescriptor text) (DescriptorReader.fieldType text)
  match Category.of t with
  | .void => fail (.voidField text)
  | category => return category

end Rewire
