import Rewire.Descriptor

/-!
# The grammar of descriptors

The types that descriptors spell, and their spellings. This file fixes

* the types of fields (`FieldType`) and of methods (`MethodType`) with their one spelling each;
* how their values travel on the stack (`FieldType.category`, `MethodType.categories`);
* which of them have a spelling that can be read back (`FieldType.IsReadable`), and which are types
  of the format (`FieldType.IsValid`): those also have a name for every class;
* the texts that are method descriptors (`IsMethodDescriptor`);
* what is known of a reader of descriptors (`DescriptorReader.ReadsBy`): it reads one type after the
  other, each where it is spelled, and does not look at what follows the last one.
-/

namespace Rewire

/-! ## 1. Field types -/

/-- The types whose spelling is one letter. -/
inductive PrimitiveType where
  | boolean
  | byte
  | char
  | short
  | int
  | long
  | float
  | double
  deriving DecidableEq, Repr, Inhabited

namespace PrimitiveType

/-- The letter of a type. -/
def letter : PrimitiveType → Char
  | boolean => 'Z'
  | byte => 'B'
  | char => 'C'
  | short => 'S'
  | int => 'I'
  | long => 'J'
  | float => 'F'
  | double => 'D'

/-- How a value travels: whatever is narrower than 32 bits travels as an integer. -/
def category : PrimitiveType → Category
  | boolean | byte | char | short | int => .int
  | long => .long
  | float => .float
  | double => .double

end PrimitiveType

/-- The type of a field. -/
inductive FieldType where
  | primitive (type : PrimitiveType)
  /-- An object of a class. -/
  | object (className : List Char)
  /-- An array with one dimension more than its elements. -/
  | array (element : FieldType)
  deriving DecidableEq, Repr

namespace FieldType

/-- The spelling of a type. -/
def spelling : FieldType → List Char
  | primitive type => [type.letter]
  | object className => 'L' :: className ++ [';']
  | array element => '[' :: element.spelling

/-- How a value travels; an array is a reference whatever it holds. -/
def category : FieldType → Category
  | primitive type => type.category
  | object _ | array _ => .reference

/-- The stack words of a value: two for a long or a double, one for anything else. An array takes
    one, whatever it holds. -/
def words : FieldType → Nat
  | primitive .long | primitive .double => 2
  | _ => 1

/-- The number of array dimensions. -/
def dimensions : FieldType → Nat
  | array element => element.dimensions + 1
  | _ => 0

/-- The class that a type mentions. -/
def className? : FieldType → Option (List Char)
  | primitive _ => none
  | object className => some className
  | array element => element.className?

/-- Whether the spelling of a type can be read back: a semicolon would end the name of a class, and
    there is a limit on dimensions. -/
def IsReadable (t : FieldType) : Prop :=
  t.dimensions ≤ maxDimensions ∧ ∀ name ∈ t.className?, ';' ∉ name

/-- Whether the format knows a type: its class has a name. -/
def IsValid (t : FieldType) : Prop :=
  t.IsReadable ∧ ∀ name ∈ t.className?, name ≠ []

instance : DecidablePred IsReadable := fun t =>
  inferInstanceAs (Decidable (t.dimensions ≤ maxDimensions ∧ ∀ name ∈ t.className?, ';' ∉ name))

end FieldType

/-! ## 2. Method types -/

/-- The type of a method; without a result it returns nothing. -/
structure MethodType where
  parameters : List FieldType
  result : Option FieldType
  deriving DecidableEq, Repr

namespace MethodType

/-- The field types that a method type is made of. -/
def parts (t : MethodType) : List FieldType :=
  t.parameters ++ t.result.toList

/-- The spelling of the result, or of its absence. -/
def resultSpelling : Option FieldType → List Char
  | some result => result.spelling
  | none => ['V']

/-- The spelling of a method type. -/
def spelling (t : MethodType) : List Char :=
  '(' :: t.parameters.flatMap FieldType.spelling ++ ')' :: resultSpelling t.result

/-- How the arguments and the result travel. -/
def categories (t : MethodType) : Descriptor where
  arguments := t.parameters.map FieldType.category
  result := (t.result.map FieldType.category).getD .void

end MethodType

/-- Whether a text is a method descriptor. -/
def IsMethodDescriptor (text : String) : Prop :=
  ∃ t : MethodType, (∀ part ∈ t.parts, part.IsValid) ∧ text.toList = t.spelling

/-! ## 3. What is read -/

namespace TypeDescriptor

/-- The text that a type is read from. -/
def spelling : TypeDescriptor → List Char
  | void => ['V']
  | boolean => ['Z']
  | byte => ['B']
  | char => ['C']
  | short => ['S']
  | integer => ['I']
  | long => ['J']
  | float => ['F']
  | double => ['D']
  | object className => 'L' :: className ++ [';']
  | array dimensions element => List.replicate dimensions '[' ++ element.spelling

/-- Whether a type is an array. -/
def isArray : TypeDescriptor → Bool
  | array _ _ => true
  | _ => false

/-- Whether a type can be read: the name of a class ends at the first semicolon, and an array has
    all its dimensions, which are limited. What it holds may be anything, also no value. -/
def IsReadable : TypeDescriptor → Prop
  | object className => ';' ∉ className
  | array dimensions element =>
    (0 < dimensions ∧ dimensions ≤ maxDimensions) ∧ element.isArray = false ∧ element.IsReadable
  | _ => True

/-- Readable types are told from others. -/
def decideReadable : (t : TypeDescriptor) → Decidable t.IsReadable
  | object className => inferInstanceAs (Decidable (';' ∉ className))
  | array dimensions element =>
    have := element.decideReadable
    inferInstanceAs (Decidable ((0 < dimensions ∧ dimensions ≤ maxDimensions) ∧
      element.isArray = false ∧ element.IsReadable))
  | void | boolean | byte | char | short | integer | long | float | double => .isTrue trivial

instance : DecidablePred IsReadable := decideReadable

end TypeDescriptor

namespace DescriptorReader

/-- Types are read one after the other, up to a closing parenthesis. -/
inductive ReadsTypes (next : List Char → Outcome TypeToken) :
    List Char → List TypeDescriptor → List Char → Prop where
  | close {cs rest : List Char} (done : next cs = .ok (.close rest)) : ReadsTypes next cs [] rest
  | type {cs rest rest' : List Char} {t : TypeDescriptor} {ts : List TypeDescriptor}
      (first : next cs = .ok (.type t rest)) (more : ReadsTypes next rest ts rest') :
      ReadsTypes next cs (t :: ts) rest'

/-- What is known of a reader: there is a step (`next`) that takes one type, or a closing
    parenthesis, off the front of a text exactly where one is spelled. A method type is read by
    steps: behind an opening parenthesis the parameters up to the closing one, then the result. -/
structure ReadsBy [DescriptorReader] (next : List Char → Outcome TypeToken) : Prop where
  type : ∀ cs t rest, next cs = .ok (.type t rest) ↔ t.IsReadable ∧ cs = t.spelling ++ rest
  close : ∀ cs rest, next cs = .ok (.close rest) ↔ cs = ')' :: rest
  method : ∀ text t, methodType text = .ok t ↔ ∃ cs rest rest', text.toList = '(' :: cs ∧
    ReadsTypes next cs t.parameters rest ∧ next rest = .ok (.type t.result rest')

end DescriptorReader

end Rewire
