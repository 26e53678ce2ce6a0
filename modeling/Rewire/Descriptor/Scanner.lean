import Rewire.Descriptor

/-!
# The scanner of descriptors

The reader of descriptors that the program runs with. It reads one type at a time off the front of a
text and looks no further than the type needs. This file fixes

* reading one type or the closing parenthesis (`Scanner.readType`): a class name runs up to the next
  semicolon, and an array has at most 255 dimensions;
* reading the types of a method and of a field (`Scanner.readMethodType`, `Scanner.readFieldType`),
  which ignore what follows the last type they need;
* the reader made of both.
-/

namespace Rewire

namespace Scanner

/-! ## 1. Reading one type -/

/-- The type a letter stands for, when the letter is a whole type. -/
def letterType? (c : Char) : Option TypeDescriptor :=
  if c = 'Z' then some .boolean
  else if c = 'B' then some .byte
  else if c = 'C' then some .char
  else if c = 'S' then some .short
  else if c = 'I' then some .integer
  else if c = 'J' then some .long
  else if c = 'F' then some .float
  else if c = 'D' then some .double
  else if c = 'V' then some .void
  else none

/-- The text up to the first semicolon, behind the letters in `done`, and the text after it. -/
def splitSemicolon? (done : List Char) : List Char → Option (List Char × List Char)
  | [] => none
  | c :: cs => if c = ';' then some (done.reverse, cs) else splitSemicolon? (c :: done) cs

/-- Reads a type that is no array, or a closing parenthesis. -/
def readSimpleType : List Char → Outcome TypeToken
  | [] => fail .descriptorEnded
  | c :: cs =>
    match letterType? c with
    | some type => .ok (.type type cs)
    | none =>
      if c = 'L' then
        match splitSemicolon? [] cs with
        | some (name, rest) => .ok (.type (.object name) rest)
        | none => fail .missingSemicolon
      else if c = ')' then .ok (.close cs)
      else fail .unrecognizedType

/-- Reads the rest of an array type of which `dimensions` brackets have been read. -/
def readElementType (dimensions : Nat) : List Char → Outcome TypeToken
  | '[' :: cs =>
    if dimensions < maxDimensions then readElementType (dimensions + 1) cs
    else fail .tooManyDimensions
  | cs =>
    match readSimpleType cs with
    | .ok (.type element rest) => .ok (.type (.array dimensions element) rest)
    | .ok (.close _) => fail .invalidDescriptor
    | .error f => .error f

/-- Reads one type, or a closing parenthesis. -/
def readType : List Char → Outcome TypeToken
  | '[' :: cs => readElementType 1 cs
  | cs => readSimpleType cs

/-! ## 2. Progress -/

theorem length_splitSemicolon {done cs name rest : List Char}
    (h : splitSemicolon? done cs = some (name, rest)) : rest.length < cs.length := by
  fun_induction splitSemicolon? done cs with
  | case1 => cases h
  | case2 =>
    cases h
    exact Nat.lt_succ_self _
  | case3 _ _ _ _ ih => exact Nat.lt_succ_of_lt (ih h)

theorem length_readSimpleType {cs rest : List Char} {t : TypeDescriptor}
    (h : readSimpleType cs = .ok (.type t rest)) : rest.length < cs.length := by
  unfold readSimpleType at h
  split at h
  · cases h
  split at h
  · cases h
    exact Nat.lt_succ_self _
  split at h
  · split at h
    · rename_i hsplit
      cases h
      exact Nat.lt_succ_of_lt (length_splitSemicolon hsplit)
    · cases h
  · split at h <;> cases h

theorem length_readElementType {n : Nat} {cs rest : List Char} {t : TypeDescriptor}
    (h : readElementType n cs = .ok (.type t rest)) : rest.length < cs.length := by
  fun_induction readElementType n cs with
  | case1 _ _ _ ih => exact Nat.lt_succ_of_lt (ih h)
  | case2 => cases h
  | case3 _ _ _ _ _ hsimple =>
    cases h
    exact length_readSimpleType hsimple
  | case4 => cases h
  | case5 => cases h

/-- A type that was read took at least one character. -/
theorem length_readType {cs rest : List Char} {t : TypeDescriptor}
    (h : readType cs = .ok (.type t rest)) : rest.length < cs.length := by
  unfold readType at h
  split at h
  · exact Nat.lt_succ_of_lt (length_readElementType h)
  · exact length_readSimpleType h

/-! ## 3. Reading descriptors -/

/-- Reads types up to the closing parenthesis, below the types read so far, last first. -/
def readParameters (done : List TypeDescriptor) (cs : List Char) :
    Outcome (List TypeDescriptor × List Char) :=
  match h : readType cs with
  | .ok (.type t rest) =>
    have := length_readType h
    readParameters (t :: done) rest
  | .ok (.close rest) => .ok (done.reverse, rest)
  | .error f => .error f
termination_by cs.length

/-- Reads a parenthesised parameter list and a result type. -/
def readMethodType : List Char → Outcome MethodTypeDescriptor
  | '(' :: cs => do
    let (parameters, rest) ← readParameters [] cs
    match ← readType rest with
    | .type result _ => return ⟨parameters, result⟩
    | .close _ => fail .missingReturnType
  | _ => fail .missingParameterList

/-- Reads one type. -/
def readFieldType (cs : List Char) : Outcome TypeDescriptor := do
  match ← readType cs with
  | .type t _ => return t
  | .close _ => fail .notAFieldType

end Scanner

/-- The reader that the program runs with. -/
instance : DescriptorReader where
  methodType text := Scanner.readMethodType text.toList
  fieldType text := Scanner.readFieldType text.toList

end Rewire
