import Rewire.Text.Units

/-!
# JSON tokens

Text is cut into tokens before values are read. This file fixes

* the tokens (`JsonToken`);
* the content of a string literal (`stringParts?`), in which control characters have to be
  escaped and escaped surrogates have to come in pairs;
* number literals (`numberLiteral?`);
* cutting a whole text (`JsonToken.ofText?`), where blanks between tokens are skipped.
-/

namespace Rewire

/-- A token of JSON text. -/
inductive JsonToken where
  | openArray
  | closeArray
  | openObject
  | closeObject
  | comma
  | colon
  | null
  | bool (b : Bool)
  | number (literal : String)
  | string (s : String)
  deriving DecidableEq, Repr, Inhabited

/-! ## 1. Strings -/

/-- The value of a hexadecimal digit. -/
def hexDigit? (c : Char) : Option Nat :=
  if '0' ≤ c ∧ c ≤ '9' then some (c.toNat - 48)
  else if 'a' ≤ c ∧ c ≤ 'f' then some (c.toNat - 87)
  else if 'A' ≤ c ∧ c ≤ 'F' then some (c.toNat - 55)
  else none

/-- The unit spelled by four hexadecimal digits. -/
def hexUnit? (a b c d : Char) : Option UInt16 := do
  return UInt16.ofNat
    ((((← hexDigit? a) * 16 + (← hexDigit? b)) * 16 + (← hexDigit? c)) * 16 + (← hexDigit? d))

/-- The character that stands for itself or another one after a backslash. -/
def simpleEscape? (c : Char) : Option Char :=
  if c = '"' ∨ c = '\\' ∨ c = '/' then some c
  else if c = 'b' then some '\x08'
  else if c = 'f' then some '\x0c'
  else if c = 'n' then some '\n'
  else if c = 'r' then some '\r'
  else if c = 't' then some '\t'
  else none

/-- A part of a string literal: a character, or a unit written with digits. -/
inductive StringPart where
  | char (c : Char)
  | unit (u : UInt16)
  deriving Repr

/-- The parts of a string literal after its opening quote, last first below `done`, and the text
    after its closing quote. -/
def stringParts? (done : List StringPart) : List Char → Option (List StringPart × List Char)
  | [] => none
  | '"' :: cs => some (done, cs)
  | '\\' :: 'u' :: a :: b :: c :: d :: cs =>
    match hexUnit? a b c d with
    | some u => stringParts? (.unit u :: done) cs
    | none => none
  | '\\' :: e :: cs =>
    match simpleEscape? e with
    | some c => stringParts? (.char c :: done) cs
    | none => none
  | c :: cs => if c.toNat < 0x20 ∨ c = '\\' then none else stringParts? (.char c :: done) cs

/-- The characters of the parts of a string literal, last first, above `after`. A surrogate has to
    have its partner beside it. -/
def charsOfParts? (after : List Char) : List StringPart → Option (List Char)
  | [] => some after
  | .char c :: rest => charsOfParts? (c :: after) rest
  | .unit u :: rest =>
    if isTrailing u then
      match rest with
      | .unit v :: rest => if isLeading v then charsOfParts? (pairedChar v u :: after) rest else none
      | _ => none
    else if isLeading u then none
    else charsOfParts? (Char.ofNat u.toNat :: after) rest

/-! ## 2. Numbers and words -/

/-- Digits at the front of a text, and the rest. -/
def digits (cs : List Char) : List Char × List Char :=
  cs.span Char.isDigit

/-- The fraction at the front of a text, if one starts there, and the rest. -/
def fraction? (cs : List Char) : Option (List Char × List Char) :=
  match cs with
  | '.' :: cs => if (digits cs).1.isEmpty then none else some ('.' :: (digits cs).1, (digits cs).2)
  | _ => some ([], cs)

/-- The sign at the front of a text, and the rest. -/
def exponentSign : List Char → List Char × List Char
  | '+' :: cs => (['+'], cs)
  | '-' :: cs => (['-'], cs)
  | cs => ([], cs)

/-- The exponent at the front of a text, if one starts there, and the rest. -/
def exponent? (cs : List Char) : Option (List Char × List Char) :=
  match cs with
  | c :: cs' =>
    if c = 'e' ∨ c = 'E' then
      let (sign, rest) := exponentSign cs'
      let (ds, rest) := digits rest
      if ds.isEmpty then none else some (c :: sign ++ ds, rest)
    else some ([], cs)
  | [] => some ([], [])

/-- The integer at the front of a text, without needless zeros, and the rest. -/
def integer? (cs : List Char) : Option (List Char × List Char) :=
  match digits cs with
  | ([], _) | ('0' :: _ :: _, _) => none
  | found => some found

/-- The minus sign at the front of a text, and the rest. -/
def minus : List Char → List Char × List Char
  | '-' :: cs => (['-'], cs)
  | cs => ([], cs)

/-- The number literal at the front of a text, and the rest. -/
def numberLiteral? (cs : List Char) : Option (List Char × List Char) := do
  let (sign, rest) := minus cs
  let (whole, rest) ← integer? rest
  let (part, rest) ← fraction? rest
  let (power, rest) ← exponent? rest
  return (sign ++ whole ++ part ++ power, rest)

/-- The text after a word at its front. -/
def afterWord? (word : String) (cs : List Char) : Option (List Char) :=
  if word.toList.isPrefixOf cs then some (cs.drop word.length) else none

/-! ## 3. Whole texts -/

/-- Whether a character is a blank between tokens. -/
def isJsonBlank (c : Char) : Bool :=
  c = ' ' || c = '\t' || c = '\n' || c = '\r'

/-- The token made of one character. -/
def JsonToken.ofPunctuation? (c : Char) : Option JsonToken :=
  if c = '[' then some openArray
  else if c = ']' then some closeArray
  else if c = '\x7b' then some openObject
  else if c = '\x7d' then some closeObject
  else if c = ',' then some comma
  else if c = ':' then some colon
  else none

/-- The token at the front of a text that starts with `c`, and the text after it. -/
def JsonToken.first? (c : Char) (cs : List Char) : Option (JsonToken × List Char) :=
  match ofPunctuation? c with
  | some t => some (t, cs)
  | none =>
    if c = '"' then do
      let (parts, rest) ← stringParts? [] cs
      return (.string (String.ofList (← charsOfParts? [] parts)), rest)
    else if c = 'n' then do return (.null, ← afterWord? "ull" cs)
    else if c = 't' then do return (.bool true, ← afterWord? "rue" cs)
    else if c = 'f' then do return (.bool false, ← afterWord? "alse" cs)
    else do
      let (literal, rest) ← numberLiteral? (c :: cs)
      return (.number (String.ofList literal), rest)

/-- The tokens of a text, at most `bound` of them, last first below `done`. Each token takes a
    character at least, so the length of the text is bound enough. -/
def JsonToken.ofChars? (done : List JsonToken) : Nat → List Char → Option (List JsonToken)
  | _, [] => some done.reverse
  | 0, _ :: _ => none
  | bound + 1, c :: cs =>
    if isJsonBlank c then ofChars? done bound cs
    else
      match first? c cs with
      | some (t, rest) => ofChars? (t :: done) bound rest
      | none => none

/-- The tokens of a text. -/
def JsonToken.ofText? (text : String) : Option (List JsonToken) :=
  ofChars? [] text.length text.toList

end Rewire
