import Rewire.Json.Token
import Rewire.Json.Value

/-!
# Reading JSON

Values are read from tokens with a stack of the arrays and objects that are still open. This file
fixes

* what is open (`JsonOpen`);
* reading a value and going on after one (`readJson`, `continueJson`);
* reading a whole text (`JsonValue.ofText?`).
-/

namespace Rewire

/-- An array or object that is not closed yet, with what it holds so far, last first. -/
inductive JsonOpen where
  | array (items : List JsonValue)
  /-- An object that waits for the value of `key`. -/
  | object (members : List (String × JsonValue)) (key : String)
  deriving Repr

mutual

/-- Reads a value inside of what is open. -/
def readJson : List JsonToken → List JsonOpen → Option JsonValue
  | .null :: ts, stack => continueJson ts stack .null
  | .bool b :: ts, stack => continueJson ts stack (.bool b)
  | .number literal :: ts, stack => continueJson ts stack (.number literal)
  | .string s :: ts, stack => continueJson ts stack (.string s)
  | .openArray :: .closeArray :: ts, stack => continueJson ts stack (.array [])
  | .openArray :: ts, stack => readJson ts (.array [] :: stack)
  | .openObject :: .closeObject :: ts, stack => continueJson ts stack (.object [])
  | .openObject :: .string key :: .colon :: ts, stack => readJson ts (.object [] key :: stack)
  | _, _ => none
termination_by ts => ts.length

/-- Goes on after a value inside of what is open. -/
def continueJson : List JsonToken → List JsonOpen → JsonValue → Option JsonValue
  | [], [], v => some v
  | .comma :: ts, .array items :: stack, v => readJson ts (.array (v :: items) :: stack)
  | .closeArray :: ts, .array items :: stack, v =>
    continueJson ts stack (.array (v :: items).reverse)
  | .comma :: .string next :: .colon :: ts, .object members key :: stack, v =>
    readJson ts (.object ((key, v) :: members) next :: stack)
  | .closeObject :: ts, .object members key :: stack, v =>
    continueJson ts stack (.object ((key, v) :: members).reverse)
  | _, _, _ => none
termination_by ts => ts.length

end

/-- The value written in a text, with nothing but blanks around it. -/
def JsonValue.ofText? (text : String) : Option JsonValue := do
  readJson (← JsonToken.ofText? text) []

end Rewire
