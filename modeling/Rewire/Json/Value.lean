/-!
# JSON values

Settings are read from JSON and reports are written as JSON. This file fixes the values
(`JsonValue`). The members of an object keep their order and may repeat a name; a number is kept as
it is spelled.
-/

namespace Rewire

/-- A JSON value. -/
inductive JsonValue where
  | null
  | bool (b : Bool)
  | number (literal : String)
  | string (s : String)
  | array (items : List JsonValue)
  | object (members : List (String × JsonValue))
  deriving Repr, Inhabited

namespace JsonValue

/-- A natural number. -/
def nat (n : Nat) : JsonValue := number (toString n)

/-- A list of texts. -/
def strings (texts : List String) : JsonValue := array (texts.map string)

end JsonValue

end Rewire
