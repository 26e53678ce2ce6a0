import Rewire.Json.Value
import Rewire.Text.Hex

/-!
# Printing JSON

Reports are printed with one item or member to a line, indented by two blanks to each level; empty
arrays and objects stay on their line. This file fixes

* string literals (`quoteJson`), in which only quotes, backslashes and control characters are
  escaped;
* the layout of values (`JsonValue.print`).
-/

namespace Rewire

/-- A character as it is written in a string literal. -/
def quoteJsonChar (c : Char) : String :=
  if c = '"' then "\\\""
  else if c = '\\' then "\\\\"
  else if c = '\x08' then "\\b"
  else if c = '\x0c' then "\\f"
  else if c = '\n' then "\\n"
  else if c = '\r' then "\\r"
  else if c = '\t' then "\\t"
  else if c.toNat < 0x20 then "\\u" ++ hexadecimal 4 c.toNat
  else c.toString

/-- A string literal. -/
def quoteJson (s : String) : String :=
  "\"" ++ String.join (s.toList.map quoteJsonChar) ++ "\""

/-- A line break and the indentation of a level. -/
def newLine (level : Nat) : String :=
  "\n" ++ String.ofList (List.replicate (2 * level) ' ')

/-- Printed parts between brackets, one to a line, at a level. -/
def bracketed (opening closing : String) (level : Nat) (parts : List String) : String :=
  if parts.isEmpty then opening ++ closing
  else
    opening ++ ",".intercalate (parts.map fun part => newLine (level + 1) ++ part) ++
      newLine level ++ closing

mutual

/-- The text of a value at a level of indentation. -/
def printJson (level : Nat) : JsonValue → String
  | .null => "null"
  | .bool b => if b then "true" else "false"
  | .number literal => literal
  | .string s => quoteJson s
  | .array items => bracketed "[" "]" level (printItems (level + 1) items)
  | .object members => bracketed "\x7b" "\x7d" level (printMembers (level + 1) members)

/-- The texts of the items of an array. -/
def printItems (level : Nat) : List JsonValue → List String
  | [] => []
  | v :: rest => printJson level v :: printItems level rest

/-- The texts of the members of an object. -/
def printMembers (level : Nat) : List (String × JsonValue) → List String
  | [] => []
  | (k, v) :: rest => (quoteJson k ++ ": " ++ printJson level v) :: printMembers level rest

end

/-- The text of a value. -/
def JsonValue.print (v : JsonValue) : String :=
  printJson 0 v

end Rewire
