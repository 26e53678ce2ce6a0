import Rewire.Json.Read
import Rewire.Transform.Settings

/-!
# Settings in JSON

Settings are read from a JSON object whose members are all optional; what is missing has its
default. This file fixes

* structures in JSON (`structFields?`): an object that has each field at most once and no other
  member, or an array of the fields in their order;
* the fields of the settings (`Settings.setField?`) and the whole (`Settings.ofJson?`,
  `Settings.ofText?`).
-/

namespace Rewire

/-! ## 1. Structures -/

/-- The fields of a structure that a value gives, by name. -/
def structFields? (names : List String) : JsonValue → Option (List (String × JsonValue))
  | .object members =>
    let found := members.map Prod.fst
    if found.all names.contains ∧ found.Nodup then some members else none
  | .array items => if items.length ≤ names.length then some (names.zip items) else none
  | _ => none

/-- A text. -/
def JsonValue.text? : JsonValue → Option String
  | .string s => some s
  | _ => none

/-- The items of an array. -/
def JsonValue.items? : JsonValue → Option (List JsonValue)
  | .array items => some items
  | _ => none

/-- A list of texts. -/
def JsonValue.texts? (v : JsonValue) : Option (List String) := do
  (← v.items?).mapM text?

/-- The text of a field that has to be there. -/
def requiredText? (fields : List (String × JsonValue)) (name : String) : Option String := do
  (← fields.lookup name).text?

/-- A special call. -/
def SpecialCall.ofJson? (v : JsonValue) : Option SpecialCall := do
  let fields ← structFields? ["owner", "name"] v
  return { owner := ← requiredText? fields "owner", name := ← requiredText? fields "name" }

/-- A replacement. -/
def Replacement.ofJson? (v : JsonValue) : Option Replacement := do
  let fields ← structFields? ["name", "descriptor", "owner"] v
  return {
    owner := ← requiredText? fields "owner"
    name := ← requiredText? fields "name"
    descriptor := ← requiredText? fields "descriptor" }

/-! ## 2. Settings -/

namespace Settings

/-- The names of the settings in their order. -/
def fieldNames : List String :=
  ["watched_prefixes", "excluded_owner_prefixes", "special_calls", "excluded_classes",
    "excluded_packages", "builtin_redirects", "sandbox_classes", "redirects"]

/-- The settings with one of them changed. -/
def setField? (s : Settings) (name : String) (v : JsonValue) : Option Settings :=
  if name = "watched_prefixes" then do return { s with watchedPrefixes := ← v.texts? }
  else if name = "excluded_owner_prefixes" then do
    return { s with excludedOwnerPrefixes := ← v.texts? }
  else if name = "special_calls" then do
    return { s with specialCalls := ← (← v.items?).mapM SpecialCall.ofJson? }
  else if name = "excluded_classes" then do return { s with excludedClasses := ← v.texts? }
  else if name = "excluded_packages" then do return { s with excludedPackages := ← v.texts? }
  else if name = "builtin_redirects" then
    match v with
    | .bool b => some { s with builtinRedirects := b }
    | _ => none
  else if name = "sandbox_classes" then do return { s with sandboxClasses := ← v.texts? }
  else if name = "redirects" then do
    return { s with redirects := ← (← v.items?).mapM Replacement.ofJson? }
  else none

/-- The settings that a value gives. -/
def ofJson? (v : JsonValue) : Option Settings := do
  (← structFields? fieldNames v).foldlM (fun s (name, v) => s.setField? name v) {}

/-- The settings that a text gives. -/
def ofText? (text : String) : Option Settings := do
  ofJson? (← JsonValue.ofText? text)

/-- The settings in the file at `path` with the given content. -/
def ofFile (path : String) (content : Outcome Bytes) : Outcome Settings := do
  let data ← during (.reading path) content
  let text ← during (.reading path)
    (orFail .notText8 (String.fromUTF8? (ByteArray.mk data.toArray)))
  during (.parsing path) (orFail .malformedSettings (ofText? text))

end Settings

end Rewire
