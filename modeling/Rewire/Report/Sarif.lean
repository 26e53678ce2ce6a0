import Rewire.Json.Print
import Rewire.Scan.Findings

/-!
# SARIF reports

What a scan found is reported in the Static Analysis Results Interchange Format. This file fixes

* the results (`Finding`): a call that was replaced by a stub, and a method that lost attributes,
  each at the method it happened in;
* the parts of a report and the whole document (`sarifReport`). Optional parts that have no value
  are not written.
-/

namespace Rewire

/-! ## 1. Results -/

/-- A result: the rule it falls under, its message and the method it is about. -/
structure Finding where
  rule : String
  message : String
  place : Member
  deriving DecidableEq, Repr, Inhabited

namespace Finding

/-- The result for a call that was replaced by a stub. -/
def ofStubbed (s : StubbedCall) : Finding :=
  { rule := "UNIMPLEMENTED_CALL"
    message := "No redirect target for " ++ s.call.text ++ "; call replaced by a stub"
    place := s.place }

/-- The result for a method that lost attributes. -/
def ofDropped (className : String) (d : DroppedAttributes) : Finding :=
  { rule := "FRAMES_DROPPED"
    message := "Dropped " ++ ", ".intercalate d.attributes ++
      " after rewriting; frames must be recomputed"
    place := { owner := className, name := d.method, descriptor := d.descriptor } }

/-- The result in the report. -/
def toJson (f : Finding) : JsonValue :=
  .object
    [("ruleId", .string f.rule),
      ("message", .object [("text", .string f.message)]),
      ("locations", .array [.object
        [("logicalLocations", .array [.object
          [("name", .string f.place.text), ("kind", .string "function")]])]])]

end Finding

/-- The results of a scan: first the calls, then the methods. -/
def Findings.results (f : Findings) : List Finding :=
  f.stubbed.map Finding.ofStubbed ++ f.dropped.map fun (name, d) => Finding.ofDropped name d

/-! ## 2. Documents -/

/-- An artifact in the report. -/
def Artifact.toJson (a : Artifact) : JsonValue :=
  .object
    ([("location", .object [("uri", .string a.uri)])] ++
      (a.length.toList.map fun n => ("length", .nat n)) ++
      (a.parent.toList.map fun i => ("parentIndex", .nat i)) ++
      if a.roles.isEmpty then [] else [("roles", .strings a.roles)])

/-- How the program was called, as far as the report tells. -/
structure Invocation where
  arguments : List String
  commandLine : Option String := none
  deriving DecidableEq, Repr, Inhabited

namespace Invocation

/-- The invocation by a list of arguments, the program's name first. -/
def ofArguments (arguments : List String) : Invocation :=
  { arguments, commandLine := some (" ".intercalate arguments) }

/-- The invocation in the report. -/
def toJson (i : Invocation) : JsonValue :=
  .object
    ([("executionSuccessful", .bool true), ("arguments", .strings i.arguments)] ++
      i.commandLine.toList.map fun line => ("commandLine", .string line))

end Invocation

/-- The name under which the program reports. -/
def toolName : String := "gl-redirect"

/-- The version of the program. -/
def toolVersion : String := "0.1.0"

/-- The schema of the report. -/
def sarifSchema : String :=
  "https://schemastore.azurewebsites.net/schemas/json/sarif-2.1.0.json"

/-- The report of one run. -/
def sarifReport (artifacts : List Artifact) (results : List Finding) (invocation : Invocation) :
    JsonValue :=
  let tool : JsonValue := .object
    [("driver", .object [("name", .string toolName), ("version", .string toolVersion)])]
  let run : JsonValue := .object
    ([("tool", tool), ("invocations", .array [invocation.toJson]),
        ("results", .array (results.map Finding.toJson))] ++
      if artifacts.isEmpty then [] else [("artifacts", .array (artifacts.map Artifact.toJson))])
  .object [("$schema", .string sarifSchema), ("version", .string "2.1.0"), ("runs", .array [run])]

end Rewire
