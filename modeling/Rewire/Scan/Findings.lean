import Rewire.Transform.Transformer

/-!
# What a scan finds

This file fixes what is collected while files are scanned (`Findings`): the files and archive
entries seen (`Artifact`), numbers of classes and calls, and what happened to calls and methods.
-/

namespace Rewire

/-- A file or archive entry that was seen. -/
structure Artifact where
  uri : String
  /-- The number of bytes, where it is known. -/
  length : Option Nat := none
  /-- The place of the archive that holds the entry among the artifacts. -/
  parent : Option Nat := none
  /-- The parts it plays in the run. -/
  roles : List String := []
  deriving DecidableEq, Repr, Inhabited

/-- The role of what was given to be scanned. -/
def analysisTarget : String := "analysisTarget"

/-- What a scan found and did. -/
structure Findings where
  artifacts : List Artifact := []
  classes : Nat := 0
  modified : Nat := 0
  redirected : Nat := 0
  stubbed : List StubbedCall := []
  /-- The methods that lost attributes, with the names of their classes. -/
  dropped : List (String × DroppedAttributes) := []
  deriving Repr, Inhabited

namespace Findings

/-- The findings with one more artifact, and its place. -/
def addArtifact (f : Findings) (a : Artifact) : Nat × Findings :=
  (f.artifacts.length, { f with artifacts := f.artifacts ++ [a] })

/-- The findings with one more class. -/
def addClass (f : Findings) : Findings :=
  { f with classes := f.classes + 1 }

/-- The findings with what was done to a class. -/
def addTransformed (f : Findings) (name : String) (t : Transformer.Transformed) : Findings :=
  { f with
    modified := f.modified + if t.modified then 1 else 0
    redirected := f.redirected + t.redirected
    stubbed := f.stubbed ++ t.stubbed
    dropped := f.dropped ++ t.dropped.map fun d => (name, d) }

end Findings

end Rewire
