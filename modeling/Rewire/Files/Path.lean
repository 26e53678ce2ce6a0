/-!
# Paths

A path is a text with slashes. This file fixes

* the steps of a path (`pathSteps`): empty steps and steps that stay in place do not count, and a
  step upwards takes the step before it back;
* the parts of a path that the scan looks at: its last name (`fileName?`), the ending of that name
  (`pathExtension`), and the path without it (`parentPath`);
* putting a name behind a path (`joinPath`).
-/

namespace Rewire

/-- The steps of a path from the working directory. -/
def pathSteps (path : String) : List String :=
  (path.splitOn "/").foldl
    (fun steps s =>
      if s = "" ∨ s = "." then steps
      else if s = ".." then steps.dropLast
      else steps ++ [s])
    []

/-- The steps of a path as they are spelled, without those that stay in place. -/
def spelledSteps (path : String) : List String :=
  (path.splitOn "/").filter fun s => s ≠ "" ∧ s ≠ "."

/-- The last name of a path, unless it leads upwards. -/
def fileName? (path : String) : Option String :=
  match (spelledSteps path).getLast? with
  | some ".." | none => none
  | some name => some name

/-- What follows the last dot of a name that does not start with it; nothing if there is none. -/
def nameExtension (name : String) : String :=
  match (name.splitOn ".").reverse with
  | last :: before =>
    if before.isEmpty ∨ before = [""] then "" else last
  | [] => ""

/-- The ending of the last name of a path. -/
def pathExtension (path : String) : String :=
  ((fileName? path).map nameExtension).getD ""

/-- The path of the directory that holds a path; empty for a single name. -/
def parentPath (path : String) : String :=
  let start := if path.startsWith "/" then "/" else if path.startsWith "./" then "./" else ""
  start ++ "/".intercalate (spelledSteps path).dropLast

/-- A name behind a path. -/
def joinPath (path name : String) : String :=
  if path = "" ∨ path.endsWith "/" then path ++ name else path ++ "/" ++ name

end Rewire
