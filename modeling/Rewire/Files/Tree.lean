import Rewire.Fault
import Rewire.Files.Path

/-!
# File trees

The files that a run reads and writes, as a value. This file fixes

* trees of files and directories (`FileTree`), in which the names of a directory are in order;
* looking a path up, reading and listing, writing, and making directories, with the ways in which
  each can fail.
-/

namespace Rewire

/-! ## 1. Trees -/

/-- A file, or a directory with its names in order. -/
inductive FileTree where
  | file (content : Bytes)
  | directory (entries : List (String × FileTree))
  deriving Repr, Inhabited

namespace FileTree

/-- The empty directory. -/
def empty : FileTree := directory []

/-- Whether this is a directory. -/
def isDirectory : FileTree → Bool
  | directory _ => true
  | file _ => false

/-- The names and trees with the tree of a name replaced or added in order. -/
def setEntry (name : String) (t : FileTree) : List (String × FileTree) → List (String × FileTree)
  | [] => [(name, t)]
  | (k, v) :: rest =>
    if name = k then (k, t) :: rest
    else if name < k then (name, t) :: (k, v) :: rest
    else (k, v) :: setEntry name t rest

/-- What is at the end of some steps. -/
def find (t : FileTree) : List String → Outcome FileTree
  | [] => .ok t
  | s :: rest =>
    match t with
    | file _ => fail .notADirectory
    | directory entries =>
      match entries.lookup s with
      | some t => t.find rest
      | none => fail .noSuchFile

/-- Makes the directories on the way of some steps that are missing. -/
def makeDirectories (t : FileTree) : List String → Outcome FileTree
  | [] =>
    match t with
    | directory _ => .ok t
    | file _ => fail .fileExists
  | s :: rest =>
    match t with
    | file _ => fail .notADirectory
    | directory entries => do
      let child ← ((entries.lookup s).getD empty).makeDirectories rest
      return directory (setEntry s child entries)

/-- Puts a file at the end of some steps; its directory has to be there. -/
def write (content : Bytes) (t : FileTree) : List String → Outcome FileTree
  | [] =>
    match t with
    | directory _ => fail .isADirectory
    | file _ => .ok (file content)
  | s :: rest =>
    match t with
    | file _ => fail .notADirectory
    | directory entries =>
      match entries.lookup s, rest with
      | none, [] => .ok (directory (setEntry s (file content) entries))
      | none, _ :: _ => fail .noSuchFile
      | some child, rest => do
        return directory (setEntry s (← child.write content rest) entries)

/-! ## 2. Paths -/

/-- What a path leads to. The empty path leads nowhere. -/
def at? (t : FileTree) (path : String) : Outcome FileTree :=
  if path = "" then fail .noSuchFile else t.find (pathSteps path)

/-- Whether there is something at a path. -/
def exists? (t : FileTree) (path : String) : Bool :=
  (t.at? path).isOk

/-- Whether there is a directory at a path. -/
def directoryAt (t : FileTree) (path : String) : Bool :=
  match t.at? path with
  | .ok t => t.isDirectory
  | .error _ => false

/-- The content of the file at a path. -/
def read (t : FileTree) (path : String) : Outcome Bytes := do
  match ← t.at? path with
  | file content => return content
  | directory _ => fail .isADirectory

/-- The names in the directory at a path, in order. -/
def list (t : FileTree) (path : String) : Outcome (List String) := do
  match ← t.at? path with
  | directory entries => return entries.map Prod.fst
  | file _ => fail .notADirectory

/-- The tree with a file at a path. -/
def writeAt (t : FileTree) (path : String) (content : Bytes) : Outcome FileTree :=
  if path = "" then fail .noSuchFile else t.write content (pathSteps path)

/-- The tree with the directories of a path. -/
def makeDirectoriesAt (t : FileTree) (path : String) : Outcome FileTree :=
  t.makeDirectories (pathSteps path)

mutual

/-- Number of files and directories. -/
def count : FileTree → Nat
  | file _ => 1
  | directory entries => 1 + countEntries entries

/-- Number of files and directories below some names. -/
def countEntries : List (String × FileTree) → Nat
  | [] => 0
  | (_, t) :: rest => t.count + countEntries rest

end

end FileTree

end Rewire
