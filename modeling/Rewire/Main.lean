import Rewire.CommandLine.Run

/-!
# The program

The outer layer reads the files that are named on the command line, runs the program on them, and
writes what it changed. When the input is no file it is taken for a directory, and the files below
it are read from standard input, one path a line.
-/

namespace Rewire.Program

/-! ## 1. Reading -/

/-- The tree with the file at a path, if it can be read. -/
def readFile (files : FileTree) (path : String) : IO FileTree := do
  try
    let data ← IO.FS.readBinFile path
    let placed := do
      (← files.makeDirectoriesAt (parentPath path)).writeAt path data.data.toList
    return placed.toOption.getD files
  catch _ => return files

/-- The paths on standard input. -/
def listedPaths : IO (List String) := do
  let text ← (← IO.getStdin).readToEnd
  return (text.splitOn "\n").filter (· ≠ "")

/-- The files that the options name, and the directory that the report goes to. -/
def readFiles (o : Options) : IO FileTree := do
  let files ← (o.config.toList ++ o.sandbox ++ [o.input]).foldlM readFile .empty
  let files ← if files.exists? o.input then pure files else (← listedPaths).foldlM readFile files
  let directories := o.report.toList.map parentPath
  return directories.foldl (fun t d => (t.makeDirectoriesAt d).toOption.getD t) files

/-! ## 2. Writing -/

mutual

/-- Writes a file or directory to a path. -/
def writeTree (path : String) : FileTree → IO Unit
  | .file content => IO.FS.writeBinFile path ⟨content.toArray⟩
  | .directory entries => do
    IO.FS.createDirAll path
    writeEntries path entries

/-- Writes what is in a directory. -/
def writeEntries (path : String) : List (String × FileTree) → IO Unit
  | [] => return ()
  | (name, t) :: rest => do
    writeTree (joinPath path name) t
    writeEntries path rest

end

/-- Writes what is at a path of the tree, in directories that are made if they are missing. -/
def writePath (files : FileTree) (path : String) : IO Unit := do
  match files.at? path with
  | .ok t =>
    let parent := parentPath path
    if parent ≠ "" then IO.FS.createDirAll parent
    writeTree path t
  | .error _ => return ()

/-! ## 3. Running -/

/-- The files before a run. -/
def filesFor (arguments : List String) : IO FileTree :=
  match CommandLine.ofArguments arguments with
  | .run o => readFiles o
  | _ => return .empty

/-- Writes what a run may have changed. -/
def writeResults (arguments : List String) (files : FileTree) : IO Unit := do
  match CommandLine.ofArguments arguments with
  | .run o => (o.output.toList ++ o.report.toList.filter (· ≠ "-")).forM (writePath files)
  | _ => return ()

end Rewire.Program

open Rewire Rewire.Program in
/-- Runs the program with the arguments of the command line. -/
def main (arguments : List String) : IO UInt32 := do
  let started ← IO.monoMsNow
  let r := runProgram programName arguments (← filesFor arguments)
  IO.print r.stdout
  writeResults arguments r.files
  r.stderr.forM IO.eprintln
  if let some text := r.timing then
    IO.eprintln s!"timing: total_ms={(← IO.monoMsNow) - started}{text}"
  return r.exitCode
