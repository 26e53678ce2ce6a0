import Rewire.Archive.Read
import Rewire.Files.Tree
import Rewire.Scan.Findings

/-!
# Scanning files

A scan transforms every class it finds below a path and, if it is given a place for it, writes the
transformed tree there: a class file as a class file, an archive as an archive with its entries in
their order, a directory as a directory. This file fixes

* scanning steps (`Scan`), whose effects on files, log and findings remain when they fail;
* the class in a byte string (`scanClass`), the class file (`scanClassFile`), the archive
  (`scanArchive`) and the directory (`scanDirectory`) at a path;
* the whole scan (`scanInputs`). Below a directory, names are visited in order and files of other
  kinds are copied; a single file of another kind is refused.
-/

namespace Rewire

/-! ## 1. Steps -/

/-- What scanning works on. -/
structure ScanState where
  files : FileTree
  log : Log := #[]
  findings : Findings := {}

/-- A scanning step. -/
abbrev Scan := ExceptT Failure (StateM ScanState)

namespace Scan

/-- A step with a log as a scanning step. -/
def ofLogged {α : Type} (x : Logged α) : Scan α :=
  ExceptT.mk fun s =>
    let (r, log) := x s.log
    (r, { s with log })

/-- Adds a notice to the log. -/
def note (n : Notice) : Scan Unit :=
  modify fun s => { s with log := s.log.push n }

/-- Adds an artifact and gives its place. -/
def addArtifact (a : Artifact) : Scan Nat :=
  modifyGet fun s =>
    let (i, findings) := s.findings.addArtifact a
    (i, { s with findings })

/-- Changes the findings. -/
def find (f : Findings → Findings) : Scan Unit :=
  modify fun s => { s with findings := f s.findings }

/-- Changes the files. -/
def change (f : FileTree → Outcome FileTree) : Scan Unit := do
  let files ← (f (← get).files : Outcome FileTree)
  modify fun s => { s with files }

/-- Makes the directory that holds a path. -/
def makeParent (path : String) : Scan Unit := do
  let parent := parentPath path
  if parent ≠ "" then during (.creating parent) (change (·.makeDirectoriesAt parent))

end Scan

/-! ## 2. Classes -/

/-- The bytes of a class after transformation; `origin` is where the class comes from. -/
def scanClass (t : Transformer Unit) (origin : String) (data : Bytes) : Scan Bytes := do
  let name ← (during (.parsing origin) (do (← ClassFile.read data).name) : Outcome String)
  let name := dotted name
  Scan.find Findings.addClass
  let wanted ← Scan.ofLogged (ExceptT.lift (t.shouldTransform name data))
  if !wanted then return data
  let done ← during (.transforming origin) (Scan.ofLogged (t.transformClass name data).logged)
  if done.modified then
    Scan.note (.classChanged name done.redirected done.stubbed.length done.rules)
  Scan.find (·.addTransformed name done)
  return done.bytes

/-- Scans the class file at a path. -/
def scanClassFile (t : Transformer Unit) (path : String) (output : Option String)
    (roles : List String) : Scan Unit := do
  let data ← (during (.reading path) ((← get).files.read path) : Outcome Bytes)
  let done ← scanClass t path data
  if let some output := output then
    Scan.makeParent output
    during (.writing output) (Scan.change (·.writeAt output done))
  let _ ← Scan.addArtifact { uri := path, length := some data.length, roles }

/-! ## 3. Archives -/

/-- Whether an entry of an archive is a class to be scanned. -/
def isClassEntry (name : String) : Bool :=
  name.endsWith ".class" && !name.endsWith "module-info.class"

/-- The entry after the scan of the archive at a path, whose artifact has the given place.
    Directories have no data. -/
def scanEntry (t : Transformer Unit) (path : String) (place : Nat) (archive : Array UInt8)
    (item : ArchiveItem) : Scan ArchiveEntry := do
  if item.isDirectory then
    return { name := item.name, data := [], method := .stored, stamp := item.stamp }
  let origin := path ++ ":" ++ item.name
  let e ← (during (.reading origin) (item.entry archive) : Outcome ArchiveEntry)
  if !isClassEntry e.name then return e
  let data ← scanClass t origin e.data
  let _ ← Scan.addArtifact
    { uri := "jar:" ++ path ++ "!/" ++ e.name
      length := some e.data.length
      parent := some place }
  return { e with data }

/-- Scans entries one by one up to the first failure, and gives those that are done, which in
    reverse come before those in `done`. -/
def scanEntries (t : Transformer Unit) (path : String) (place : Nat) (archive : Array UInt8)
    (done : List ArchiveEntry) :
    List ArchiveItem → StateM ScanState (Outcome Unit × List ArchiveEntry)
  | [] => return (.ok (), done.reverse)
  | item :: rest => do
    match ← (scanEntry t path place archive item).run with
    | .ok e => scanEntries t path place archive (e :: done) rest
    | .error f => return (.error f, done.reverse)

/-- Scans the archive at a path. When an entry fails, the entries before it have been written. -/
def scanArchive (t : Transformer Unit) (path : String) (output : Option String)
    (roles : List String) : Scan Unit := do
  let data ← (during (.opening path) ((← get).files.read path) : Outcome Bytes)
  let archive := data.toArray
  let items ← (during (.reading path) (readArchive archive) : Outcome (List ArchiveItem))
  if let some output := output then
    Scan.makeParent output
    during (.creating output) (Scan.change (·.writeAt output []))
  let place ← Scan.addArtifact { uri := path, length := some data.length, roles }
  let (result, entries) ← (scanEntries t path place archive [] items :
    StateM ScanState (Outcome Unit × List ArchiveEntry))
  if let some output := output then
    during (.writing output) (Scan.change (·.writeAt output (archiveBytes entries)))
  (result : Outcome Unit)

/-! ## 4. Directories -/

/-- Copies the file at a path that is no class and no archive. The new file is empty until the old
    one has been read. -/
def copyFile (path : String) (output : Option String) : Scan Unit := do
  match output with
  | none => Scan.note (.fileSkipped path)
  | some output =>
    Scan.note (.fileCopied path)
    Scan.makeParent output
    during (.copying path output) do
      let _ ← ((← get).files.read path : Outcome Bytes)
      Scan.change (·.writeAt output [])
      let content ← ((← get).files.read path : Outcome Bytes)
      Scan.change (·.writeAt output content)

/-- Scans the file at a path. -/
def scanFile (t : Transformer Unit) (path : String) (output : Option String) (isInput : Bool) :
    Scan Unit :=
  let roles := if isInput then [analysisTarget] else []
  let ending := pathExtension path
  if ending = "class" then scanClassFile t path output roles
  else if ending = "jar" then scanArchive t path output roles
  else if isInput then fail (.unsupportedInput path)
  else copyFile path output

/-- Scans the directory at a path, at most `depth` levels deep. -/
def scanDirectory (t : Transformer Unit) : Nat → String → Option String → Scan Unit
  | 0, _, _ => return ()
  | depth + 1, path, output => do
    let names ← (during (.listing path) ((← get).files.list path) : Outcome (List String))
    for name in names do
      let child := joinPath path name
      let output := output.map fun o => joinPath o name
      if (← get).files.directoryAt child then scanDirectory t depth child output
      else scanFile t child output false

/-- Scans what is at a path. Directories made on the way are visited only where they were there
    when their directory was listed, so no path is deeper than there are files and directories and
    steps to the output. -/
def scanInputs (t : Transformer Unit) (input : String) (output : Option String) : Scan Unit := do
  let files := (← get).files
  if files.directoryAt input then
    scanDirectory t (2 * (files.count + (output.getD "").length + 2)) input output
  else scanFile t input output true

end Rewire
