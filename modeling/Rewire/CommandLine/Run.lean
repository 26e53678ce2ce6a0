import Rewire.CommandLine.Options
import Rewire.Report.Sarif
import Rewire.Scan.Walk
import Rewire.Transform.SettingsJson

/-!
# Running the program

A run takes arguments and files to what is printed and to changed files. This file fixes

* the outcome of a run (`RunResult`);
* the steps of a run (`performRun`): input and sandbox classes have to exist, settings are read, a
  transformer is made, the input is scanned, and the findings are reported;
* what is printed of the log (`logLines`) and of a failure (`failureLines`);
* the whole run (`runProgram`).
-/

namespace Rewire

/-! ## 1. Printing -/

/-- A run that is over. -/
structure RunResult where
  exitCode : UInt32
  stdout : String := ""
  stderr : List String := []
  files : FileTree
  /-- Whether the run ended well with the time it took to be printed, and then what follows the
      time. -/
  timing : Option String := none
  deriving Inhabited

/-- The least important severity that is printed. -/
def Options.verbosity (o : Options) : Severity :=
  if o.verbose then .debug else if o.quiet then .error else .warn

/-- A notice as it is printed, after the time. -/
def logLine (n : Notice) : String :=
  let level := n.severity.name
  "[" ++ level ++ String.ofList (List.replicate (5 - level.length) ' ') ++ " " ++ n.component ++
    "] " ++ n.text

/-- The notices of a log that are printed. -/
def logLines (verbosity : Severity) (log : Log) : List String :=
  (log.toList.filter fun n => n.severity.rank ≤ verbosity.rank).map logLine

/-- A failure as it is printed: the outermost text, then the causes, numbered if there are
    several. -/
def failureLines (f : Failure) : List String :=
  match f.chain with
  | [] => []
  | [text] => ["Error: " ++ text]
  | [text, cause] => ["Error: " ++ text, "", "Caused by:", "    " ++ cause]
  | text :: causes =>
    ["Error: " ++ text, "", "Caused by:"] ++
      causes.zipIdx.map fun (cause, i) => s!"    {i}: " ++ cause

/-! ## 2. Steps -/

/-- Requires that files exist. -/
def checkInputs (files : FileTree) (o : Options) : Outcome Unit := do
  if !files.exists? o.input then fail (.inputNotFound o.input)
  match o.sandbox.find? fun path => !files.exists? path with
  | some path => fail (.sandboxNotFound path)
  | none => return ()

/-- The settings of a run, with the sandbox classes given as arguments behind those in the
    settings. -/
def runSettings (files : FileTree) (o : Options) : Outcome Settings := do
  let s ← match o.config with
    | some path => Settings.ofFile path (files.read path)
    | none => pure {}
  return { s with sandboxClasses := s.sandboxClasses ++ o.sandbox }

/-- Writes the report, and gives what it prints. -/
def writeReport (arguments : List String) (o : Options) : Scan String := do
  match o.report with
  | none => return ""
  | some path =>
    let findings := (← get).findings
    let text := (sarifReport findings.artifacts findings.results
      (Invocation.ofArguments arguments)).print ++ "\n"
    if path = "-" then return text
    during (.opening path) (Scan.change (·.writeAt path text.toUTF8.toList))
    return ""

/-- The steps of a run, which give what is printed. -/
def performRun (arguments : List String) (o : Options) : Scan String := do
  let files := (← get).files
  checkInputs files o
  let settings ← (runSettings files o : Outcome Settings)
  let t ← Scan.ofLogged (Transformer.ofSettings files.read settings)
  scanInputs t o.input o.output
  let f := (← get).findings
  Scan.note (.scanFinished f.classes f.modified f.redirected f.stubbed.length)
  writeReport arguments o

/-! ## 3. Runs -/

/-- What follows the time in the line about it. -/
def timingText (f : Findings) : String :=
  s!" classes={f.classes} modified={f.modified}"

/-- Runs the program with options. -/
def runOptions (arguments : List String) (o : Options) (files : FileTree) : RunResult :=
  let (r, s) := performRun arguments o { files }
  let printed := logLines o.verbosity s.log
  match r with
  | .ok stdout =>
    { exitCode := 0, stdout, stderr := printed, files := s.files
      timing := if o.timing && !o.quiet then some (timingText s.findings) else none }
  | .error f => { exitCode := 1, stderr := printed ++ failureLines f, files := s.files }

/-- The name under which the program is called. -/
def programName : String := "glredirect"

/-- What is printed for the option that asks for the version. -/
def versionText : String := programName ++ " " ++ toolVersion ++ "\n"

/-- What is printed for the option that asks for help. -/
def helpText : String :=
  "Rewrites JVM classes so legacy OpenGL calls reach a replacement renderer.\n\n" ++
  "Usage: glredirect [OPTIONS] --input <PATH>\n\n" ++
  "Options:\n" ++
  "      --input <PATH>    Class file, jar, or directory of classes\n" ++
  "      --output <PATH>   Where the rewritten classes go; omit for a dry run\n" ++
  "      --config <PATH>   JSON transformer configuration\n" ++
  "      --sandbox <PATH>  Sandbox class file whose methods become redirect targets\n" ++
  "      --report <PATH>   SARIF report of stubbed calls and dropped frames; `-` for stdout\n" ++
  "      --quiet           \n" ++
  "      --timing          \n" ++
  "      --verbose         \n" ++
  "  -h, --help            Print help\n" ++
  "  -V, --version         Print version\n"

/-- Runs the program with arguments, the program's name not included. -/
def runProgram (program : String) (arguments : List String) (files : FileTree) : RunResult :=
  match CommandLine.ofArguments arguments with
  | .run o => runOptions (program :: arguments) o files
  | .help => { exitCode := 0, stdout := helpText, files }
  | .version => { exitCode := 0, stdout := versionText, files }
  | .misuse =>
    { exitCode := 2, stderr := ["error: the arguments are not understood", "",
        "For more information, try '--help'."], files }

end Rewire
