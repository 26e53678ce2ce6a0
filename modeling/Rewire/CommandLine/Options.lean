/-!
# Command-line options

This file fixes the options of the program (`Options`) and how arguments are read
(`CommandLine.ofArguments`). A value stands after its option or behind an equals sign; it must not
be empty, nor look like an option when it stands alone. Except for sandbox classes, every option is
given at most once. Help and version win over anything that comes after them.
-/

namespace Rewire

/-- What the user asked for. -/
structure Options where
  input : String
  output : Option String := none
  config : Option String := none
  sandbox : List String := []
  report : Option String := none
  quiet : Bool := false
  timing : Bool := false
  verbose : Bool := false
  deriving DecidableEq, Repr, Inhabited

/-- What a list of arguments means. -/
inductive CommandLine where
  | run (options : Options)
  | help
  | version
  /-- The arguments are not understood. -/
  | misuse
  deriving DecidableEq, Repr, Inhabited

namespace CommandLine

/-! ## 1. Options one by one -/

/-- An option and its value, as they are given. -/
inductive Setting where
  | input (path : String)
  | output (path : String)
  | config (path : String)
  | sandbox (path : String)
  | report (path : String)
  | quiet
  | timing
  | verbose
  deriving DecidableEq, Repr

/-- The option with a value that has the given name. -/
def valued? (name : String) : Option (String → Setting) :=
  if name = "--input" then some .input
  else if name = "--output" then some .output
  else if name = "--config" then some .config
  else if name = "--sandbox" then some .sandbox
  else if name = "--report" then some .report
  else none

/-- The option without a value that has the given name. -/
def flag? (name : String) : Option Setting :=
  if name = "--quiet" then some .quiet
  else if name = "--timing" then some .timing
  else if name = "--verbose" then some .verbose
  else none

/-- The settings so far. The input is missing until it is given. -/
structure Partial where
  input : Option String := none
  rest : Options := { input := "" }
  deriving Repr

/-- The settings with one more, unless it was given before and can only be given once. -/
def Partial.set? (p : Partial) : Setting → Option Partial
  | .input path => if p.input.isSome then none else some { p with input := path }
  | .output path =>
    if p.rest.output.isSome then none else some { p with rest := { p.rest with output := path } }
  | .config path =>
    if p.rest.config.isSome then none else some { p with rest := { p.rest with config := path } }
  | .sandbox path => some { p with rest := { p.rest with sandbox := p.rest.sandbox ++ [path] } }
  | .report path =>
    if p.rest.report.isSome then none else some { p with rest := { p.rest with report := path } }
  | .quiet => if p.rest.quiet then none else some { p with rest := { p.rest with quiet := true } }
  | .timing => if p.rest.timing then none else some { p with rest := { p.rest with timing := true } }
  | .verbose =>
    if p.rest.verbose then none else some { p with rest := { p.rest with verbose := true } }

/-! ## 2. Arguments -/

/-- The parts of an argument before and behind its first equals sign. -/
def splitValue (argument : String) : String × Option String :=
  match argument.splitOn "=" with
  | name :: v :: rest => (name, some ("=".intercalate (v :: rest)))
  | _ => (argument, none)

/-- Whether an argument looks like an option. -/
def looksLikeOption (argument : String) : Bool :=
  argument.startsWith "-" && argument ≠ "-"

/-- What the settings mean when no argument is left. -/
def finish (p : Partial) : CommandLine :=
  match p.input with
  | some input => .run { p.rest with input }
  | none => .misuse

/-- What the arguments mean after the settings so far. Two dashes end the options. -/
def continueWith (p : Partial) : List String → CommandLine
  | [] => finish p
  | argument :: rest =>
    let (name, value) := splitValue argument
    if argument = "--" then if rest.isEmpty then finish p else .misuse
    else if argument = "--help" ∨ argument.startsWith "-h" then .help
    else if argument = "--version" ∨ argument.startsWith "-V" then .version
    else
      match valued? name, flag? name, value, rest with
      | some make, _, some v, rest =>
        if v = "" then .misuse
        else
          match p.set? (make v) with
          | some p => continueWith p rest
          | none => .misuse
      | some make, _, none, v :: rest =>
        if v = "" ∨ looksLikeOption v then .misuse
        else
          match p.set? (make v) with
          | some p => continueWith p rest
          | none => .misuse
      | none, some setting, none, rest =>
        match p.set? setting with
        | some p => continueWith p rest
        | none => .misuse
      | _, _, _, _ => .misuse

/-- What a list of arguments means, the program's name not included. -/
def ofArguments (arguments : List String) : CommandLine :=
  continueWith {} arguments

end CommandLine

end Rewire
