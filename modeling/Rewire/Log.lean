import Rewire.Pool.Basic

/-!
# The log

Operations report what happened on the way with notices, also when they fail later. This file
fixes

* the severities (`Severity`) and notices (`Notice`), with the one wording of each
  (`Notice.text`), its severity and the part of the program it comes from;
* steps that write to a log and keep it when they fail (`Logged`), and such steps that add to a
  constant pool as well (`Assembly`).
-/

namespace Rewire

/-! ## 1. Notices -/

/-- How much a notice matters, the most important first. -/
inductive Severity where
  | error
  | warn
  | info
  | debug
  | trace
  deriving DecidableEq, Repr, Inhabited

namespace Severity

/-- The place of a severity in the order of importance. -/
def rank : Severity → Nat
  | error => 1
  | warn => 2
  | info => 3
  | debug => 4
  | trace => 5

/-- The name of a severity. -/
def name : Severity → String
  | error => "ERROR"
  | warn => "WARN"
  | info => "INFO"
  | debug => "DEBUG"
  | trace => "TRACE"

end Severity

/-- A member as messages show it. -/
def Member.text (m : Member) : String :=
  s!"{m.owner}.{m.name}{m.descriptor}"

/-- Something worth reporting. Members given as `place` are the methods in which it happened. -/
inductive Notice where
  -- assembling
  | emptyHandlerDropped (name descriptor : String)
  | framesLost (name descriptor : String) (reason : Failure)
  | attributesLost (attributes : List String) (place : Member)
  -- redirecting
  | constructorKept (call place : Member)
  | noStaticTarget (call place : Member)
  | callRedirected (call place : Member) (owner : String)
  | callUnimplemented (call place : Member)
  | sandboxReadDirectly (reason : Failure)
  -- transforming
  | ruleApplied (id : String) (place : Member)
  | tableBuilt (size : Nat)
  | unreadableSkipped (name : String) (reason : Failure)
  -- scanning
  | classChanged (name : String) (redirected stubbed : Nat) (rules : List String)
  | fileCopied (path : String)
  | fileSkipped (path : String)
  | scanFinished (classes modified redirected stubbed : Nat)
  deriving DecidableEq, Repr

namespace Notice

/-- How much a notice matters. -/
def severity : Notice → Severity
  | attributesLost _ _ | callUnimplemented _ _ => .warn
  | callRedirected _ _ _ => .trace
  | scanFinished _ _ _ _ => .info
  | _ => .debug

/-- The part of the program a notice comes from. -/
def component : Notice → String
  | emptyHandlerDropped _ _ | framesLost _ _ _ => "gl_redirect::assembler"
  | attributesLost _ _ => "gl_redirect::classfile"
  | constructorKept _ _ | noStaticTarget _ _ | callRedirected _ _ _ | callUnimplemented _ _
  | sandboxReadDirectly _ => "gl_redirect::redirect"
  | ruleApplied _ _ => "gl_redirect::rules"
  | tableBuilt _ | unreadableSkipped _ _ => "gl_redirect::transformer"
  | classChanged _ _ _ _ | fileCopied _ | fileSkipped _ => "gl_redirect::scan"
  | scanFinished _ _ _ _ => "glredirect"

/-- Quoted texts in brackets. -/
private def quotedList (texts : List String) : String :=
  "[" ++ ", ".intercalate (texts.map fun t => "\"" ++ t ++ "\"") ++ "]"

/-- The wording of a notice. -/
def text : Notice → String
  | emptyHandlerDropped name descriptor =>
    s!"dropping empty handler range in {name}{descriptor}"
  | framesLost name descriptor reason =>
    s!"cannot remap frames of {name}{descriptor}: " ++ reason.message
  | attributesLost attributes place =>
    "dropped " ++ ", ".intercalate attributes ++ " from " ++ place.text
  | constructorKept call place =>
    "leaving constructor call " ++ call.text ++ " in method " ++ place.text
  | noStaticTarget call place =>
    "instance call " ++ call.text ++ " in method " ++ place.text ++
      " has no static redirect target"
  | callRedirected call place owner =>
    "Redirecting OpenGL call " ++ call.text ++ " in method " ++ place.text ++ " to " ++ owner
  | callUnimplemented call place =>
    "Unimplemented OpenGL call " ++ call.text ++ " in method " ++ place.text ++
      ": it will be removed"
  | sandboxReadDirectly reason =>
    "jclassfile rejected sandbox class (" ++ reason.message ++ "); reading members directly"
  | ruleApplied id place => s!"applied patch rule {id} to " ++ place.text
  | tableBuilt size => s!"redirect table has {size} entries"
  | unreadableSkipped name reason => s!"skipping unreadable class {name}: " ++ reason.message
  | classChanged name redirected stubbed rules =>
    s!"rewrote {name}: redirected={redirected} stubbed={stubbed} rules=" ++ quotedList rules
  | fileCopied path => s!"copying {path} unchanged"
  | fileSkipped path => s!"skipping {path}"
  | scanFinished classes modified redirected stubbed =>
    s!"classes={classes} modified={modified} redirected={redirected} stubbed={stubbed}"

end Notice

/-! ## 2. Steps with a log -/

/-- Notices in the order they were made. -/
abbrev Log := Array Notice

/-- A step that writes to a log, which is kept also when the step fails. -/
abbrev Logged := ExceptT Failure (StateM Log)

/-- A step that adds to a constant pool and writes to a log, which are both kept when it fails. -/
abbrev Assembly := ExceptT Failure (StateT ConstantPool (StateM Log))

/-- Adds a notice to the log. -/
def Logged.note (n : Notice) : Logged Unit :=
  ExceptT.mk fun log => (.ok (), log.push n)

/-- Adds a notice to the log. -/
def Assembly.note (n : Notice) : Assembly Unit :=
  ExceptT.mk fun pool log => ((.ok (), pool), log.push n)

/-- A step on the constant pool as a step with a log. -/
def Assembly.ofPoolStep {α : Type} (x : ConstantPool.PoolStep α) : Assembly α :=
  ExceptT.mk fun pool log => (x pool, log)

instance : MonadLift ConstantPool.PoolStep Assembly := ⟨Assembly.ofPoolStep⟩

/-- Runs a step from an empty log. -/
def Logged.start {α : Type} (x : Logged α) : Outcome α × Log :=
  x #[]

/-- Runs a step on a pool from within a step with a log, and gives back the grown pool. -/
def Assembly.onPool {α : Type} (x : Assembly α) (pool : ConstantPool) :
    Logged (α × ConstantPool) :=
  ExceptT.mk fun log =>
    match x pool log with
    | ((.ok a, pool), log) => (.ok (a, pool), log)
    | ((.error f, _), log) => (.error f, log)

end Rewire
