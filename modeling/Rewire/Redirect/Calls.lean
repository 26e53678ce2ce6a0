import Rewire.Descriptor.Scanner
import Rewire.Log
import Rewire.Redirect.Filter
import Rewire.Redirect.Table

/-!
# Redirecting calls

Every watched call of a method is either sent to its replacement or, where there is none, replaced
by instructions that leave the stack as the call would. This file fixes

* these instructions (`stubFor`): the arguments are dropped, the last one first, then the receiver,
  and a zero of the result type is pushed;
* what happens to one node (`Treatment`, `treat`) and what is reported about it (`noticesFor`).
  Only static calls have replacements; constructor calls stay as they are;
* redirection of a whole method (`redirectCalls`). It stops at the first call that needs a stub and
  has no well-formed descriptor; the method is then left without nodes, and flagged as modified if
  a call before that one was changed.
-/

namespace Rewire

/-! ## 1. Stubs -/

/-- Instructions with the same effect on the stack as a call. -/
def stubFor (call : CallSite) : Outcome (List Insn) := do
  let d ← Descriptor.parse call.descriptor
  let receiver := if call.isStatic then [] else [Opcode.pop]
  let opcodes := d.arguments.reverse.filterMap Category.popOpcode? ++ receiver ++
    d.result.zeroOpcode?.toList
  return opcodes.map Insn.simple

/-- A call that was replaced by a stub, and the method it stood in. -/
structure StubbedCall where
  place : Member
  call : Member
  deriving DecidableEq, Repr, Inhabited

/-! ## 2. One node -/

/-- What redirection does with a node. -/
inductive Treatment where
  /-- The node is no call, or not one to be redirected. -/
  | keep (node : Node)
  /-- The call goes to its replacement. -/
  | redirect (before after : CallSite)
  /-- The call has no replacement. -/
  | stub (call : CallSite) (insns : List Insn)
  deriving Repr

namespace Treatment

/-- The nodes in place of the treated one. -/
def nodes : Treatment → List Node
  | keep node => [node]
  | redirect _ after => [.insn (.call after)]
  | stub _ insns => insns.map .insn

/-- Whether the treatment counts as a modification. -/
def changes : Treatment → Bool
  | keep _ => false
  | redirect before after => before ≠ after
  | stub _ _ => true

/-- Whether a call was sent to its replacement. -/
def isRedirect : Treatment → Bool
  | redirect _ _ => true
  | _ => false

/-- The call that was replaced by a stub. -/
def stubbed? : Treatment → Option CallSite
  | stub call _ => some call
  | _ => none

end Treatment

/-- The name of constructors. -/
def constructorName : String := "<init>"

/-- The class that implements the replacement of a call. -/
def replacementOwner? (table : RedirectTable) (call : CallSite) : Option String :=
  if call.isStatic then table.owner? call.name call.descriptor else none

/-- What redirection does with a watched call. -/
def treatWatched (table : RedirectTable) (call : CallSite) : Outcome Treatment :=
  if call.name = constructorName then .ok (.keep (.insn (.call call)))
  else
    match replacementOwner? table call with
    | some owner => .ok (.redirect call { call with owner, interface := false })
    | none => do
      let insns ← during (.stubbing call.owner call.name call.descriptor) (stubFor call)
      return .stub call insns

/-- What redirection does with a node. -/
def treat (table : RedirectTable) (filter : CallFilter) : Node → Outcome Treatment
  | .insn (.call call) =>
    if filter.watches call.owner call.name then treatWatched table call
    else .ok (.keep (.insn (.call call)))
  | node => .ok (.keep node)

/-- What is reported about a watched call. -/
def noticesForWatched (place : Member) (table : RedirectTable) (call : CallSite) : List Notice :=
  if call.name = constructorName then [.constructorKept call.toMember place]
  else
    match replacementOwner? table call with
    | some owner => [.callRedirected call.toMember place owner]
    | none =>
      (if call.isStatic then [] else [.noStaticTarget call.toMember place]) ++
        [.callUnimplemented call.toMember place]

/-- What is reported about a node. -/
def noticesFor (place : Member) (table : RedirectTable) (filter : CallFilter) :
    Node → List Notice
  | .insn (.call call) =>
    if filter.watches call.owner call.name then noticesForWatched place table call else []
  | _ => []

/-! ## 3. Whole methods -/

/-- The treatments of the nodes up to the first failure, in reverse before `done`, and the
    failure if there is one. -/
def treatAll (table : RedirectTable) (filter : CallFilter) (done : List Treatment) :
    List Node → List Treatment × Option Failure
  | [] => (done.reverse, none)
  | node :: rest =>
    match treat table filter node with
    | .ok t => treatAll table filter (t :: done) rest
    | .error f => (done.reverse, some f)

/-- What redirection did to a method. -/
structure RedirectSummary where
  redirected : Nat := 0
  stubbed : List StubbedCall := []
  deriving DecidableEq, Repr, Inhabited

/-- A method after redirection. -/
structure Redirection where
  method : Method
  notices : List Notice
  result : Outcome RedirectSummary

/-- Redirects the watched calls of a method of the class named `className`. -/
def redirectCalls (className : String) (table : RedirectTable) (filter : CallFilter)
    (m : Method) : Redirection :=
  let place : Member := { owner := className, name := m.name, descriptor := m.descriptor }
  let (treatments, failure) := treatAll table filter [] m.nodes.toList
  let modified := m.modified || treatments.any Treatment.changes
  let notices (count : Nat) := (m.nodes.toList.take count).flatMap (noticesFor place table filter)
  match failure with
  | some f =>
    { method := { m with nodes := #[], modified }
      notices := notices (treatments.length + 1)
      result := .error f }
  | none =>
    { method := { m with nodes := (treatments.flatMap Treatment.nodes).toArray, modified }
      notices := notices treatments.length
      result := .ok
        { redirected := treatments.countP Treatment.isRedirect
          stubbed := (treatments.filterMap Treatment.stubbed?).map fun call =>
            { place, call := call.toMember } } }

end Rewire
