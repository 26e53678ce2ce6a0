import Rewire.Log
import Rewire.Pattern.Edit

/-!
# Patch rules

A patch rule edits the methods of one name in one class wherever a pattern occurs. This file
fixes

* rules (`PatchRule`) with what they do (`PatchAction`). What a rule inserts is a list, or comes from
  a generator; a rule with a list is one whose generator always gives the same
  (`PatchRule.generating`);
* application to one method (`PatchRule.applyTo`) and to a class (`PatchRule.patch`). A rule that
  finds no occurrence in any method is a failure: the class is not the one the rule was written
  for;
* application of several rules, each to what the rules before it left (`PatchRule.patchAll`);
* steps with a log and the state of generators (`Generating`), and application of rules as such
  steps (`PatchRule.apply`, `PatchRule.applyAll`).
-/

namespace Rewire

/-! ## 1. Rules -/

/-- What a rule does at each occurrence of its pattern. `Source` is where inserted instructions come
    from. -/
inductive PatchAction (Source : Type) where
  /-- Inserts instructions after the occurrence. -/
  | inject (source : Source)
  /-- Deletes the occurrence. -/
  | remove
  deriving DecidableEq, Repr, Inhabited

/-- An edit of the methods of one name in one class. -/
structure PatchRule (Source : Type := List Insn) where
  id : String
  name : String
  description : String
  /-- The class, with dots between the parts of its name. -/
  className : String
  methodName : String
  pattern : List Predicate
  action : PatchAction Source
  deriving DecidableEq, Repr, Inhabited

/-- An action with a list of instructions as one with a generator. -/
def PatchAction.generating : PatchAction (List Insn) → PatchAction (Generator Unit)
  | inject insns => inject (.always insns)
  | remove => remove

/-- A class after rules were applied to it, also where one of them failed. -/
structure Patching where
  body : ClassBody
  notices : List Notice
  result : Outcome Unit

/-- The class after rules that did not fail, as a step with a log. -/
def Patching.report (done : Patching) : Logged ClassBody := do
  done.notices.forM Logged.note
  (done.result : Outcome Unit)
  return done.body

/-- A step that writes to a log and changes the state of generators, which are both kept when it
    fails. -/
abbrev Generating (σ : Type) := ExceptT Failure (StateM (Log × σ))

namespace Generating

/-- A step with a log, which leaves the state alone. -/
def ofLogged {σ α : Type} (x : Logged α) : Generating σ α :=
  ExceptT.mk fun (log, s) =>
    let (r, log) := x log
    (r, (log, s))

instance {σ : Type} : MonadLift Logged (Generating σ) := ⟨ofLogged⟩

/-- The class after rules that did not fail. -/
def ofPatching {σ : Type} (x : StateM σ Patching) : Generating σ ClassBody :=
  ExceptT.mk fun (log, s) =>
    let (done, s) := StateT.run x s
    let (r, log) := done.report log
    (r, (log, s))

/-- A step whose generators have no state. -/
def logged {α : Type} (x : Generating Unit α) : Logged α :=
  ExceptT.mk fun log =>
    let (r, (log, _)) := x (log, ())
    (r, log)

end Generating

namespace PatchRule

variable {Source σ : Type}

/-- Whether a rule is for a class, named with dots or slashes. -/
def isFor (r : PatchRule Source) (name : String) : Bool :=
  dotted name == r.className

/-- A rule with a list of instructions as one with a generator. -/
def generating (r : PatchRule) : PatchRule (Generator Unit) :=
  { r with action := r.action.generating }

/-! ## 2. Application -/

/-- The method with the rule's action done at every occurrence, and whether there was one. -/
def applyTo (r : PatchRule (Generator σ)) (m : Method) : StateM σ (Bool × Method) :=
  match r.action with
  | .inject generator => m.injectBy r.pattern generator
  | .remove => return m.remove r.pattern

/-- The method after a rule, which leaves methods of other names alone, and whether it found an
    occurrence. -/
def applyIfNamed (r : PatchRule (Generator σ)) (m : Method) : StateM σ (Bool × Method) :=
  if m.name = r.methodName then r.applyTo m else return (false, m)

/-- The failure of a rule that finds no occurrence. -/
def nothingFound (r : PatchRule Source) : Fault :=
  .ruleFoundNothing r.id r.name r.className r.methodName

/-- The class after a rule, which goes through all methods before it knows whether it failed. -/
def patch (r : PatchRule (Generator σ)) (c : ClassBody) : StateM σ Patching := do
  let results ← c.methods.mapM r.applyIfNamed
  return {
    body := { c with methods := results.map Prod.snd }
    notices := (results.filter Prod.fst).map fun (_, m) =>
      .ruleApplied r.id ⟨c.name, m.name, m.descriptor⟩
    result := if results.any Prod.fst then .ok () else fail r.nothingFound }

/-- The class after rules, one after the other, up to the first that fails. -/
def patchAll : List (PatchRule (Generator σ)) → ClassBody → StateM σ Patching
  | [], c => return { body := c, notices := [], result := .ok () }
  | r :: rest, c => do
    let done ← r.patch c
    match done.result with
    | .error _ => return done
    | .ok () =>
      let later ← patchAll rest done.body
      return { later with notices := done.notices ++ later.notices }

/-- The class after a rule, and what is reported. -/
def apply (r : PatchRule (Generator σ)) (c : ClassBody) : Generating σ ClassBody :=
  .ofPatching (r.patch c)

/-- The class after rules, and what is reported. -/
def applyAll (rules : List (PatchRule (Generator σ))) (c : ClassBody) : Generating σ ClassBody :=
  .ofPatching (patchAll rules c)

/-- Refuses rules that could never find anything. -/
def validate (rules : List (PatchRule Source)) : Outcome Unit :=
  match rules.find? fun r => r.pattern.isEmpty with
  | some r => fail (.ruleWithoutPredicates r.id)
  | none => .ok ()

end PatchRule

end Rewire
