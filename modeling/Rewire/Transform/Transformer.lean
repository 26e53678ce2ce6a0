import Rewire.ClassFile.Apply
import Rewire.Redirect.Calls
import Rewire.Redirect.Replacements
import Rewire.Redirect.Sandbox
import Rewire.Rule.Bundled
import Rewire.Transform.Settings

/-!
# Transforming classes

A transformer holds a redirect table, filters and patch rules, and treats one class at a time. The
generators of its rules share a state. This file fixes

* transformers (`Transformer`) and how they are made from parts (`Transformer.make`) and from
  settings (`Transformer.ofSettings`);
* whether a class needs a look at all (`shouldTransform`);
* the transformation of a class (`transformClass`): first the rules for it, in their order, then
  redirection in every method that has code, unless the class is left alone or refers to no watched
  owner. A class in which nothing was modified comes out as it went in, byte for byte.
-/

namespace Rewire

/-! ## 1. Transformers -/

/-- What is done to classes. `σ` is the state of the generators of its rules. -/
structure Transformer (σ : Type) where
  table : RedirectTable
  classFilter : ClassFilter
  callFilter : CallFilter
  rules : List (PatchRule (Generator σ))
  deriving Inhabited

namespace Transformer

variable {σ : Type}

/-- The starts of the names of all owners whose calls may be watched. -/
def namespaces (t : Transformer σ) : List String :=
  t.callFilter.namespaces

/-- The transformer of the given parts; every rule has to have predicates. -/
def make (table : RedirectTable) (classFilter : ClassFilter) (callFilter : CallFilter)
    (rules : List (PatchRule (Generator σ))) : Outcome (Transformer σ) := do
  PatchRule.validate rules
  return { table, classFilter, callFilter, rules }

/-- The table of the replacements that come with the program, if they are used. -/
def bundledTable (s : Settings) : Outcome RedirectTable :=
  if s.builtinRedirects then RedirectTable.ofReplacements Replacement.bundled else .ok .empty

/-- The transformer of settings. `read` gives the content of a file. -/
def ofSettings (read : String → Outcome Bytes) (s : Settings) : Logged (Transformer Unit) := do
  let bundled ← (bundledTable s : Outcome RedirectTable)
  let table ← s.sandboxClasses.foldlM
    (fun table path => do
      let data ← (during (.reading path) (read path) : Outcome Bytes)
      return table.merge (← during (.loadingSandbox path) (RedirectTable.ofSandbox data)))
    bundled
  let table := table.merge (← (RedirectTable.ofReplacements s.redirects : Outcome RedirectTable))
  Logged.note (.tableBuilt table.size)
  let rules := PatchRule.bundled.map PatchRule.generating
  (make table s.classFilter s.callFilter rules : Outcome (Transformer Unit))

/-! ## 2. The quick test -/

/-- Whether a class has to be transformed: it is the target of a rule, or it is not left alone and
    refers to a watched owner. A class that cannot be read does not. -/
def shouldTransform (t : Transformer σ) (name : String) (data : Bytes) : StateM Log Bool := do
  if t.rules.any (·.isFor name) then return true
  if t.classFilter.excludes name then return false
  match referencesNamespace data t.namespaces with
  | .ok found => return found
  | .error reason =>
    modify (·.push (.unreadableSkipped name reason))
    return false

/-! ## 3. Transforming one class -/

/-- A transformed class. -/
structure Transformed where
  bytes : Bytes
  modified : Bool := false
  redirected : Nat := 0
  stubbed : List StubbedCall := []
  /-- The rules that were applied. -/
  rules : List String := []
  /-- The methods that lost attributes. -/
  dropped : List DroppedAttributes := []
  deriving Repr

/-- Redirects the calls of one method. -/
def redirectMethod (t : Transformer σ) (className : String) (m : Method) :
    Logged (Method × RedirectSummary) := do
  if !m.hasCode then return (m, {})
  let r := redirectCalls className t.table t.callFilter m
  r.notices.forM Logged.note
  let summary ← (r.result : Outcome RedirectSummary)
  return (r.method, summary)

/-- The class with the calls of all methods redirected, and what was done. -/
def redirectClass (t : Transformer σ) (c : ClassBody) : Logged (ClassBody × RedirectSummary) := do
  let results ← c.methods.mapM (t.redirectMethod c.name)
  let summaries := results.map Prod.snd
  return ({ c with methods := results.map Prod.fst },
    { redirected := summaries.foldr (fun s n => s.redirected + n) 0
      stubbed := summaries.flatMap RedirectSummary.stubbed })

/-- The rules for a class, in their order. -/
def rulesFor (t : Transformer σ) (name : String) : List (PatchRule (Generator σ)) :=
  t.rules.filter (·.isFor name)

/-- The class after all rules for it. -/
def applyRules (t : Transformer σ) (name : String) (c : ClassBody) : Generating σ ClassBody :=
  during (.patchingClass name) (PatchRule.applyAll (t.rulesFor name) c)

/-- The class after redirection, if it is not left alone and refers to a watched owner. -/
def redirectIfWatched (t : Transformer σ) (name : String) (data : Bytes) (c : ClassBody) :
    Logged (ClassBody × RedirectSummary) := do
  if t.classFilter.excludes name then return (c, {})
  let found ← (referencesNamespace data t.namespaces : Outcome Bool)
  if found then during (.redirectingCalls name) (t.redirectClass c)
  else return (c, {})

/-- Transforms the class file `data` of the class known as `name`. -/
def transformClass (t : Transformer σ) (name : String) (data : Bytes) :
    Generating σ Transformed := do
  let file ← (during (.parsingClass name) (ClassFile.read data) : Outcome ClassFile)
  let decoded ← (during (.decodingClass name) file.decode : Outcome ClassBody)
  let patched ← t.applyRules name decoded
  let rules := (t.rulesFor name).map PatchRule.id
  let (edited, summary) ← (t.redirectIfWatched name data patched :
    Logged (ClassBody × RedirectSummary))
  let untouched : Transformed :=
    { bytes := data, redirected := summary.redirected, stubbed := summary.stubbed, rules }
  if !edited.methods.any Method.modified then return untouched
  let (file, dropped) ← (during (.writingClass name) (file.apply edited) :
    Logged (ClassFile × List DroppedAttributes))
  let bytes ← (file.bytes : Outcome Bytes)
  return { untouched with bytes, dropped, modified := true }

end Transformer

end Rewire
