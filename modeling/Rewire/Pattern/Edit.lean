import Std.Data.HashSet
import Rewire.Pattern.Match

/-!
# Edits at the occurrences of a pattern

Two edits act on every occurrence of a pattern in a method. This file fixes

* injection (`Method.inject`): generated instructions follow the last instruction of each
  occurrence, before the markers after it. What is generated is given by the number of the
  occurrence, or by a generator that runs for one occurrence after the other
  (`Method.injectBy`);
* removal (`Method.remove`): the nodes of each occurrence go, and with them the exception regions
  and local variable records that start inside it. Labels that something left still refers to
  stay.

Both find their occurrences before they change anything, tell whether there were any, and flag the
method as modified exactly if there were.
-/

namespace Rewire

/-! ## 1. Injection -/

/-- The instructions to insert after each position. -/
abbrev Insertions := Std.HashMap Nat (List Insn)

/-- The nodes with insertions made. -/
def insertAfter (nodes : Array Node) (insertions : Insertions) : Array Node :=
  nodes.zipIdx.flatMap fun (node, i) =>
    #[node] ++ (((insertions[i]?).getD []).map Node.insn).toArray

/-- Inserts what `generate` gives for the number of each occurrence after the occurrence. -/
def Method.inject (m : Method) (pattern : List Predicate) (generate : Nat → List Insn) :
    Bool × Method :=
  let found := m.matches pattern
  if found.isEmpty then (false, m)
  else
    let insertions := Std.HashMap.ofList (found.zipIdx.map fun (f, k) => (f.last, generate k))
    (true, { m with nodes := insertAfter m.nodes insertions, modified := true })

/-- Generates a list of instructions. What it gives may depend on a state that it changes. -/
abbrev Generator (σ : Type) := StateM σ (List Insn)

/-- Gives the same list at every run. -/
def Generator.always {σ : Type} (insns : List Insn) : Generator σ :=
  StateT.pure insns

/-- Inserts what a generator gives after each occurrence. The generator runs for the occurrences in
    their order, before anything is inserted. -/
def Method.injectBy {σ : Type} (m : Method) (pattern : List Predicate)
    (generator : Generator σ) : StateM σ (Bool × Method) := do
  let found := m.matches pattern
  if found.isEmpty then return (false, m)
  else
    let generated ← found.mapM fun f => do return (f.last, ← generator)
    let insertions := Std.HashMap.ofList generated
    return (true, { m with nodes := insertAfter m.nodes insertions, modified := true })

/-! ## 2. Removal -/

/-- Whether each position lies in an occurrence. -/
def coveredBy (size : Nat) (found : List Match) : Array Bool :=
  (found.flatMap Match.nodes).foldl (fun covered i => covered.setIfInBounds i true)
    (Array.replicate size false)

/-- The labels of an occurrence up to its last instruction. -/
def Match.labels (m : Method) (found : Match) : List Label :=
  (List.range' found.first (found.last + 1 - found.first)).filterMap fun i =>
    m.nodes[i]?.bind Node.label?

/-- Deletes every occurrence of a pattern. -/
def Method.remove (m : Method) (pattern : List Predicate) : Bool × Method :=
  let found := m.matches pattern
  if found.isEmpty then (false, m)
  else
    let covered := coveredBy m.nodes.size found
    let gone := Std.HashSet.ofList (found.flatMap (Match.labels m))
    let handlers := m.handlers.filter fun h => !gone.contains h.start
    let locals := m.locals.filter fun r => !gone.contains r.start
    let localTypes := m.localTypes.filter fun r => !gone.contains r.start
    let marked := m.nodes.toList.zip covered.toList
    let left := (marked.filter fun (_, gone) => !gone).map Prod.fst
    let referred := Std.HashSet.ofList (referencedLabels left handlers (locals ++ localTypes))
    let keeps : Node × Bool → Bool
      | (.label l, gone) => !gone || referred.contains l
      | (_, gone) => !gone
    (true, { m with
      nodes := ((marked.filter keeps).map Prod.fst).toArray
      handlers, locals, localTypes
      modified := true })

end Rewire
