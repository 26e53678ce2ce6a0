import Rewire.Code.Stack

/-!
# Consistent stack depths

Code is consistent when the operand stack has the same depth at a node on every path to it. This
file fixes

* where control goes from a node, and with how many words on the stack (`Method.Leads`);
* where it enters a method (`Method.Entry`) and what it can reach (`Method.Reachable`);
* assignments of depths to nodes that fit this flow (`Method.ConsistentDepths`);
* the greatest depth of such an assignment (`Method.IsGreatestDepth`);
* the walk over the nodes with a limit on the visits it looks at (`walkWithin`), and a limit that
  grows with the size of the method (`Method.visitLimit`).
-/

namespace Rewire

namespace Method

/-! ## 1. Control flow -/

/-- Control goes from one visit of a node to another. A subroutine returns without its return
    address to the node after its call. -/
inductive Leads (m : Method) : Visit → Visit → Prop where
  | marker {v : Visit} {node : Node} (here : m.nodes[v.position]? = some node)
      (marks : node.isMarker = true) (more : v.position + 1 < m.nodes.size) :
      Leads m v ⟨v.position + 1, v.depth⟩
  | jump {v : Visit} {i : Insn} {e : StackEffect} {l : Label} {target : Nat}
      (here : m.nodes[v.position]? = some (.insn i)) (effect : stackEffect i = .ok e)
      (aims : l ∈ i.targets) (place : m.labelPosition? l = some target) :
      Leads m v ⟨target, e.apply v.depth⟩
  | next {v : Visit} {i : Insn} {e : StackEffect}
      (here : m.nodes[v.position]? = some (.insn i)) (effect : stackEffect i = .ok e)
      (falls : i.fallsThrough = true) (more : v.position + 1 < m.nodes.size) :
      Leads m v ⟨v.position + 1, if i.isSubroutineCall then v.depth else e.apply v.depth⟩

/-- Control enters a method at its start, with nothing on the stack, and at its handlers, with the
    exception on the stack. -/
inductive Entry (m : Method) : Visit → Prop where
  | start (nonempty : 0 < m.nodes.size) : Entry m ⟨0, 0⟩
  | handler {h : Handler} {target : Nat} (member : h ∈ m.handlers)
      (place : m.labelPosition? h.handler = some target) : Entry m ⟨target, 1⟩

/-- A node that control can reach, whatever the stack holds. -/
inductive Reachable (m : Method) : Nat → Prop where
  | entry {v : Visit} (enters : m.Entry v) : Reachable m v.position
  | step {v w : Visit} (before : Reachable m v.position) (leads : m.Leads v w) :
      Reachable m w.position

/-! ## 2. Depths -/

/-- A depth for each node that fits the flow of control, with enough words for each instruction. -/
structure ConsistentDepths (m : Method) (depth : Nat → Nat) : Prop where
  entry : ∀ v, m.Entry v → depth v.position = v.depth
  step : ∀ position w, m.Reachable position → m.Leads ⟨position, depth position⟩ w →
    depth w.position = w.depth
  enough : ∀ position i e, m.Reachable position → m.nodes[position]? = some (.insn i) →
    stackEffect i = .ok e → e.pops ≤ depth position

/-- The words on the stack before and after the node at a position, whichever are more. -/
def depthAround (m : Method) (depth : Nat → Nat) (position : Nat) : Nat :=
  match m.nodes[position]? with
  | some (.insn i) =>
    match stackEffect i with
    | .ok e => max (depth position) (e.apply (depth position))
    | .error _ => depth position
  | _ => depth position

/-- The greatest number of words on the stack around any node that control can reach. -/
structure IsGreatestDepth (m : Method) (depth : Nat → Nat) (n : Nat) : Prop where
  bound : ∀ position, m.Reachable position → m.depthAround depth position ≤ n
  attained : n = 0 ∨ ∃ position, m.Reachable position ∧ m.depthAround depth position = n

end Method

/-! ## 3. The walk within a limit -/

/-- What the walk makes of a visit, and where it goes on. -/
def walkStep (nodes : Array Node) (positions : Std.HashMap Label Nat) (w : DepthWalk) (v : Visit) :
    Outcome (DepthWalk × List Visit) :=
  match w.depths[v.position]? with
  | some none =>
    match nodes[v.position]? with
    | some (.insn i) => do
      let effect ← stackEffect i
      let after := effect.apply v.depth
      let next ← flow positions i v.position v.depth after
      return ((w.mark v).reach after, next.reverse)
    | _ => return (w.mark v, [⟨v.position + 1, v.depth⟩])
  | _ => return (w, [])

/-- The walk, given up when there are more visits to look at than the limit. -/
def walkWithin (nodes : Array Node) (positions : Std.HashMap Label Nat) :
    Nat → DepthWalk → List Visit → Option (Outcome DepthWalk)
  | _, w, [] => some (.ok w)
  | 0, _, _ :: _ => none
  | limit + 1, w, v :: work =>
    match walkStep nodes positions w v with
    | .error f => some (.error f)
    | .ok (w, next) => walkWithin nodes positions limit w (next ++ work)

/-- The greatest depth, given up when there are more visits to look at than the limit. -/
def greatestDepthWithin (limit : Nat) (m : Method) : Option (Outcome Nat) :=
  let positions := labelPositions m.nodes
  let start : DepthWalk := { depths := Array.replicate m.nodes.size none }
  match m.handlers.mapM fun h => do return (⟨← placeOf positions h.handler, 1⟩ : Visit) with
  | .error f => some (.error f)
  | .ok handlers =>
    (walkWithin m.nodes positions limit start (handlers.reverse ++ [⟨0, 0⟩])).map
      (Except.map DepthWalk.greatest)

/-- As many visits as there are ways into a method, to next nodes and to targets. -/
def Method.visitLimit (m : Method) : Nat :=
  m.handlers.length + 1 + m.nodes.size + (m.nodes.toList.flatMap Node.targets).length

end Rewire
