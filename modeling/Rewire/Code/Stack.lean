import Rewire.Bytes.Fit
import Rewire.Code.Method
import Rewire.Descriptor.Scanner

/-!
# The depth of the operand stack

How deep the operand stack gets is computed from the words each instruction pops and pushes. This
file fixes

* the effect of each instruction (`stackEffect`);
* where control goes after a node, and with how many words on the stack (`flow`);
* the walk over all nodes that can be reached from the start of the method and from its exception
  handlers (`DepthWalk`, `walk`). Every node is visited once, with the depth it is first reached
  with; the walk goes depth first and prefers what was put off last;
* the greatest depth (`maxStack`).

Popping from a stack that is too small leaves it empty instead of failing.
-/

namespace Rewire

/-! ## 1. Effects -/

/-- The words an instruction pops, and the words it pushes afterwards. -/
structure StackEffect where
  pops : Nat
  pushes : Nat
  deriving DecidableEq, Repr, Inhabited

/-- The effects of the instructions without operands, by effect. -/
def simpleEffects : List (StackEffect × List UInt8) := [
  (⟨0, 0⟩, [0x00, 0xb1]),
  (⟨0, 1⟩, [0x01, 0x02, 0x03, 0x04, 0x05, 0x06, 0x07, 0x08, 0x0b, 0x0c, 0x0d]),
  (⟨0, 2⟩, [0x09, 0x0a, 0x0e, 0x0f]),
  (⟨1, 0⟩, [0x57, 0xac, 0xae, 0xb0, 0xbf, 0xc2, 0xc3]),
  (⟨1, 1⟩, [0x74, 0x76, 0x86, 0x8b, 0x91, 0x92, 0x93, 0xbe]),
  (⟨1, 2⟩, [0x59, 0x85, 0x87, 0x8c, 0x8d]),
  (⟨2, 0⟩, [0x58, 0xad, 0xaf]),
  (⟨2, 1⟩, [0x2e, 0x30, 0x32, 0x33, 0x34, 0x35, 0x60, 0x62, 0x64, 0x66, 0x68, 0x6a, 0x6c, 0x6e,
    0x70, 0x72, 0x78, 0x7a, 0x7c, 0x7e, 0x80, 0x82, 0x88, 0x89, 0x8e, 0x90, 0x95, 0x96]),
  (⟨2, 2⟩, [0x2f, 0x31, 0x5f, 0x75, 0x77, 0x8a, 0x8f]),
  (⟨2, 3⟩, [0x5a]),
  (⟨2, 4⟩, [0x5c]),
  (⟨3, 0⟩, [0x4f, 0x51, 0x53, 0x54, 0x55, 0x56]),
  (⟨3, 2⟩, [0x79, 0x7b, 0x7d]),
  (⟨3, 4⟩, [0x5b]),
  (⟨3, 5⟩, [0x5d]),
  (⟨4, 0⟩, [0x50, 0x52]),
  (⟨4, 1⟩, [0x94, 0x97, 0x98]),
  (⟨4, 2⟩, [0x61, 0x63, 0x65, 0x67, 0x69, 0x6b, 0x6d, 0x6f, 0x71, 0x73, 0x7f, 0x81, 0x83]),
  (⟨4, 6⟩, [0x5e])]

/-- The effect of an instruction without operands, if the opcode is one. -/
def simpleEffect? (op : UInt8) : Option StackEffect :=
  (simpleEffects.find? fun (_, ops) => ops.contains op).map Prod.fst

/-- The effect of a load or store; of `ret` and anything else, none. -/
def varEffect (op : UInt8) : StackEffect :=
  if op = Opcode.iload ∨ op = Opcode.fload ∨ op = Opcode.aload then ⟨0, 1⟩
  else if op = Opcode.lload ∨ op = Opcode.dload then ⟨0, 2⟩
  else if op = Opcode.istore ∨ op = Opcode.fstore ∨ op = Opcode.astore then ⟨1, 0⟩
  else if op = Opcode.lstore ∨ op = Opcode.dstore then ⟨2, 0⟩
  else ⟨0, 0⟩

/-- The effect of a jump. The return address that `jsr` pushes counts at its target only. -/
def jumpEffect (op : UInt8) : StackEffect :=
  if 0x99 ≤ op ∧ op ≤ 0x9e ∨ op = Opcode.ifNull ∨ op = Opcode.ifNonNull then ⟨1, 0⟩
  else if 0x9f ≤ op ∧ op ≤ 0xa6 then ⟨2, 0⟩
  else if op = Opcode.jsr then ⟨0, 1⟩
  else ⟨0, 0⟩

/-- The effect of an access to a field whose values take `width` words. -/
def fieldEffect (op : UInt8) (width : Nat) : StackEffect :=
  if op = Opcode.getStatic then ⟨0, width⟩
  else if op = Opcode.putStatic then ⟨width, 0⟩
  else if op = Opcode.getField then ⟨1, width⟩
  else ⟨1 + width, 0⟩

/-- The effect of a call with the given descriptor, `receiver` words below the arguments. -/
def callEffect (receiver : Nat) (descriptor : String) : Outcome StackEffect := do
  let d ← Descriptor.parse descriptor
  return ⟨(← d.argumentWidth).toNat + receiver, d.result.width⟩

/-- The words an instruction pops and pushes. -/
def stackEffect : Insn → Outcome StackEffect
  | .simple op => orFail (.notOperandLess op) (simpleEffect? op)
  | .int op _ => .ok (if op = Opcode.newArray then ⟨1, 1⟩ else ⟨0, 1⟩)
  | .ldc value => .ok ⟨0, if value.isWide then 2 else 1⟩
  | .var op _ => .ok (varEffect op)
  | .iinc _ _ => .ok ⟨0, 0⟩
  | .jump op _ => .ok (jumpEffect op)
  | .tableSwitch _ _ _ _ | .lookupSwitch _ _ => .ok ⟨1, 0⟩
  | .field op m => return fieldEffect op (← fieldCategory m.descriptor).width
  | .call site => callEffect (if site.isStatic then 0 else 1) site.descriptor
  | .invokeDynamic _ _ descriptor => callEffect 0 descriptor
  | .type op _ => .ok (if op = Opcode.new then ⟨0, 1⟩ else ⟨1, 1⟩)
  | .multiANewArray _ dimensions => .ok ⟨dimensions.toNat, 1⟩

/-- The depth after an effect. -/
def StackEffect.apply (e : StackEffect) (depth : Nat) : Nat :=
  depth - e.pops + e.pushes

/-! ## 2. Control flow -/

/-- Whether control may go on to the next node. -/
def Insn.fallsThrough : Insn → Bool
  | .simple op => !decide (Opcode.IsExit op)
  | .var op _ => op ≠ Opcode.ret
  | .jump op _ => op ≠ Opcode.goto
  | .tableSwitch _ _ _ _ | .lookupSwitch _ _ => false
  | _ => true

/-- Whether the instruction calls a subroutine of the method, which returns to the next node
    without the return address. -/
def Insn.isSubroutineCall : Insn → Bool
  | .jump op _ => op = Opcode.jsr
  | _ => false

/-- A node to visit, and the depth it is reached with. -/
structure Visit where
  position : Nat
  depth : Nat
  deriving DecidableEq, Repr

/-- The position of a label. -/
def placeOf (positions : Std.HashMap Label Nat) (l : Label) : Outcome Nat :=
  orFail (.danglingLabel l.id) positions[l]?

/-- Where control goes after an instruction at a position: to its targets, then to the next
    node. -/
def flow (positions : Std.HashMap Label Nat) (i : Insn) (position depth after : Nat) :
    Outcome (List Visit) := do
  let jumps ← i.targets.mapM fun l => do return ⟨← placeOf positions l, after⟩
  if i.fallsThrough then
    return jumps ++ [⟨position + 1, if i.isSubroutineCall then depth else after⟩]
  else return jumps

/-! ## 3. The walk -/

/-- A walk over the nodes of a method. -/
structure DepthWalk where
  /-- The depth each node was reached with, if it was. -/
  depths : Array (Option Nat)
  greatest : Nat := 0

/-- Number of nodes not visited yet. -/
def DepthWalk.unvisited (w : DepthWalk) : Nat :=
  w.depths.count none

/-- Marks a node as reached with a depth. -/
def DepthWalk.mark (w : DepthWalk) (v : Visit) : DepthWalk :=
  match w with
  | ⟨depths, greatest⟩ => ⟨depths.setIfInBounds v.position (some v.depth), max greatest v.depth⟩

/-- Takes a depth into account. -/
def DepthWalk.reach (w : DepthWalk) (depth : Nat) : DepthWalk :=
  { w with greatest := max w.greatest depth }

theorem DepthWalk.unvisited_mark {w : DepthWalk} {v : Visit}
    (h : w.depths[v.position]? = some none) : (w.mark v).unvisited < w.unvisited := by
  obtain ⟨hlt, heq⟩ := Array.getElem?_eq_some_iff.1 h
  have hpos : 0 < w.depths.count none :=
    Array.count_pos_iff.2 (heq ▸ Array.getElem_mem hlt)
  simp only [unvisited, mark, Array.setIfInBounds, dif_pos hlt, Array.count_set, heq]
  simp only [beq_self_eq_true, if_true]
  have : ((some v.depth : Option Nat) == none) = false := rfl
  simp only [this, Bool.false_eq_true, if_false]
  omega

@[simp] theorem DepthWalk.unvisited_reach (w : DepthWalk) (depth : Nat) :
    (w.reach depth).unvisited = w.unvisited := rfl

/-- Visits the nodes of a work list, its head first, and all that can be reached from them. -/
def walk (nodes : Array Node) (positions : Std.HashMap Label Nat) (w : DepthWalk) :
    List Visit → Outcome DepthWalk
  | [] => .ok w
  | v :: work =>
    match h : w.depths[v.position]? with
    | some none =>
      have := DepthWalk.unvisited_mark h
      match nodes[v.position]? with
      | some (.insn i) => do
        let effect ← stackEffect i
        let after := effect.apply v.depth
        let next ← flow positions i v.position v.depth after
        walk nodes positions ((w.mark v).reach after) (next.reverse ++ work)
      | _ => walk nodes positions (w.mark v) (⟨v.position + 1, v.depth⟩ :: work)
    | _ => walk nodes positions w work
termination_by work => (w.unvisited, work.length)

/-- The greatest depth of the operand stack on any path through a method. A handler is entered
    with the exception on the stack. -/
def greatestDepth (m : Method) : Outcome Nat := do
  let positions := labelPositions m.nodes
  let handlers ← m.handlers.mapM fun h => do return (⟨← placeOf positions h.handler, 1⟩ : Visit)
  let start : DepthWalk := { depths := Array.replicate m.nodes.size none }
  return (← walk m.nodes positions start (handlers.reverse ++ [⟨0, 0⟩])).greatest

/-- The greatest depth as the limit that is written. -/
def maxStack (m : Method) : Outcome UInt16 := do
  fitUnsigned16 .countingStack (← greatestDepth m)

end Rewire
