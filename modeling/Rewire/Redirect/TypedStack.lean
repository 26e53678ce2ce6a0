import Rewire.Redirect.Calls

/-!
# Stubs on a typed stack

A stub must leave the operand stack as the call would, value by value and not only word by word.
This file fixes

* stacks of values (`StackValue`), which are either given or known to be zero;
* what constants and drops do to such a stack (`Insn.runTyped`, `runTyped`). A value of two words
  cannot be dropped by halves;
* the categories of the values a call takes (`CallSite.operandCategories`) and the value it leaves
  (`zeroResult`).
-/

namespace Rewire

/-! ## 1. Values and instructions -/

/-- A value on the stack. -/
inductive StackValue where
  /-- Any value of its category. -/
  | given (category : Category)
  /-- The zero, or null, of its category. -/
  | zero (category : Category)
  deriving DecidableEq, Repr

/-- The category of a value. -/
def StackValue.category : StackValue → Category
  | given c | zero c => c

/-- Drops a value of one word from the top of a stack, which is its head. -/
def dropOne : List StackValue → Option (List StackValue)
  | v :: rest => if v.category.width = 1 then some rest else none
  | [] => none

/-- Drops a value of two words, or two values of one word each. -/
def dropTwo : List StackValue → Option (List StackValue)
  | v :: rest =>
    if v.category.width = 2 then some rest
    else if v.category.width = 1 then dropOne rest
    else none
  | [] => none

/-- The constants that opcodes push, by value. -/
def pushedConstants : List (StackValue × List UInt8) := [
  (.zero .reference, [0x01]),
  (.zero .int, [0x03]),
  (.zero .long, [0x09]),
  (.zero .float, [0x0b]),
  (.zero .double, [0x0e]),
  (.given .int, [0x02, 0x04, 0x05, 0x06, 0x07, 0x08]),
  (.given .long, [0x0a]),
  (.given .float, [0x0c, 0x0d]),
  (.given .double, [0x0f])]

/-- The constant that an opcode pushes, if it pushes one. -/
def pushedConstant? (op : UInt8) : Option StackValue :=
  (pushedConstants.find? fun (_, ops) => ops.contains op).map Prod.fst

/-- The stack after an instruction that drops values or pushes a constant; nothing for other
    instructions and where the stack does not hold what is to be dropped. -/
def Insn.runTyped (stack : List StackValue) : Insn → Option (List StackValue)
  | .simple op =>
    if op = Opcode.pop then dropOne stack
    else if op = Opcode.pop2 then dropTwo stack
    else (pushedConstant? op).map fun v => v :: stack
  | _ => none

/-- The stack after a list of instructions. -/
def runTyped (insns : List Insn) (stack : List StackValue) : Option (List StackValue) :=
  insns.foldlM Insn.runTyped stack

/-! ## 2. Calls -/

/-- The categories of the values a call with the given signature takes, the topmost first: the last
    argument is on top, the receiver at the bottom. -/
def CallSite.operandCategories (call : CallSite) (d : Descriptor) : List Category :=
  d.arguments.reverse ++ if call.isStatic then [] else [.reference]

/-- The zero of a result, if there is a result. -/
def zeroResult : Category → List StackValue
  | .void => []
  | c => [.zero c]

end Rewire
