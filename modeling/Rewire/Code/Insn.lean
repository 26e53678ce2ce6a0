import Rewire.Code.Opcode
import Rewire.Pool.Basic

/-!
# Instructions with resolved operands

Code is edited as a sequence of nodes: instructions, labels and source lines. Operands that refer
to the constant pool are resolved, and jump targets are labels, so a node means the same wherever
it stands. This file fixes

* labels (`Label`), instructions (`Insn`) and nodes (`Node`);
* the kinds of call (`CallKind`) and call sites (`CallSite`);
* the opcode that an instruction shows to patterns (`Insn.opcode`);
* the labels an instruction refers to (`Insn.targets`).

The short and the wide spellings of an instruction are one instruction here; which is written is
the assembler's choice.
-/

namespace Rewire

/-! ## 1. Operands -/

/-- The identity of a position in the code of one method. A method hands out labels whose numbers are
    32-bit words. -/
structure Label where
  id : Nat
  deriving DecidableEq, Hashable, Repr, Inhabited

/-- A value that an instruction loads from the constant pool. -/
inductive Loadable where
  | int (value : Int32)
  | float (bits : UInt32)
  | long (value : Int64)
  | double (bits : UInt64)
  | string (text : String)
  | classRef (name : String)
  /-- A method type, a method handle or a computed constant, kept as its slot; `wide` tells
      whether it was loaded as a two-word value. -/
  | pooled (index : UInt16) (wide : Bool)
  deriving DecidableEq, Repr, Inhabited

/-- Whether the value takes two stack words. -/
def Loadable.isWide : Loadable → Bool
  | long _ | double _ => true
  | pooled _ wide => wide
  | _ => false

/-- How a method is called. -/
inductive CallKind where
  | virtual
  | interface
  | special
  | static
  deriving DecidableEq, Repr, Inhabited

namespace CallKind

/-- The opcode of a kind of call. -/
def opcode : CallKind → UInt8
  | virtual => Opcode.invokeVirtual
  | interface => Opcode.invokeInterface
  | special => Opcode.invokeSpecial
  | static => Opcode.invokeStatic

/-- The kind of call an opcode makes. -/
def ofOpcode? (op : UInt8) : Option CallKind :=
  if op = Opcode.invokeVirtual then some virtual
  else if op = Opcode.invokeSpecial then some special
  else if op = Opcode.invokeStatic then some static
  else if op = Opcode.invokeInterface then some interface
  else none

@[simp] theorem ofOpcode?_opcode (k : CallKind) : ofOpcode? k.opcode = some k := by
  cases k <;> rfl

end CallKind

/-- A call of a named method. The flag `interface` tells through which kind of reference the owner
    is named, which a static or special call may choose either way. -/
structure CallSite extends MemberRef where
  kind : CallKind
  deriving DecidableEq, Repr, Inhabited

/-- Whether the call has no receiver. -/
def CallSite.isStatic (call : CallSite) : Bool :=
  call.kind = .static

/-! ## 2. Instructions -/

/-- An instruction. -/
inductive Insn where
  /-- An instruction without operands. -/
  | simple (opcode : UInt8)
  /-- `bipush`, `sipush`, and `newarray` with the code of its element type. -/
  | int (opcode : UInt8) (value : Int32)
  | ldc (value : Loadable)
  /-- Loads, stores and `ret`. -/
  | var (opcode : UInt8) (slot : UInt16)
  | iinc (slot : UInt16) (delta : Int16)
  /-- Conditional and unconditional jumps. -/
  | jump (opcode : UInt8) (target : Label)
  | tableSwitch (low high : Int32) (default : Label) (targets : List Label)
  | lookupSwitch (default : Label) (pairs : List (Int32 × Label))
  | field (opcode : UInt8) (member : Member)
  | call (site : CallSite)
  /-- A computed call, kept as its slot. -/
  | invokeDynamic (index : UInt16) (name descriptor : String)
  /-- `new`, `anewarray`, `checkcast` and `instanceof`. -/
  | type (opcode : UInt8) (className : String)
  | multiANewArray (className : String) (dimensions : UInt8)
  deriving DecidableEq, Repr, Inhabited

namespace Insn

/-- The opcode patterns see. -/
def opcode : Insn → UInt8
  | simple op | int op _ | var op _ | jump op _ | field op _ | type op _ => op
  | ldc value => if value.isWide then Opcode.ldc2 else Opcode.ldc
  | iinc _ _ => Opcode.iinc
  | tableSwitch _ _ _ _ => Opcode.tableSwitch
  | lookupSwitch _ _ => Opcode.lookupSwitch
  | call site => site.kind.opcode
  | invokeDynamic _ _ _ => Opcode.invokeDynamic
  | multiANewArray _ _ => Opcode.multiANewArray

/-- The labels an instruction may jump to; the default of a switch comes first. -/
def targets : Insn → List Label
  | jump _ target => [target]
  | tableSwitch _ _ default targets => default :: targets
  | lookupSwitch default pairs => default :: pairs.map Prod.snd
  | _ => []

end Insn

/-! ## 3. Nodes -/

/-- An element of a method's code. -/
inductive Node where
  /-- Marks a position. -/
  | label (l : Label)
  /-- The source line of the instructions that follow. -/
  | line (number : UInt16)
  | insn (i : Insn)
  deriving DecidableEq, Repr, Inhabited

namespace Node

/-- The instruction of a node that is one. -/
def insn? : Node → Option Insn
  | insn i => some i
  | _ => none

/-- The label of a node that is one. -/
def label? : Node → Option Label
  | label l => some l
  | _ => none

/-- Whether the node is no instruction. -/
def isMarker : Node → Bool
  | insn _ => false
  | _ => true

/-- The labels a node may jump to. -/
def targets : Node → List Label
  | insn i => i.targets
  | _ => []

end Node

end Rewire
