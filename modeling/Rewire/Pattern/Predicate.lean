import Rewire.Code.Method

/-!
# Predicates on instructions

A pattern is a list of predicates, each on one instruction in the context of its method. This file
fixes

* filters on members and on local variables (`MemberFilter`, `LocalFilter`), in which an absent
  part accepts anything;
* the local variable record that is in scope at an instruction (`Method.activeLocal?`);
* predicates (`Predicate`) and when one holds of the node at a position (`Predicate.test`). It never
  holds of a marker.
-/

namespace Rewire

/-! ## 1. Filters -/

/-- Whether an optional expectation accepts a text. -/
def accepts : Option String → String → Bool
  | none, _ => true
  | some expected, found => expected == found

/-- What is expected of a member. -/
structure MemberFilter where
  owner : Option String := none
  name : Option String := none
  descriptor : Option String := none
  deriving DecidableEq, Repr, Inhabited

/-- Whether a filter accepts a member. -/
def MemberFilter.accepts (f : MemberFilter) (m : Member) : Bool :=
  Rewire.accepts f.owner m.owner && Rewire.accepts f.name m.name &&
    Rewire.accepts f.descriptor m.descriptor

/-- What is expected of a local variable. -/
structure LocalFilter where
  name : Option String := none
  descriptor : Option String := none
  deriving DecidableEq, Repr, Inhabited

/-- Whether a filter accepts a local variable record. -/
def LocalFilter.accepts (f : LocalFilter) (r : LocalRecord) : Bool :=
  Rewire.accepts f.name r.name && Rewire.accepts f.descriptor r.descriptor

/-! ## 2. Local variables in scope -/

/-- Whether a record is in scope at a position: from its start label up to, not including, its end
    label. After a store the record may also start before the next instruction. -/
def Method.inScope (m : Method) (store : Bool) (position : Nat) (r : LocalRecord) : Bool :=
  match m.labelPosition? r.start, m.labelPosition? r.stop with
  | some start, some stop =>
    (start ≤ position && position < stop) ||
      (store && position < start && start < skipMarkers m.nodes (position + 1))
  | _, _ => false

/-- The first record of a slot that is in scope at a position. -/
def Method.activeLocal? (m : Method) (store : Bool) (position : Nat) (slot : UInt16) :
    Option LocalRecord :=
  m.locals.find? fun r => r.slot == slot && m.inScope store position r

/-! ## 3. Predicates -/

/-- A condition on an instruction. -/
inductive Predicate where
  | opcode (op : UInt8)
  | getStatic (f : MemberFilter)
  | putStatic (f : MemberFilter)
  /-- A static call whose owner is no interface. -/
  | invokeStatic (f : MemberFilter)
  /-- An interface call whose owner is an interface. -/
  | invokeInterface (f : MemberFilter)
  | invokeVirtual (f : MemberFilter)
  | invokeSpecial (f : MemberFilter)
  /-- Any call. -/
  | invoke (f : MemberFilter)
  /-- A special call whose owner is no interface. -/
  | init (f : MemberFilter)
  /-- The creation of an object, of the given class if there is one. -/
  | new (className : Option String)
  /-- A load of a local variable that has a record. -/
  | load (f : LocalFilter)
  /-- A store to a local variable that has a record. -/
  | store (f : LocalFilter)
  deriving DecidableEq, Repr, Inhabited

namespace Predicate

/-- The call of a constructor; a name in the filter is of no account. -/
def constructor (f : MemberFilter) : Predicate :=
  init { f with name := some "<init>" }

/-- Whether an instruction is an access by the given opcode to a field that a filter accepts. -/
def testField (op : UInt8) (f : MemberFilter) : Insn → Bool
  | .field found m => found == op && f.accepts m
  | _ => false

/-- Whether an instruction is a call of the right form to a method that a filter accepts. -/
def testCall (form : CallSite → Bool) (f : MemberFilter) : Insn → Bool
  | .call site => form site && f.accepts site.toMember
  | _ => false

/-- Whether an instruction of a method, at a position, satisfies a predicate. -/
def testInsn (m : Method) (position : Nat) (i : Insn) : Predicate → Bool
  | opcode op => i.opcode == op
  | getStatic f => testField Opcode.getStatic f i
  | putStatic f => testField Opcode.putStatic f i
  | invokeStatic f => testCall (fun c => c.kind == .static && !c.interface) f i
  | invokeInterface f => testCall (fun c => c.kind == .interface && c.interface) f i
  | invokeVirtual f => testCall (fun c => c.kind == .virtual) f i
  | invokeSpecial f => testCall (fun c => c.kind == .special) f i
  | invoke f => testCall (fun _ => true) f i
  | init f => testCall (fun c => c.kind == .special && !c.interface) f i
  | new expected =>
    match i with
    | .type op found => op == Opcode.new && accepts expected found
    | _ => false
  | load f =>
    match i with
    | .var op slot =>
      decide (Opcode.IsLoad op) && (m.activeLocal? false position slot).any f.accepts
    | _ => false
  | store f =>
    match i with
    | .var op slot =>
      decide (Opcode.IsStore op) && (m.activeLocal? true position slot).any f.accepts
    | _ => false

/-- Whether the node at a position of a method satisfies a predicate. -/
def test (p : Predicate) (m : Method) (position : Nat) : Bool :=
  match m.nodes[position]? with
  | some (.insn i) => p.testInsn m position i
  | _ => false

end Predicate

end Rewire
