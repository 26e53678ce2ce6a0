import Std.Data.HashMap
import Rewire.Bytes.Fit
import Rewire.Code.Insn

/-!
# Methods

A method as it is edited: its signature, its nodes, and the tables that refer to labels of the
nodes. This file fixes

* exception regions (`Handler`) and records of local variables (`LocalRecord`);
* what is kept of the code a method was read from (`CodeOrigin`);
* the labels of code that is read, by offset (`LabelTable`, `numberLabels`);
* methods (`Method`) and the labels they refer to (`Method.references`);
* the positions of labels (`Method.labelPosition?`, `labelPositions`) and of the instruction that
  follows a marker (`skipMarkers`);
* classes as sequences of methods (`ClassBody`).
-/

namespace Rewire

/-! ## 1. Tables that refer to labels -/

/-- A region of code and where control goes when an exception is thrown in it. -/
structure Handler where
  start : Label
  stop : Label
  handler : Label
  /-- The class of exceptions caught; all of them, if absent. -/
  catchType : Option String
  deriving DecidableEq, Repr, Inhabited

/-- What a local variable slot is called in a region of code. -/
structure LocalRecord where
  slot : UInt16
  name : String
  /-- The descriptor, or in a table of generic types the signature. -/
  descriptor : String
  start : Label
  stop : Label
  deriving DecidableEq, Repr, Inhabited

/-! ## 2. Methods -/

/-- What is kept of the code attribute that a method was read from. -/
structure CodeOrigin where
  maxStack : UInt16
  maxLocals : UInt16
  codeLength : Nat
  /-- Each label made while reading, with its offset. -/
  labelOffsets : List (Label × Nat)
  /-- Attributes that are not taken apart, with their names, in order. -/
  attributes : List (String × Bytes)
  deriving Repr, Inhabited

/-- A method and its code. -/
structure Method where
  name : String
  descriptor : String
  flags : UInt16
  nodes : Array Node := #[]
  handlers : List Handler := []
  locals : List LocalRecord := []
  /-- The records of generic types. -/
  localTypes : List LocalRecord := []
  /-- Set by each edit; only modified methods are written again. -/
  modified : Bool := false
  origin : Option CodeOrigin := none
  /-- The number of the next fresh label. -/
  nextLabel : UInt32 := 0
  deriving Repr, Inhabited

/-- The access flag of static methods. -/
def staticFlag : UInt16 := 0x0008

namespace Method

/-- Whether the method has no receiver. -/
def isStatic (m : Method) : Bool :=
  m.flags &&& staticFlag != 0

/-- Whether the method was read with code or has nodes. -/
def hasCode (m : Method) : Bool :=
  m.origin.isSome || !m.nodes.isEmpty

/-- A label that the method has not handed out before, as long as there is a number behind it. -/
def freshLabel (m : Method) : Outcome (Label × Method) := do
  let next ← addWord32 m.nextLabel 1
  return (⟨m.nextLabel.toNat⟩, { m with nextLabel := next })

/-- The position of the first node that places a label. -/
def labelPosition? (m : Method) (l : Label) : Option Nat :=
  m.nodes.findIdx? (· == .label l)

/-- The records of both tables of local variables. -/
def allLocals (m : Method) : List LocalRecord :=
  m.locals ++ m.localTypes

end Method

/-- The labels that nodes, exception regions and local variable records refer to. -/
def referencedLabels (nodes : List Node) (handlers : List Handler) (locals : List LocalRecord) :
    List Label :=
  nodes.flatMap Node.targets ++ handlers.flatMap (fun h => [h.start, h.stop, h.handler]) ++
    locals.flatMap fun r => [r.start, r.stop]

/-- The labels a method refers to. -/
def Method.references (m : Method) : List Label :=
  referencedLabels m.nodes.toList m.handlers m.allLocals

/-- The first position from `i` on that holds an instruction, or the end. -/
def skipMarkers (nodes : Array Node) (i : Nat) : Nat :=
  if h : i < nodes.size then
    if nodes[i].isMarker then skipMarkers nodes (i + 1) else i
  else nodes.size
termination_by nodes.size - i

theorem le_skipMarkers {nodes : Array Node} {i : Nat} (h : i ≤ nodes.size) :
    i ≤ skipMarkers nodes i := by
  fun_induction skipMarkers nodes i <;> omega

/-- The position of each label that is placed; of one placed twice, the last. -/
def labelPositions (nodes : Array Node) : Std.HashMap Label Nat :=
  nodes.zipIdx.foldl
    (fun found (node, i) =>
      match node with
      | .label l => found.insert l i
      | _ => found)
    ∅

/-! ## 3. Labels by offset -/

/-- The label at each offset that has one. -/
abbrev LabelTable := Std.HashMap Nat Label

namespace LabelTable

/-- The label at an offset. -/
def at? (labels : LabelTable) (offset : Nat) : Option Label :=
  labels[offset]?

/-- The label at an offset that is known to have one. -/
def get (labels : LabelTable) (offset : Nat) : Outcome Label :=
  orFail (.noLabelAt offset) (labels.at? offset)

end LabelTable

/-- The labels of ascending offsets, numbered from 0. -/
def numberLabels (offsets : List Nat) : List (Label × Nat) :=
  offsets.zipIdx.map fun (offset, id) => (⟨id⟩, offset)

/-- The labels by offset. -/
def labelTable (labels : List (Label × Nat)) : LabelTable :=
  Std.HashMap.ofList (labels.map fun (l, offset) => (offset, l))

/-! ## 4. Classes -/

/-- A class as a sequence of methods. -/
structure ClassBody where
  /-- The name with slashes between its parts. -/
  name : String
  superName : Option String
  methods : List Method
  deriving Repr, Inhabited

/-- The form of a class name with dots between its parts. -/
def dotted (name : String) : String :=
  name.map fun c => if c = '/' then '.' else c

/-- The class's name with dots between its parts. -/
def ClassBody.binaryName (c : ClassBody) : String :=
  dotted c.name

end Rewire
