import Rewire.Code.Assemble
import Rewire.Code.Decode
import Rewire.Code.Lengths

/-!
# Well-formed methods

Not every list of nodes is code. This file fixes what has to hold of one, apart from limits on size:

* each opcode belongs to the form of its instruction (`Insn.HasForm`);
* operands that are kept as slots denote what the instruction says (`Insn.AgreesWith`);
* the entries of each switch are counted by a 32-bit word (`Method.EntriesFit`);
* labels are placed once each (`Method.LabelsDistinct`), those that are referred to are placed
  (`Method.LabelsPlaced`), and jumps land on an instruction (`Method.JumpsLand`).
-/

namespace Rewire

/-! ## 1. Instructions -/

/-- Whether an instruction's opcode belongs to its form, and a table of jumps is as long as its
    range. -/
def Insn.HasForm : Insn → Prop
  | simple op => Opcode.IsSimple op
  | int op _ => op = Opcode.bipush ∨ op = Opcode.sipush ∨ op = Opcode.newArray
  | var op _ => Opcode.IsLoad op ∨ Opcode.IsStore op ∨ op = Opcode.ret
  | jump op _ => Opcode.IsShortJump op
  | tableSwitch low high _ targets => high.toInt - low.toInt + 1 = targets.length
  | field op _ => Opcode.IsField op
  | type op _ => Opcode.IsType op
  | ldc _ | iinc _ _ | lookupSwitch _ _ | call _ | invokeDynamic _ _ _ | multiANewArray _ _ => True

instance : DecidablePred Insn.HasForm
  | .simple op => inferInstanceAs (Decidable (Opcode.IsSimple op))
  | .int op _ =>
    inferInstanceAs (Decidable (op = Opcode.bipush ∨ op = Opcode.sipush ∨ op = Opcode.newArray))
  | .var op _ => inferInstanceAs (Decidable (Opcode.IsLoad op ∨ Opcode.IsStore op ∨ op = Opcode.ret))
  | .jump op _ => inferInstanceAs (Decidable (Opcode.IsShortJump op))
  | .tableSwitch low high _ targets =>
    inferInstanceAs (Decidable (high.toInt - low.toInt + 1 = targets.length))
  | .field op _ => inferInstanceAs (Decidable (Opcode.IsField op))
  | .type op _ => inferInstanceAs (Decidable (Opcode.IsType op))
  | .ldc _ | .iinc _ _ | .lookupSwitch _ _ | .call _ | .invokeDynamic _ _ _ | .multiANewArray _ _ =>
    .isTrue trivial

/-- Whether a constant is loaded as it stands, without being taken apart. -/
def Constant.IsLoadedAsSlot : Constant → Prop
  | methodType _ | methodHandle _ _ | dynamic _ _ => True
  | _ => False

/-- Whether an operand that is kept as a slot denotes in a pool what the instruction says. -/
def Insn.AgreesWith (pool : ConstantPool) : Insn → Prop
  | ldc (.pooled index _) => ∃ c, pool.get index = .ok c ∧ c.IsLoadedAsSlot
  | invokeDynamic index name descriptor =>
    ∃ bootstrap member, pool.get index = .ok (.invokeDynamic bootstrap member) ∧
      pool.nameAndType member = .ok (name, descriptor)
  | _ => True

/-! ## 2. Labels -/

namespace Method

/-- The instructions of a method. -/
def insns (m : Method) : List Insn :=
  m.nodes.toList.filterMap Node.insn?

theorem mem_insns_iff {m : Method} {i : Insn} : i ∈ m.insns ↔ .insn i ∈ m.nodes.toList := by
  unfold insns
  rw [List.mem_filterMap]
  constructor
  · rintro ⟨node, hnode, hi⟩
    cases node with
    | insn i' =>
      cases hi
      exact hnode
    | _ => cases hi
  · exact fun hnode => ⟨_, hnode, rfl⟩

theorem mem_insns_of_getElem? {m : Method} {k : Nat} {i : Insn}
    (h : m.nodes[k]? = some (.insn i)) : i ∈ m.insns :=
  mem_insns_iff.2 (Array.mem_toList_iff.2 (Array.mem_of_getElem? h))

theorem mem_references_of_target {m : Method} {i : Insn} (hi : i ∈ m.insns) {l : Label}
    (hl : l ∈ i.targets) : l ∈ m.references :=
  List.mem_append_left _ (List.mem_append_left _
    (List.mem_flatMap.2 ⟨.insn i, mem_insns_iff.1 hi, hl⟩))

theorem mem_references_of_handler {m : Method} {h : Handler} (hh : h ∈ m.handlers) {l : Label}
    (hl : l ∈ [h.start, h.stop, h.handler]) : l ∈ m.references :=
  List.mem_append_left _ (List.mem_append_right _ (List.mem_flatMap.2 ⟨h, hh, hl⟩))

theorem mem_references_of_record {m : Method} {r : LocalRecord} (hr : r ∈ m.allLocals) {l : Label}
    (hl : l ∈ [r.start, r.stop]) : l ∈ m.references :=
  List.mem_append_right _ (List.mem_flatMap.2 ⟨r, hr, hl⟩)

/-- Whether the numbers of entries of all switches are 32-bit words. -/
def EntriesFit (m : Method) : Prop :=
  ∀ i ∈ m.insns, i.EntriesFit

/-- The labels placed in a method, in the order of the nodes. -/
def placedLabels (m : Method) : List Label :=
  m.nodes.toList.filterMap Node.label?

/-- No label is placed twice. -/
def LabelsDistinct (m : Method) : Prop :=
  m.placedLabels.Nodup

/-- Every label that is referred to is placed. -/
def LabelsPlaced (m : Method) : Prop :=
  ∀ l ∈ m.references, l ∈ m.placedLabels

/-- The position of the instruction a label leads to: the first one after it. -/
def landing? (m : Method) (l : Label) : Option Nat := do
  let i := skipMarkers m.nodes (← m.labelPosition? l)
  if i < m.nodes.size then some i else none

/-- Every label that an instruction may jump to is followed by an instruction. -/
def JumpsLand (m : Method) : Prop :=
  ∀ i ∈ m.insns, ∀ l ∈ i.targets, (m.landing? l).isSome

end Method

end Rewire
