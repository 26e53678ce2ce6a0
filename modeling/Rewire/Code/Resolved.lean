import Rewire.Code.Encode
import Rewire.Code.Lengths

/-!
# Instructions by offset

Labels have no meaning outside their method. To compare the instructions of two methods, their
labels are replaced by the offsets they stand for. This file fixes

* replacing the labels of an instruction (`Insn.mapLabels`);
* the instructions that one is read back as once it is written (`Insn.readBack`): a wide condition
  as its opposite around a `goto`, the pairs of a switch in the order of their keys;
* the instructions of a layout and of a method that was read, by offset (`Layout.resolved`,
  `Method.resolved`).
-/

namespace Rewire

/-! ## 1. One instruction -/

/-- The instruction with its labels replaced. -/
def Insn.mapLabels (f : Label → Label) : Insn → Insn
  | jump op l => jump op (f l)
  | tableSwitch low high default targets => tableSwitch low high (f default) (targets.map f)
  | lookupSwitch default pairs =>
    lookupSwitch (f default) (pairs.map fun (key, l) => (key, f l))
  | i => i

theorem Insn.targets_mapLabels (f : Label → Label) (i : Insn) :
    (i.mapLabels f).targets = i.targets.map f := by
  cases i <;> simp [mapLabels, targets, Function.comp_def]

/-- The instructions that an instruction is read back as; `after` is the label of what follows it,
    where a condition that does not hold leads. -/
def Insn.readBack (wide : Bool) (after : Label) : Insn → List Insn
  | jump op l =>
    match oppositeCondition op with
    | .ok opposite => if wide then [jump opposite after, jump Opcode.goto l] else [jump op l]
    | .error _ => [jump op l]
  | lookupSwitch default pairs => [lookupSwitch default (sortedPairs pairs)]
  | i => [i]

/-! ## 2. Whole methods -/

/-- The instructions of a layout as they are read back, with offsets for labels. -/
def Layout.resolved (l : Layout) : List Insn :=
  l.placed.flatMap fun (p, offset) =>
    match p.node with
    | .insn i =>
      (i.mapLabels fun label => ⟨l.offsetOf label⟩).readBack p.wide ⟨offset + p.length offset⟩
    | _ => []

/-- The offset of a label in the code a method was read from. -/
def CodeOrigin.offsetOf (o : CodeOrigin) (label : Label) : Nat :=
  ((o.labelOffsets.find? fun entry => entry.1 = label).map Prod.snd).getD 0

/-- The instructions of a method that was read, with offsets for labels. -/
def Method.resolved (m : Method) : List Insn :=
  match m.origin with
  | some o => (m.nodes.toList.filterMap Node.insn?).map (Insn.mapLabels fun l => ⟨o.offsetOf l⟩)
  | none => []

end Rewire
