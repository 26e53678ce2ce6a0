import Rewire.Bytes.Fit
import Rewire.Code.Extent
import Rewire.Code.Method

/-!
# Where instructions end up

An instruction's size depends on the slots of its operands, on its offset (switches are padded)
and, for a jump, on whether its target is in reach of a 16-bit displacement. This file fixes

* the elements of code whose operands have slots (`Piece`) and their sizes (`Piece.size`). Sizes and
  offsets are 32-bit words: the entries of a switch are counted in one, and a size or an offset that
  does not fit ends the computation;
* the offsets of all elements (`placeAll`);
* the finished layout (`Layout`);
* widening: jumps start short, and those whose displacement does not fit become wide until none
  is left (`Layout.settle`). A wide jump never becomes short again, so there are at most as many
  rounds as jumps.
-/

namespace Rewire

/-! ## 1. Elements and their sizes -/

/-- A node, the slot of its operand in the constant pool, and whether it is a wide jump. -/
structure Piece where
  node : Node
  operand : UInt16 := 0
  wide : Bool := false
  deriving Repr, Inhabited

/-- Whether a local variable access has an opcode with the slot in it. -/
def hasShortForm (op : UInt8) (slot : UInt16) : Bool :=
  slot ≤ 3 && op ≠ Opcode.ret

/-- Whether an increment has its slot and its amount in one byte each. -/
def iincIsShort (slot : UInt16) (delta : Int16) : Bool :=
  slot ≤ 255 && -128 ≤ delta.toInt && delta.toInt ≤ 127

/-- The size of a jump: wide unconditional jumps have an opcode of their own, a wide condition
    is written as its opposite around a wide `goto`. -/
def jumpSize (op : UInt8) (wide : Bool) : UInt32 :=
  if !wide then 3 else if op = Opcode.goto ∨ op = Opcode.jsr then 5 else 8

/-- The size of a switch at an offset, with `fixed` bytes behind the padding and `each` for every
    entry. Of the number of entries, the last 32 bits count. -/
def switchSize (offset fixed each : UInt32) (entries : Nat) : Outcome UInt32 := do
  let table ← timesWord32 each (UInt32.ofNat entries)
  addWord32 (1 + UInt32.ofNat (padding offset.toNat) + fixed) table

/-- The size of an instruction at an offset. -/
def Insn.size (offset : UInt32) (operand : UInt16) (wide : Bool) : Insn → Outcome UInt32
  | .simple _ => return 1
  | .int op _ => return if op = Opcode.sipush then 3 else 2
  | .ldc value => return if value.isWide ∨ 255 < operand then 3 else 2
  | .var op slot => return if 255 < slot then 4 else if hasShortForm op slot then 1 else 2
  | .iinc slot delta => return if iincIsShort slot delta then 3 else 6
  | .jump op _ => return jumpSize op wide
  | .tableSwitch _ _ _ targets => switchSize offset 12 4 targets.length
  | .lookupSwitch _ pairs => switchSize offset 8 8 pairs.length
  | .field _ _ | .type _ _ => return 3
  | .call site => return if site.kind = .interface then 5 else 3
  | .invokeDynamic _ _ _ => return 5
  | .multiANewArray _ _ => return 4

/-- The size of an element at an offset; labels and lines take no room. -/
def Piece.size (p : Piece) (offset : UInt32) : Outcome UInt32 :=
  match p.node with
  | .insn i => i.size offset p.operand p.wide
  | _ => return 0

/-! ## 2. Offsets -/

/-- The offset of each element and of the end, after the offsets in `done`. -/
def placeFrom (done : Array UInt32) (offset : UInt32) : List Piece → Outcome (Array UInt32)
  | [] => return done.push offset
  | p :: rest => do
    let size ← p.size offset
    let next ← addWord32 offset size
    placeFrom (done.push offset) next rest

/-- The offset of each element, and last of the end. -/
def placeAll (pieces : List Piece) : Outcome (Array Nat) :=
  return (← placeFrom #[] 0 pieces).map UInt32.toNat

/-- The offset at a position of the node list, the end included. -/
def offsetAt (offsets : Array Nat) (position : Nat) : Nat :=
  (offsets[position]?).getD 0

/-- The offset of a label that is placed. -/
def labelOffset (positions : Std.HashMap Label Nat) (offsets : Array Nat) (l : Label) : Nat :=
  offsetAt offsets ((positions[l]?).getD 0)

/-! ## 3. Layouts -/

/-- Where the elements of a method's code are. -/
structure Layout where
  pieces : List Piece
  positions : Std.HashMap Label Nat
  offsets : Array Nat

namespace Layout

/-- The length of the code. -/
def codeLength (l : Layout) : Nat :=
  offsetAt l.offsets l.pieces.length

/-- The offset of a label. -/
def offsetOf (l : Layout) (label : Label) : Nat :=
  labelOffset l.positions l.offsets label

/-- The offset of a label, if it is placed. -/
def offsetOf? (l : Layout) (label : Label) : Option Nat :=
  (l.positions[label]?).map (offsetAt l.offsets)

/-- The elements with their offsets. -/
def placed (l : Layout) : List (Piece × Nat) :=
  l.pieces.zip l.offsets.toList

/-- The source lines that stand before an instruction, with their offsets. -/
def lines (l : Layout) : List (Nat × UInt16) :=
  let stop := l.codeLength
  l.placed.filterMap fun (p, offset) =>
    match p.node with
    | .line number => if offset < stop then some (offset, number) else none
    | _ => none

end Layout

/-! ## 4. Widening -/

/-- Whether a displacement fits a short jump. -/
def inReach (delta : Int) : Bool :=
  -0x8000 ≤ delta && delta ≤ 0x7fff

/-- Whether an element at an offset is a short jump to a target out of reach. -/
def Piece.overflows (p : Piece) (offset : Nat) (target : Label → Nat) : Bool :=
  match p.node with
  | .insn (.jump _ l) => !p.wide && !inReach ((target l : Int) - offset)
  | _ => false

/-- The element, wide if it was a short jump to a target out of reach. -/
def Piece.widen (target : Label → Nat) (placed : Piece × Nat) : Piece :=
  if placed.1.overflows placed.2 target then { placed.1 with wide := true } else placed.1

/-- Number of elements that are not wide. -/
def countNarrow (pieces : List Piece) : Nat :=
  pieces.countP fun p => !p.wide

theorem countNarrow_widen_le (target : Label → Nat) (placed : List (Piece × Nat)) :
    countNarrow (placed.map (Piece.widen target)) ≤ countNarrow (placed.map Prod.fst) := by
  induction placed with
  | nil => simp [countNarrow]
  | cons a rest ih =>
    simp only [countNarrow, List.map_cons, List.countP_cons] at ih ⊢
    have : (if !(Piece.widen target a).wide then 1 else 0) ≤ if !a.1.wide then 1 else 0 := by
      unfold Piece.widen; split <;> simp
    omega

theorem countNarrow_widen_lt {target : Label → Nat} {placed : List (Piece × Nat)}
    (h : ∃ a ∈ placed, a.1.overflows a.2 target = true) :
    countNarrow (placed.map (Piece.widen target)) < countNarrow (placed.map Prod.fst) := by
  induction placed with
  | nil => simp at h
  | cons a rest ih =>
    have hle := countNarrow_widen_le target rest
    have hhead : (if !(Piece.widen target a).wide then 1 else 0) ≤ if !a.1.wide then 1 else 0 := by
      unfold Piece.widen; split <;> simp
    simp only [countNarrow, List.map_cons, List.countP_cons] at ih hle ⊢
    by_cases ha : a.1.overflows a.2 target = true
    · have hnarrow : a.1.wide = false := by
        unfold Piece.overflows at ha
        split at ha <;> simp_all
      have hwide : (Piece.widen target a).wide = true := by simp [Piece.widen, ha]
      simp only [hnarrow, hwide, Bool.not_true, Bool.not_false, if_true] at hhead ⊢
      simp only [Bool.false_eq_true, if_false]
      omega
    · obtain ⟨b, hb, hb'⟩ := h
      have hmem : b ∈ rest := by
        rcases List.mem_cons.1 hb with rfl | hb
        · exact absurd hb' ha
        · exact hb
      have := ih ⟨b, hmem, hb'⟩
      omega

theorem countNarrow_zip_le (pieces : List Piece) (offsets : List Nat) :
    countNarrow ((pieces.zip offsets).map Prod.fst) ≤ countNarrow pieces := by
  refine List.Sublist.countP_le ?_
  induction pieces generalizing offsets with
  | nil => simp
  | cons p rest ih =>
    cases offsets with
    | nil => simp
    | cons offset offsets => exact (ih offsets).cons_cons p

/-- Makes jumps wide until every short one reaches its target. -/
def Layout.settle (positions : Std.HashMap Label Nat) (pieces : List Piece) : Outcome Layout := do
  let offsets ← placeAll pieces
  let target := labelOffset positions offsets
  let placed := pieces.zip offsets.toList
  if h : placed.any (fun a => a.1.overflows a.2 target) then
    have : countNarrow (placed.map (Piece.widen target)) < countNarrow pieces :=
      Nat.lt_of_lt_of_le (countNarrow_widen_lt (by simpa using List.any_eq_true.1 h))
        (countNarrow_zip_le pieces offsets.toList)
    settle positions (placed.map (Piece.widen target))
  else return { pieces, positions, offsets }
termination_by countNarrow pieces

end Rewire
