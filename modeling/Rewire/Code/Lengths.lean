import Rewire.Code.Layout

/-!
# Layouts in numbers

Sizes and offsets are computed in 32-bit words. This file fixes the same layouts in natural numbers,
where no sum is too large: the length of an element (`Piece.length`), the offsets of all elements
(`pieceOffsets`), and the layout in which every jump reaches its target (`Layout.ofPieces`).
-/

namespace Rewire

/-! ## 1. Lengths -/

/-- The length of a jump. -/
def jumpLength (op : UInt8) (wide : Bool) : Nat :=
  if !wide then 3 else if op = Opcode.goto ∨ op = Opcode.jsr then 5 else 8

/-- The number of entries of a switch. -/
def Insn.entries : Insn → Nat
  | .tableSwitch _ _ _ targets => targets.length
  | .lookupSwitch _ pairs => pairs.length
  | _ => 0

/-- Whether the number of entries of a switch is a 32-bit word. -/
def Insn.EntriesFit (i : Insn) : Prop :=
  i.entries < 0x100000000

/-- What is counted of a number of entries: the last 32 bits. -/
def countedEntries (entries : Nat) : Nat :=
  (UInt32.ofNat entries).toNat

theorem countedEntries_of_lt {entries : Nat} (h : entries < 0x100000000) :
    countedEntries entries = entries :=
  UInt32.toNat_ofNat_of_lt' h

/-- The length of an instruction at an offset. -/
def Insn.length (offset : Nat) (operand : UInt16) (wide : Bool) : Insn → Nat
  | .simple _ => 1
  | .int op _ => if op = Opcode.sipush then 3 else 2
  | .ldc value => if value.isWide ∨ 255 < operand then 3 else 2
  | .var op slot => if 255 < slot then 4 else if hasShortForm op slot then 1 else 2
  | .iinc slot delta => if iincIsShort slot delta then 3 else 6
  | .jump op _ => jumpLength op wide
  | .tableSwitch _ _ _ targets => tableSwitchLength offset (countedEntries targets.length)
  | .lookupSwitch _ pairs => lookupSwitchLength offset (countedEntries pairs.length)
  | .field _ _ | .type _ _ => 3
  | .call site => if site.kind = .interface then 5 else 3
  | .invokeDynamic _ _ _ => 5
  | .multiANewArray _ _ => 4

/-- Whether the numbers of entries of all switches of a layout are 32-bit words. -/
def Layout.EntriesFit (l : Layout) : Prop :=
  ∀ p ∈ l.pieces, ∀ i, p.node = .insn i → i.EntriesFit

/-- The length of an element at an offset; labels and lines take no room. -/
def Piece.length (p : Piece) (offset : Nat) : Nat :=
  match p.node with
  | .insn i => i.length offset p.operand p.wide
  | _ => 0

/-! ## 2. Offsets -/

/-- The offset of each element and of the end, after the offsets in `done`. -/
def offsetsFrom (done : Array Nat) (offset : Nat) : List Piece → Array Nat
  | [] => done.push offset
  | p :: rest => offsetsFrom (done.push offset) (offset + p.length offset) rest

/-- The offset of each element, and last of the end. -/
def pieceOffsets (pieces : List Piece) : Array Nat :=
  offsetsFrom #[] 0 pieces

theorem size_offsetsFrom (done : Array Nat) (offset : Nat) (pieces : List Piece) :
    (offsetsFrom done offset pieces).size = done.size + pieces.length + 1 := by
  induction pieces generalizing done offset with
  | nil => simp [offsetsFrom]
  | cons p rest ih => simp [offsetsFrom, ih]; omega

@[simp] theorem size_pieceOffsets (pieces : List Piece) :
    (pieceOffsets pieces).size = pieces.length + 1 := by
  simp [pieceOffsets, size_offsetsFrom]

/-! ## 3. Widening -/

/-- The elements with their offsets. -/
def placedPieces (pieces : List Piece) : List (Piece × Nat) :=
  pieces.zip (pieceOffsets pieces).toList

theorem map_fst_placedPieces (pieces : List Piece) :
    (placedPieces pieces).map Prod.fst = pieces := by
  simp only [placedPieces]
  exact List.map_fst_zip (by simp)

/-- Makes jumps wide until every short one reaches its target. -/
def widenAll (positions : Std.HashMap Label Nat) (pieces : List Piece) : List Piece :=
  let offsets := pieceOffsets pieces
  let target := labelOffset positions offsets
  let placed := pieces.zip offsets.toList
  if h : placed.any (fun a => a.1.overflows a.2 target) then
    have : countNarrow (placed.map (Piece.widen target)) < countNarrow pieces := by
      have := countNarrow_widen_lt (by simpa using List.any_eq_true.1 h)
      rwa [show placed.map Prod.fst = pieces from map_fst_placedPieces pieces] at this
    widenAll positions (placed.map (Piece.widen target))
  else pieces
termination_by countNarrow pieces

/-- The layout in which every jump reaches its target. -/
def Layout.ofPieces (positions : Std.HashMap Label Nat) (pieces : List Piece) : Layout :=
  let pieces := widenAll positions pieces
  { pieces, positions, offsets := pieceOffsets pieces }

end Rewire
