import Mathlib
import Rewire.Code.Assemble
import Rewire.Code.Lengths
import Rewire.Proofs.Outcome

/-!
# Where elements are placed

The offset of an element is where the elements before it end. This file fixes

* where elements end (`endFrom`) and the elements with their offsets as a recursion
  (`placedFrom`), which is what a layout has (`placed_eq`, `offsetAt_pieceOffsets`);
* that instructions take room (`Insn.length_pos`), so only markers are where code does not go on
  (`endFrom_eq_iff`);
* widening changes neither nodes nor operands (`sameNodes_widenAll`);
* the position of every label that is placed once (`distinctPositions_iff`).
-/

namespace Rewire

/-! ## 1. Ends and offsets -/

/-- Where elements end that start at an offset. -/
def endFrom (offset : Nat) : List Piece → Nat
  | [] => offset
  | p :: rest => endFrom (offset + p.length offset) rest

/-- Elements that start at an offset, with their offsets. -/
def placedFrom (offset : Nat) : List Piece → List (Piece × Nat)
  | [] => []
  | p :: rest => (p, offset) :: placedFrom (offset + p.length offset) rest

theorem endFrom_append (offset : Nat) (pieces more : List Piece) :
    endFrom offset (pieces ++ more) = endFrom (endFrom offset pieces) more := by
  induction pieces generalizing offset with
  | nil => rfl
  | cons p rest ih => exact ih _

theorem placedFrom_append (offset : Nat) (pieces more : List Piece) :
    placedFrom offset (pieces ++ more) =
      placedFrom offset pieces ++ placedFrom (endFrom offset pieces) more := by
  induction pieces generalizing offset with
  | nil => rfl
  | cons p rest ih => exact congrArg _ (ih _)

theorem le_endFrom (offset : Nat) (pieces : List Piece) : offset ≤ endFrom offset pieces := by
  induction pieces generalizing offset with
  | nil => exact Nat.le_refl _
  | cons p rest ih => exact Nat.le_trans (Nat.le_add_right _ _) (ih _)

/-- Elements before others end before these do. -/
theorem endFrom_take_le (offset k : Nat) (pieces : List Piece) :
    endFrom offset (pieces.take k) ≤ endFrom offset pieces := by
  conv => rhs; rw [← List.take_append_drop k pieces, endFrom_append]
  exact le_endFrom _ _

/-- Every instruction takes room. -/
theorem Insn.length_pos (i : Insn) (offset : Nat) (operand : UInt16) (wide : Bool) :
    0 < i.length offset operand wide := by
  cases i with
  | simple | field | type | invokeDynamic | multiANewArray => exact Nat.succ_pos _
  | tableSwitch | lookupSwitch =>
    simp only [Insn.length, tableSwitchLength, lookupSwitchLength]
    omega
  | int | ldc | var | iinc | jump | call =>
    simp only [Insn.length, jumpLength]
    split_ifs <;> decide

/-- Elements that take no room are markers. -/
theorem isMarker_of_endFrom_eq {offset : Nat} {pieces : List Piece}
    (h : endFrom offset pieces = offset) : ∀ p ∈ pieces, p.node.isMarker = true := by
  induction pieces generalizing offset with
  | nil => exact fun p hp => (List.not_mem_nil hp).elim
  | cons p rest ih =>
    rw [endFrom] at h
    have hrest := le_endFrom (offset + p.length offset) rest
    have hzero : p.length offset = 0 := by omega
    rw [hzero, Nat.add_zero] at h
    refine List.forall_mem_cons.2 ⟨?_, ih h⟩
    cases hnode : p.node with
    | insn i =>
      unfold Piece.length at hzero
      rw [hnode] at hzero
      exact absurd hzero (Nat.ne_of_gt (i.length_pos _ _ _))
    | label | line => rfl

theorem Piece.length_of_isMarker {p : Piece} (h : p.node.isMarker = true) (offset : Nat) :
    p.length offset = 0 := by
  unfold Piece.length
  split
  · rename_i i hi
    rw [hi] at h
    cases h
  · rfl

/-- Code goes on exactly where an instruction is left. -/
theorem endFrom_eq_iff {offset : Nat} {pieces : List Piece} :
    endFrom offset pieces = offset ↔ ∀ p ∈ pieces, p.node.isMarker = true := by
  refine ⟨isMarker_of_endFrom_eq, fun h => ?_⟩
  induction pieces with
  | nil => rfl
  | cons p rest ih =>
    obtain ⟨hp, hrest⟩ := List.forall_mem_cons.1 h
    rw [endFrom, Piece.length_of_isMarker hp, Nat.add_zero, ih hrest]

theorem map_fst_placedFrom (offset : Nat) (pieces : List Piece) :
    (placedFrom offset pieces).map Prod.fst = pieces := by
  induction pieces generalizing offset with
  | nil => rfl
  | cons p rest ih => exact congrArg _ (ih _)

theorem toList_offsetsFrom (done : Array Nat) (offset : Nat) (pieces : List Piece) :
    (offsetsFrom done offset pieces).toList =
      done.toList ++ ((placedFrom offset pieces).map Prod.snd ++ [endFrom offset pieces]) := by
  induction pieces generalizing done offset with
  | nil => simp [offsetsFrom, placedFrom, endFrom]
  | cons p rest ih => simp [offsetsFrom, placedFrom, endFrom, ih]

theorem toList_pieceOffsets (pieces : List Piece) :
    (pieceOffsets pieces).toList = (placedFrom 0 pieces).map Prod.snd ++ [endFrom 0 pieces] := by
  rw [pieceOffsets, toList_offsetsFrom]
  rfl

theorem getElem?_map_snd_placedFrom (offset k : Nat) (pieces : List Piece) :
    ((placedFrom offset pieces).map Prod.snd ++ [endFrom offset pieces])[k]? =
      if k ≤ pieces.length then some (endFrom offset (pieces.take k)) else none := by
  induction pieces generalizing offset k with
  | nil =>
    cases k with
    | zero => rfl
    | succ k => simp [placedFrom, endFrom]
  | cons p rest ih =>
    cases k with
    | zero => rfl
    | succ k =>
      simp only [placedFrom, endFrom, List.map_cons, List.cons_append, List.getElem?_cons_succ, ih,
        List.length_cons, List.take_succ_cons, Nat.add_le_add_iff_right]

/-- The offset at a position is where the elements before it end. -/
theorem offsetAt_pieceOffsets {k : Nat} {pieces : List Piece} (h : k ≤ pieces.length) :
    offsetAt (pieceOffsets pieces) k = endFrom 0 (pieces.take k) := by
  rw [offsetAt, ← Array.getElem?_toList, toList_pieceOffsets, getElem?_map_snd_placedFrom, if_pos h]
  rfl

theorem offsetAt_pieceOffsets_le (k : Nat) (pieces : List Piece) :
    offsetAt (pieceOffsets pieces) k ≤ endFrom 0 pieces := by
  by_cases h : k ≤ pieces.length
  · rw [offsetAt_pieceOffsets h]
    exact endFrom_take_le 0 k pieces
  · rw [offsetAt, ← Array.getElem?_toList, toList_pieceOffsets, getElem?_map_snd_placedFrom,
      if_neg h]
    exact Nat.zero_le _

theorem zip_pieceOffsets (pieces : List Piece) :
    pieces.zip (pieceOffsets pieces).toList = placedFrom 0 pieces := by
  have hzip : ∀ (placed : List (Piece × Nat)) (more : List Nat),
      (placed.map Prod.fst).zip (placed.map Prod.snd ++ more) = placed := by
    intro placed more
    induction placed with
    | nil => rfl
    | cons a rest ih => exact congrArg _ ih
  have h := hzip (placedFrom 0 pieces) [endFrom 0 pieces]
  rwa [map_fst_placedFrom, ← toList_pieceOffsets] at h

/-! ## 2. Layouts -/

/-- Whether a layout has the offsets of its elements. -/
def Layout.Consistent (l : Layout) : Prop :=
  l.offsets = pieceOffsets l.pieces

theorem Layout.consistent_ofPieces (positions : Std.HashMap Label Nat) (pieces : List Piece) :
    (Layout.ofPieces positions pieces).Consistent :=
  rfl

namespace Layout.Consistent

variable {l : Layout}

theorem placed_eq (h : l.Consistent) : l.placed = placedFrom 0 l.pieces := by
  rw [Layout.placed, h, zip_pieceOffsets]

theorem codeLength_eq (h : l.Consistent) : l.codeLength = endFrom 0 l.pieces := by
  rw [Layout.codeLength, h, offsetAt_pieceOffsets (Nat.le_refl _), List.take_length]

theorem offsetOf_le (h : l.Consistent) (label : Label) : l.offsetOf label ≤ l.codeLength := by
  rw [h.codeLength_eq, Layout.offsetOf, labelOffset, h]
  exact offsetAt_pieceOffsets_le _ _

theorem offsetOf_eq (h : l.Consistent) {label : Label} {k : Nat}
    (hk : l.positions[label]? = some k) (hle : k ≤ l.pieces.length) :
    l.offsetOf label = endFrom 0 (l.pieces.take k) := by
  rw [Layout.offsetOf, labelOffset, hk, h]
  exact offsetAt_pieceOffsets hle

end Layout.Consistent

theorem Layout.offsetOf?_eq (l : Layout) {label : Label} {n : Nat} :
    l.offsetOf? label = some n ↔ (∃ k, l.positions[label]? = some k) ∧ l.offsetOf label = n := by
  unfold Layout.offsetOf? Layout.offsetOf labelOffset
  cases l.positions[label]? with
  | none => simp
  | some k => simp

/-! ## 3. Widening -/

/-- Whether elements differ at most in being wide. -/
def SameNodes (pieces widened : List Piece) : Prop :=
  List.Forall₂ (fun p q => q.node = p.node ∧ q.operand = p.operand) pieces widened

theorem SameNodes.length_eq {pieces widened : List Piece} (h : SameNodes pieces widened) :
    pieces.length = widened.length :=
  List.Forall₂.length_eq h

theorem SameNodes.map_node {pieces widened : List Piece} (h : SameNodes pieces widened) :
    widened.map Piece.node = pieces.map Piece.node := by
  induction h with
  | nil => rfl
  | cons hpq _ ih => rw [List.map_cons, List.map_cons, hpq.1, ih]

theorem SameNodes.trans {pieces widened wider : List Piece} (h : SameNodes pieces widened)
    (h' : SameNodes widened wider) : SameNodes pieces wider := by
  induction h generalizing wider with
  | nil => exact h'
  | cons hpq _ ih =>
    cases h' with
    | cons hqr hrest => exact .cons ⟨hqr.1.trans hpq.1, hqr.2.trans hpq.2⟩ (ih hrest)

theorem sameNodes_widen (target : Label → Nat) (placed : List (Piece × Nat)) :
    SameNodes (placed.map Prod.fst) (placed.map (Piece.widen target)) := by
  unfold SameNodes
  rw [List.forall₂_map_left_iff, List.forall₂_map_right_iff, List.forall₂_same]
  intro a _
  unfold Piece.widen
  split <;> exact ⟨rfl, rfl⟩

/-- **Widening changes neither nodes nor operands.** -/
theorem sameNodes_widenAll (positions : Std.HashMap Label Nat) (pieces : List Piece) :
    SameNodes pieces (widenAll positions pieces) := by
  fun_induction widenAll positions pieces with
  | case1 pieces offsets target placed h _ ih =>
    have hfirst := sameNodes_widen target placed
    rw [show placed.map Prod.fst = pieces from map_fst_placedPieces pieces] at hfirst
    exact hfirst.trans ih
  | case2 pieces offsets target placed h =>
    exact List.forall₂_same.2 fun _ _ => ⟨rfl, rfl⟩

/-! ## 4. Positions of labels -/

/-- The positions with those of one more node. -/
def placeNode (found : Std.HashMap Label Nat) : Node × Nat → Outcome (Std.HashMap Label Nat)
  | (.label l, i) =>
    if found.contains l then fail (.labelPlacedTwice l.id) else .ok (found.insert l i)
  | _ => .ok found

theorem distinctPositions_eq (nodes : Array Node) :
    distinctPositions nodes = nodes.toList.zipIdx.foldlM placeNode ∅ := by
  unfold distinctPositions
  rw [← Array.foldlM_toList, Array.toList_zipIdx]
  congr
  funext found a
  obtain ⟨node, i⟩ := a
  cases node <;> rfl

theorem positions_foldlM {nodes : List Node} {k : Nat} {found positions : Std.HashMap Label Nat}
    (h : (nodes.zipIdx k).foldlM placeNode found = .ok positions) (l : Label) (i : Nat) :
    positions[l]? = some i ↔
      found[l]? = some i ∨ ∃ j, nodes[j]? = some (.label l) ∧ i = k + j := by
  induction nodes generalizing k found with
  | nil =>
    cases h
    simp
  | cons node rest ih =>
    rw [List.zipIdx_cons, List.foldlM_cons] at h
    obtain ⟨next, hnext, h⟩ := bind_eq_ok.1 h
    have hrest : (∃ j, (node :: rest)[j]? = some (.label l) ∧ i = k + j) ↔
        node = .label l ∧ i = k ∨ ∃ j, rest[j]? = some (.label l) ∧ i = k + 1 + j := by
      constructor
      · rintro ⟨_ | j, hj, rfl⟩
        · exact .inl ⟨Option.some.inj hj, rfl⟩
        · exact .inr ⟨j, hj, by omega⟩
      · rintro (⟨rfl, rfl⟩ | ⟨j, hj, rfl⟩)
        · exact ⟨0, rfl, rfl⟩
        · exact ⟨j + 1, hj, by omega⟩
    rw [ih h, hrest]
    cases node with
    | label l' =>
      simp only [placeNode] at hnext
      split at hnext
      · cases hnext
      · rename_i habsent
        cases hnext
        rw [Std.HashMap.getElem?_insert]
        by_cases hl : l' = l
        · subst hl
          have hnone : found[l']? = none :=
            Std.HashMap.getElem?_eq_none_of_contains_eq_false (by simpa using habsent)
          simp [hnone, eq_comm]
        · simp [hl]
    | line number =>
      cases hnext
      simp
    | insn i' =>
      cases hnext
      simp

/-- **Every label is placed once**, at its position. -/
theorem distinctPositions_iff {nodes : Array Node} {positions : Std.HashMap Label Nat}
    (h : distinctPositions nodes = .ok positions) (l : Label) (i : Nat) :
    positions[l]? = some i ↔ nodes[i]? = some (.label l) := by
  rw [distinctPositions_eq] at h
  rw [positions_foldlM h]
  simp

end Rewire
