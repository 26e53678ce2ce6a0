import Mathlib
import Rewire.Proofs.Code.Assembling

/-!
# Widening

Jumps are made wide in rounds until every short one reaches its target. This file shows

* a round is done as often as a short jump is out of reach, at most once for each jump, and then
  none is (`widenAll_rounds`, `rounds_le_jumps`);
* what a layout of a method has by position (`Layout.IsOf`): an element is behind the one before it
  (`Layout.Consistent.offsetAt_succ`), and no label is inside the room of one
  (`Layout.Consistent.offsetOf_outside`);
* the bytes of each element stand at its offset (`Layout.bytesAt_encode`);
* every jump is written (`Layout.IsOf.exists_encode_jump`), so writing does not fail over a
  displacement (`Layout.IsOf.sparesJumps_encode`).
-/

namespace Rewire

/-! ## 1. Rounds -/

/-- One round: all short jumps that are out of reach at the present offsets become wide. -/
def widenOnce (positions : Std.HashMap Label Nat) (pieces : List Piece) : List Piece :=
  (placedPieces pieces).map (Piece.widen (labelOffset positions (pieceOffsets pieces)))

/-- Whether the displacement of every short jump fits 16 bits. -/
def ShortJumpsReach (positions : Std.HashMap Label Nat) (pieces : List Piece) : Prop :=
  ∀ p offset op l, (p, offset) ∈ placedPieces pieces → p.node = .insn (.jump op l) →
    p.wide = false →
      inReach ((labelOffset positions (pieceOffsets pieces) l : Int) - offset) = true

/-- **Rounds are done until every short jump reaches its target**, and each makes a jump wide. -/
theorem widenAll_rounds (positions : Std.HashMap Label Nat) (pieces : List Piece) :
    ShortJumpsReach positions (widenAll positions pieces) ∧
      ∃ rounds, widenAll positions pieces = (widenOnce positions)^[rounds] pieces ∧
        rounds + countNarrow (widenAll positions pieces) ≤ countNarrow pieces := by
  fun_induction widenAll positions pieces with
  | case1 pieces offsets target placed h hless ih =>
    obtain ⟨hreach, rounds, heq, hle⟩ := ih
    refine ⟨hreach, rounds + 1, heq, ?_⟩
    omega
  | case2 pieces offsets target placed h =>
    refine ⟨fun p offset op l hmem hnode hshort => ?_, 0, rfl, Nat.le_of_eq (Nat.zero_add _)⟩
    by_contra hfar
    refine h (List.any_eq_true.2 ⟨_, hmem, ?_⟩)
    simp only [Piece.overflows, hnode, hshort, Bool.not_false, Bool.true_and]
    rw [Bool.eq_false_iff.2 hfar]
    rfl

/-- Whether a node is a jump. -/
def Node.isJump : Node → Bool
  | .insn (.jump _ _) => true
  | _ => false

/-- Only jumps become wide. -/
theorem isJump_of_wide {positions : Std.HashMap Label Nat} {pieces : List Piece}
    (h : ∀ p ∈ pieces, p.wide = true → p.node.isJump = true) :
    ∀ p ∈ widenAll positions pieces, p.wide = true → p.node.isJump = true := by
  fun_induction widenAll positions pieces with
  | case1 pieces offsets target placed _ _ ih =>
    refine ih fun p hp hwide => ?_
    obtain ⟨⟨q, offset⟩, hq, rfl⟩ := List.mem_map.1 hp
    unfold Piece.widen at hwide ⊢
    split
    · rename_i hover
      unfold Piece.overflows at hover
      split at hover
      · rename_i hnode
        exact congrArg Node.isJump hnode
      · cases hover
    · rename_i hover
      rw [if_neg hover] at hwide
      exact h q (List.of_mem_zip hq).1 hwide
  | case2 => exact h

/-- There are at most as many rounds as jumps. -/
theorem rounds_le_jumps {positions : Std.HashMap Label Nat} {pieces : List Piece} {rounds : Nat}
    (short : ∀ p ∈ pieces, p.wide = false)
    (h : rounds + countNarrow (widenAll positions pieces) ≤ countNarrow pieces) :
    rounds ≤ (pieces.map Piece.node).countP Node.isJump := by
  have hjump : ∀ p ∈ widenAll positions pieces, p.wide = true → p.node.isJump = true := by
    refine isJump_of_wide fun p hp hwide => ?_
    rw [short p hp] at hwide
    cases hwide
  have hnodes := (sameNodes_widenAll positions pieces).map_node
  have hothers : (pieces.map Piece.node).countP (fun node => !node.isJump) ≤
      countNarrow (widenAll positions pieces) := by
    rw [← hnodes, List.countP_map, countNarrow]
    refine List.countP_mono_left fun p hp hother => ?_
    cases hwide : p.wide with
    | false => rfl
    | true =>
      rw [Function.comp_apply, hjump p hp hwide] at hother
      cases hother
  have hall : countNarrow pieces ≤ (pieces.map Piece.node).length := by
    rw [List.length_map]
    exact List.countP_le_length
  have hsplit := List.length_eq_countP_add_countP Node.isJump (l := pieces.map Piece.node)
  simp only [Bool.not_eq_true, Bool.decide_eq_false] at hsplit
  omega

/-! ## 2. Layouts by position -/

/-- What a layout of a method has, whatever pool its operands are in. -/
structure Layout.IsOf (m : Method) (l : Layout) : Prop where
  consistent : l.Consistent
  nodes : l.pieces.map Piece.node = m.nodes.toList
  position : ∀ label k, l.positions[label]? = some k ↔ m.nodes[k]? = some (Node.label label)
  reach : ShortJumpsReach l.positions l.pieces
  small : l.codeLength ≤ maxCodeLength

theorem node_of_internPiece {node : Node} {piece : Piece} {p q : ConstantPool}
    (h : internPiece node p = (.ok piece, q)) : piece.node = node := by
  cases node with
  | insn i =>
    obtain ⟨k, t, -, h⟩ := Step.bind_eq_ok.1 h
    obtain ⟨rfl, -⟩ := Step.pure_eq_ok.1 h
    rfl
  | label | line =>
    obtain ⟨rfl, -⟩ := Step.pure_eq_ok.1 h
    rfl

theorem map_node_of_internPieces {nodes : List Node} {pieces : List Piece} {p q : ConstantPool}
    (h : nodes.mapM internPiece p = (.ok pieces, q)) : pieces.map Piece.node = nodes := by
  have hpairs := Step.forall₂_of_mapM h
  clear h
  induction hpairs with
  | nil => rfl
  | cons hp _ ih =>
    obtain ⟨_, _, hp⟩ := hp
    rw [List.map_cons, node_of_internPiece hp, ih]

/-- **A method is laid out** with short jumps that reach their targets. -/
theorem isOf_of_layOut {m : Method} {p q : ConstantPool} {l : Layout}
    (h : layOut m p = (.ok l, q)) : l.IsOf m := by
  obtain ⟨-, positions, pieces, hpositions, -, hpieces, rfl, small⟩ := layOut_eq_ok.1 h
  exact ⟨Layout.consistent_ofPieces positions pieces,
    (sameNodes_widenAll positions pieces).map_node.trans (map_node_of_internPieces hpieces),
    distinctPositions_iff hpositions,
    (widenAll_rounds positions pieces).1, small⟩

/-- Where elements end is where the last of their lengths ends. -/
theorem endFrom_eq_sum (offset : Nat) (pieces : List Piece) :
    endFrom offset pieces =
      offset + ((placedFrom offset pieces).map fun a => a.1.length a.2).sum := by
  induction pieces generalizing offset with
  | nil => rfl
  | cons p rest ih => rw [endFrom, ih, placedFrom, List.map_cons, List.sum_cons, Nat.add_assoc]

namespace Layout.Consistent

variable {l : Layout}

theorem offsetAt_eq (h : l.Consistent) {k : Nat} (hk : k ≤ l.pieces.length) :
    offsetAt l.offsets k = endFrom 0 (l.pieces.take k) := by
  rw [h, offsetAt_pieceOffsets hk]

/-- The elements are as long as the code together. -/
theorem sum_lengths (h : l.Consistent) :
    l.codeLength = (l.placed.map fun a => a.1.length a.2).sum := by
  rw [h.codeLength_eq, h.placed_eq, endFrom_eq_sum, Nat.zero_add]

/-- An element is behind the one before it. -/
theorem offsetAt_succ (h : l.Consistent) {k : Nat} {p : Piece} (hk : l.pieces[k]? = some p) :
    offsetAt l.offsets (k + 1) = offsetAt l.offsets k + p.length (offsetAt l.offsets k) := by
  have hlt : k < l.pieces.length := (List.getElem?_eq_some_iff.1 hk).1
  rw [h.offsetAt_eq hlt, h.offsetAt_eq (Nat.le_of_lt hlt), List.take_add_one, hk, endFrom_append]
  rfl

/-- Offsets grow with positions. -/
theorem offsetAt_mono (h : l.Consistent) {j k : Nat} (hjk : j ≤ k) (hk : k ≤ l.pieces.length) :
    offsetAt l.offsets j ≤ offsetAt l.offsets k := by
  rw [h.offsetAt_eq hk, h.offsetAt_eq (hjk.trans hk), ← Nat.min_eq_left hjk, ← List.take_take]
  exact endFrom_take_le 0 j _

/-- No label is inside the room of an element. -/
theorem offsetOf_outside (h : l.Consistent) {j : Nat} (hj : j < l.pieces.length) (label : Label) :
    l.offsetOf label ≤ offsetAt l.offsets j ∨ offsetAt l.offsets (j + 1) ≤ l.offsetOf label := by
  unfold Layout.offsetOf labelOffset
  generalize (l.positions[label]?).getD 0 = k
  rcases Nat.lt_or_ge l.pieces.length k with hout | hin
  · left
    have hnone : l.offsets[k]? = none := by
      rw [h]
      exact Array.getElem?_eq_none (by rw [size_pieceOffsets]; exact hout)
    rw [offsetAt, hnone]
    exact Nat.zero_le _
  · rcases Nat.lt_or_ge j k with hlt | hge
    · exact .inr (h.offsetAt_mono hlt hin)
    · exact .inl (h.offsetAt_mono hge (Nat.le_of_lt hj))

/-- Markers take no room, so the next instruction is where they are. -/
theorem offsetAt_skipMarkers (h : l.Consistent) {nodes : Array Node}
    (hnodes : l.pieces.map Piece.node = nodes.toList) {k : Nat} (hk : k ≤ nodes.size) :
    offsetAt l.offsets (skipMarkers nodes k) = offsetAt l.offsets k := by
  fun_induction skipMarkers nodes k with
  | case1 k hlt hmarker ih =>
    have hnode : (l.pieces.map Piece.node)[k]? = some nodes[k] := by
      rw [hnodes, Array.getElem?_toList, Array.getElem?_eq_getElem hlt]
    rw [List.getElem?_map, Option.map_eq_some_iff] at hnode
    obtain ⟨p, hp, hnode⟩ := hnode
    rw [ih hlt, h.offsetAt_succ hp, length_of_marker (hnode ▸ hmarker), Nat.add_zero]
  | case2 => rfl
  | case3 k hout => rw [Nat.le_antisymm (Nat.le_of_not_lt hout) hk]

end Layout.Consistent

/-! ## 3. Writing a layout -/

/-- **The bytes of each element stand at its offset.** -/
theorem Layout.bytesAt_encode {l : Layout} {code : Bytes} (h : l.encode = .ok code)
    (consistent : l.Consistent) (fits : l.EntriesFit) {k : Nat} {p : Piece}
    (hk : l.pieces[k]? = some p) :
    ∃ bytes, Piece.encode l.offsetOf (p, offsetAt l.offsets k) = .ok bytes ∧
      BytesAt code.toArray (offsetAt l.offsets k) bytes := by
  obtain ⟨hlt, hget⟩ := List.getElem?_eq_some_iff.1 hk
  obtain ⟨chunks, hchunks, h⟩ := bind_eq_ok.1 h
  cases h
  have hsplit : l.pieces = l.pieces.take k ++ p :: l.pieces.drop (k + 1) := by
    rw [← hget, ← List.drop_eq_getElem_cons hlt, List.take_append_drop]
  rw [consistent.placed_eq, hsplit, placedFrom_append, List.mapM_append] at hchunks
  obtain ⟨before, hbefore, hchunks⟩ := bind_eq_ok.1 hchunks
  obtain ⟨rest, hrest, hchunks⟩ := bind_eq_ok.1 hchunks
  cases hchunks
  rw [placedFrom, List.mapM_cons] at hrest
  obtain ⟨bytes, hbytes, hrest⟩ := bind_eq_ok.1 hrest
  obtain ⟨after, hafter, hrest⟩ := bind_eq_ok.1 hrest
  cases hrest
  have hoffset : offsetAt l.offsets k = before.flatten.length := by
    rw [consistent.offsetAt_eq (Nat.le_of_lt hlt), ← length_encodeFrom hbefore fun q hq =>
      fits q (List.mem_of_mem_take hq), Nat.zero_add]
  refine ⟨bytes, ?_, ?_⟩
  · rwa [consistent.offsetAt_eq (Nat.le_of_lt hlt)]
  · rw [hoffset, List.flatten_append, List.flatten_cons, ← List.append_assoc]
    exact bytesAt_of_append _ _ _

/-- A jump that is no `goto` or `jsr` is a condition, which has an opposite. -/
theorem exists_opposite {op : UInt8} : Opcode.IsShortJump op → ¬(op = Opcode.goto ∨ op = Opcode.jsr) →
    ∃ opposite, oppositeCondition op = .ok opposite := by
  refine forall_opcode (P := fun op => Opcode.IsShortJump op →
    ¬(op = Opcode.goto ∨ op = Opcode.jsr) → ∃ opposite, oppositeCondition op = .ok opposite) ?_ op
  have hall : ∀ n : Fin 256, Opcode.IsShortJump (UInt8.ofNat n) →
      ¬(UInt8.ofNat n = Opcode.goto ∨ UInt8.ofNat n = Opcode.jsr) →
        (oppositeCondition (UInt8.ofNat n)).toOption.isSome := by
    decide +kernel
  intro n form hcondition
  cases h : oppositeCondition (UInt8.ofNat n) with
  | error e =>
    have := hall n form hcondition
    rw [h] at this
    cases this
  | ok opposite => exact ⟨opposite, rfl⟩

/-- A jump is written when a short one reaches its target. -/
theorem exists_encodeJump {op : UInt8} {wide : Bool} {delta : Int} (form : Opcode.IsShortJump op)
    (hreach : wide = false → inReach delta = true) (hge : -(maxCodeLength : Int) ≤ delta)
    (hle : delta ≤ maxCodeLength) : ∃ bytes, encodeJump op wide delta = .ok bytes := by
  have hfit : ∀ n : Int, -(maxCodeLength : Int) - 3 ≤ n → n ≤ maxCodeLength →
      fitSigned32 .writingJump n = .ok (Int32.ofInt n) := by
    intro n h₁ h₂
    simp only [maxCodeLength] at h₁ h₂
    unfold fitSigned32
    rw [fitRange_eq_ok (by omega) (by omega)]
    rfl
  unfold encodeJump
  cases wide with
  | false =>
    have hrange := hreach rfl
    simp only [inReach, Bool.and_eq_true, decide_eq_true_eq] at hrange
    exact ⟨_, bind_eq_ok.2 ⟨_, bind_eq_ok.2 ⟨_, fitRange_eq_ok hrange.1 hrange.2, rfl⟩, rfl⟩⟩
  | true =>
    simp only [Bool.not_true, Bool.false_eq_true, if_false]
    split
    · exact ⟨_, bind_eq_ok.2 ⟨_, hfit _ (by omega) hle, rfl⟩⟩
    · rename_i hcondition
      obtain ⟨opposite, hopposite⟩ := exists_opposite form hcondition
      exact ⟨_, bind_eq_ok.2 ⟨_, hopposite, bind_eq_ok.2 ⟨_, hfit _ (by omega) (by omega), rfl⟩⟩⟩

namespace Layout.IsOf

variable {m : Method} {l : Layout}

theorem mem_insns (h : l.IsOf m) {p : Piece} {i : Insn} (hp : p ∈ l.pieces)
    (hi : p.node = .insn i) : i ∈ m.insns := by
  rw [Method.mem_insns_iff, ← h.nodes, ← hi]
  exact List.mem_map_of_mem hp

/-- **Every jump is written.** -/
theorem exists_encode_jump (h : l.IsOf m)
    (jumps : ∀ op label, .jump op label ∈ m.insns → Opcode.IsShortJump op) {p : Piece} {offset : Nat}
    {op : UInt8} {label : Label} (hp : (p, offset) ∈ l.placed)
    (hnode : p.node = .insn (.jump op label)) :
    ∃ bytes, Piece.encode l.offsetOf (p, offset) = .ok bytes := by
  have hmem := List.of_mem_zip hp
  have hoffset : offset ≤ l.codeLength := by
    have hplaced := hp
    rw [h.consistent.placed_eq] at hplaced
    obtain ⟨before, after, hpieces, hoffset⟩ := mem_placedFrom.1 hplaced
    simp only at hpieces hoffset
    rw [h.consistent.codeLength_eq, hpieces, hoffset, endFrom_append]
    exact le_endFrom _ _
  have hlabel := h.consistent.offsetOf_le label
  have small := h.small
  unfold Piece.encode
  rw [hnode]
  refine exists_encodeJump (jumps op label (h.mem_insns hmem.1 hnode)) (fun hshort => ?_) ?_ ?_
  · have hreach := h.reach p offset op label (by
      rw [placedPieces, ← h.consistent]
      exact hp) hnode hshort
    rwa [← h.consistent] at hreach
  · simp only [Insn.encode.delta]
    omega
  · simp only [Insn.encode.delta]
    omega

end Layout.IsOf

/-! ## 4. Failures over displacements -/

/-- Whether an outcome is a value or a failure that is not over the displacement of a jump. -/
def SparesJumps {α : Type} (x : Outcome α) : Prop :=
  ∀ e, x = .error e → e.activities ≠ [.writingJump]

namespace SparesJumps

variable {α β : Type} {x : Outcome α} {f : α → Outcome β}

theorem ok (a : α) : SparesJumps (.ok a : Outcome α) := by
  intro e h
  cases h

theorem fail (fault : Fault) : SparesJumps (fail fault : Outcome α) := by
  intro e h
  cases h
  exact (List.cons_ne_nil _ _).symm

theorem bind (hx : SparesJumps x) (hf : ∀ a, SparesJumps (f a)) : SparesJumps (x >>= f) := by
  intro e h
  rcases bind_eq_error.1 h with h | ⟨a, -, h⟩
  · exact hx e h
  · exact hf a e h

theorem during {a : Activity} (ha : a ≠ .writingJump) (x : Outcome α) :
    SparesJumps (during a x) := by
  intro e h
  cases x with
  | error e' =>
    cases h
    exact fun heq => ha (List.cons.inj heq).1
  | ok b => cases h

theorem fitRange {a : Activity} (ha : a ≠ .writingJump) (least greatest n : Int) :
    SparesJumps (fitRange a least greatest n) := by
  unfold Rewire.fitRange
  split
  · exact during ha _
  split
  · exact during ha _
  · exact ok n

theorem parse (text : String) : SparesJumps (Descriptor.parse text) := by
  unfold Descriptor.parse
  refine (during (by simp) _).bind fun d => ?_
  dsimp only
  split
  · exact fail _
  · exact ok _

theorem foldlM {β : Type} {f : β → α → Outcome β} (hf : ∀ b a, SparesJumps (f b a)) (l : List α)
    (b : β) : SparesJumps (l.foldlM f b) := by
  induction l generalizing b with
  | nil => exact ok b
  | cons a rest ih => exact (hf b a).bind ih

theorem addWord16 (a b : UInt16) : SparesJumps (addWord16 a b) := by
  unfold Rewire.addWord16
  split
  · exact ok _
  · exact fail _

theorem argumentWidth (d : Descriptor) : SparesJumps d.argumentWidth :=
  foldlM (fun _ _ => addWord16 _ _) _ _

/-- Only jumps fail over a displacement. -/
theorem encode {i : Insn} (hjump : ∀ op l, i ≠ .jump op l) (offset : Nat) (operand : UInt16)
    (wide : Bool) (target : Label → Nat) : SparesJumps (i.encode offset operand wide target) := by
  cases i with
  | int op value =>
    simp only [Insn.encode, encodeInt]
    split
    · exact ((fitRange (by simp) _ _ _).bind fun _ => ok _).bind fun _ => ok _
    · split
      · exact ((fitRange (by simp) _ _ _).bind fun _ => ok _).bind fun _ => ok _
      · exact ((fitRange (by simp) _ _ _).bind fun _ => ok _).bind fun _ => ok _
  | var op slot =>
    simp only [Insn.encode, encodeVar, shortForm]
    split
    · exact ok _
    split
    · refine bind ?_ fun _ => ok _
      split
      · exact ok _
      split
      · exact ok _
      · exact fail _
    · exact ok _
  | jump op l => exact absurd rfl (hjump op l)
  | tableSwitch low high default targets =>
    simp only [Insn.encode]
    split
    · exact fail _
    · exact ok _
  | call site =>
    simp only [Insn.encode]
    split
    · exact (parse _).bind fun d => (argumentWidth d).bind fun _ => (addWord16 _ _).bind fun _ =>
        ((fitRange (by simp) _ _ _).bind fun _ => ok _).bind fun _ => ok _
    · exact ok _
  | _ => exact ok _

end SparesJumps

/-- **Writing a layout does not fail over the displacement of a jump.** -/
theorem Layout.IsOf.sparesJumps_encode {m : Method} {l : Layout} (h : l.IsOf m)
    (jumps : ∀ op label, .jump op label ∈ m.insns → Opcode.IsShortJump op) :
    SparesJumps l.encode := by
  intro e he
  rcases bind_eq_error.1 he with he | ⟨chunks, -, he⟩
  · obtain ⟨⟨p, offset⟩, hp, he⟩ := exists_of_mapM_error he
    unfold Piece.encode at he
    cases hnode : p.node with
    | insn i =>
      simp only [hnode] at he
      refine SparesJumps.encode (fun op label hi => ?_) _ _ _ _ e he
      obtain ⟨bytes, hbytes⟩ := h.exists_encode_jump jumps hp (hi ▸ hnode)
      unfold Piece.encode at hbytes
      simp only [hnode] at hbytes
      rw [hbytes] at he
      cases he
    | _ =>
      simp only [hnode] at he
      cases he
  · cases he

end Rewire
