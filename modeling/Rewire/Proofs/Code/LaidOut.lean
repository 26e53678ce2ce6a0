import Mathlib
import Rewire.Code.WellFormed
import Rewire.Proofs.Code.Operands
import Rewire.Proofs.Code.Settled
import Rewire.Proofs.Code.Stream

/-!
# Methods that are laid out

Laying a method out gives its operands slots and its nodes offsets. This file fixes

* the steps of laying out that have to succeed (`layOut_eq_ok`);
* what a layout of a method has (`LaidOut`): its elements are the nodes, their operands have slots,
  and every label that is referred to is placed (`laidOut_of_layOut`);
* where labels are: at the start of an instruction or at the end (`LaidOut.place_of_reference`), and
  where an instruction follows, at its start (`LaidOut.start_of_landing`).
-/

namespace Rewire

open ConstantPool

/-! ## 1. Elements -/

/-- Whether an element stands for a node, with a slot for its operand. -/
structure Piece.StandsFor (pool : ConstantPool) (node : Node) (p : Piece) : Prop where
  node_eq : p.node = node
  interned : ∀ i, node = .insn i → i.Interned pool p.operand

theorem lasting_standsFor (node : Node) (p : Piece) : Lasting fun pool => p.StandsFor pool node :=
  fun _ _ hgrow h => ⟨h.node_eq, fun i hi => (h.interned i hi).growsTo hgrow⟩

theorem finds_internPiece (node : Node) :
    Finds (internPiece node) fun q p => p.StandsFor q node := by
  cases node with
  | insn i =>
    have h := finds_bind (finds_internOperand i) (fun k p q hgrow hk => hk.growsTo hgrow)
      fun k => finds_pure ({ node := .insn i, operand := k } : Piece)
    refine h.weaken fun q p ⟨k, hk, hp⟩ => ?_
    subst hp
    exact ⟨rfl, fun j hj => by cases hj; exact hk⟩
  | label l =>
    exact (finds_pure _).weaken fun q p hp => ⟨by rw [hp], fun i hi => by cases hi⟩
  | line n =>
    exact (finds_pure _).weaken fun q p hp => ⟨by rw [hp], fun i hi => by cases hi⟩

/-! ## 2. Layouts -/

/-- What a layout of a method has in a pool. -/
structure LaidOut (m : Method) (pool : ConstantPool) (l : Layout) : Prop where
  consistent : l.Consistent
  stand : List.Forall₂ (fun node p => p.StandsFor pool node) m.nodes.toList l.pieces
  position : ∀ label k, l.positions[label]? = some k ↔ m.nodes[k]? = some (Node.label label)
  placed : ∀ label ∈ m.references, ∃ k, l.positions[label]? = some k
  small : l.codeLength ≤ maxCodeLength

theorem standsFor_widened {pool : ConstantPool} {nodes : List Node} {pieces widened : List Piece}
    (h : List.Forall₂ (fun node p => p.StandsFor pool node) nodes pieces)
    (same : SameNodes pieces widened) :
    List.Forall₂ (fun node p => p.StandsFor pool node) nodes widened := by
  induction h generalizing widened with
  | nil =>
    cases same
    exact .nil
  | cons hp _ ih =>
    cases same with
    | cons hq hrest =>
      refine .cons ⟨hq.1.trans hp.node_eq, fun i hi => ?_⟩ (ih hrest)
      rw [hq.2]
      exact hp.interned i hi

theorem placed_of_checkReferences {m : Method} {positions : Std.HashMap Label Nat} {u : Unit}
    (h : checkReferences m positions = .ok u) :
    ∀ label ∈ m.references, ∃ k, positions[label]? = some k := by
  intro label hlabel
  unfold checkReferences at h
  split at h
  · cases h
  · rename_i hnone
    have hcontains : positions.contains label = true := by
      simpa using List.find?_eq_none.1 hnone label hlabel
    rw [Std.HashMap.contains_eq_isSome_getElem?] at hcontains
    exact Option.isSome_iff_exists.1 hcontains

/-- Laying out succeeds exactly when each of its steps does. -/
theorem layOut_eq_ok {m : Method} {p q : ConstantPool} {l : Layout} :
    layOut m p = (.ok l, q) ↔
      m.nodes.all Node.isMarker = false ∧ ∃ positions pieces,
        distinctPositions m.nodes = .ok positions ∧ checkReferences m positions = .ok () ∧
        m.nodes.toList.mapM internPiece p = (.ok pieces, q) ∧
        l = Layout.ofPieces positions pieces ∧ l.codeLength ≤ maxCodeLength := by
  constructor
  · intro h
    unfold layOut at h
    split at h
    · cases h
    rename_i hmarkers
    obtain ⟨positions, p₁, h₁, hrest₁⟩ := Step.bind_eq_ok.1 h
    obtain ⟨hpositions, rfl⟩ := Step.lift_eq_ok.1 h₁
    obtain ⟨⟨⟩, p₂, h₂, hrest₂⟩ := Step.bind_eq_ok.1 hrest₁
    obtain ⟨hcheck, rfl⟩ := Step.lift_eq_ok.1 h₂
    obtain ⟨pieces, _, hpieces, hrest₃⟩ := Step.bind_eq_ok.1 hrest₂
    obtain ⟨l', _, h₃, hrest⟩ := Step.bind_eq_ok.1 hrest₃
    obtain ⟨hsettle, rfl⟩ := Step.lift_eq_ok.1 h₃
    split at hrest
    · cases hrest
    rename_i hsmall
    obtain ⟨rfl, rfl⟩ := Step.pure_eq_ok.1 hrest
    exact ⟨Bool.eq_false_iff.2 hmarkers, positions, pieces, hpositions, hcheck, hpieces,
      (Layout.settle_eq_ok.1 hsettle).1, Nat.le_of_not_lt hsmall⟩
  · rintro ⟨hmarkers, positions, pieces, hpositions, hcheck, hpieces, rfl, hsmall⟩
    unfold layOut
    rw [if_neg (Bool.eq_false_iff.1 hmarkers)]
    have hlt := Nat.lt_of_le_of_lt hsmall (show maxCodeLength < 0x100000000 by decide)
    refine Step.bind_eq_ok.2 ⟨_, _, Step.lift_eq_ok.2 ⟨hpositions, rfl⟩, Step.bind_eq_ok.2
      ⟨_, _, Step.lift_eq_ok.2 ⟨hcheck, rfl⟩, Step.bind_eq_ok.2 ⟨_, _, hpieces, Step.bind_eq_ok.2
        ⟨_, _, Step.lift_eq_ok.2 ⟨Layout.settle_eq_ok.2 ⟨rfl, hlt⟩, rfl⟩, ?_⟩⟩⟩⟩
    rw [if_neg (Nat.not_lt.2 hsmall)]
    rfl

/-- Elements stay as they are when none of them is a jump. -/
theorem widenAll_of_no_jumps {positions : Std.HashMap Label Nat} {pieces : List Piece}
    (jumps : ∀ p ∈ pieces, ∀ op label, p.node ≠ .insn (.jump op label)) :
    widenAll positions pieces = pieces := by
  rw [widenAll, dif_neg]
  rw [List.any_eq_true]
  rintro ⟨placed, hplaced, hover⟩
  unfold Piece.overflows at hover
  split at hover
  · rename_i hnode
    exact jumps _ (List.of_mem_zip hplaced).1 _ _ hnode
  · cases hover

/-- A method without jumps is laid out in one go. -/
theorem layOut_of_no_jumps {m : Method} {p q : ConstantPool} {positions : Std.HashMap Label Nat}
    {pieces : List Piece} (hinsn : m.nodes.all Node.isMarker = false)
    (hpositions : distinctPositions m.nodes = .ok positions)
    (hreferences : checkReferences m positions = .ok ())
    (hpieces : m.nodes.toList.mapM internPiece p = (.ok pieces, q))
    (jumps : ∀ p ∈ pieces, ∀ op label, p.node ≠ .insn (.jump op label))
    (small : offsetAt (pieceOffsets pieces) pieces.length ≤ maxCodeLength) :
    layOut m p = (.ok ⟨pieces, positions, pieceOffsets pieces⟩, q) := by
  have hlayout : Layout.ofPieces positions pieces = ⟨pieces, positions, pieceOffsets pieces⟩ := by
    rw [Layout.ofPieces, widenAll_of_no_jumps jumps]
  exact layOut_eq_ok.2 ⟨hinsn, positions, pieces, hpositions, hreferences, hpieces, hlayout.symm,
    small⟩

/-- **A method is laid out** with its nodes for elements. -/
theorem laidOut_of_layOut {m : Method} {p q : ConstantPool} {l : Layout} (wf : p.WellFormed)
    (h : layOut m p = (.ok l, q)) : q.WellFormed ∧ p.GrowsTo q ∧ LaidOut m q l := by
  obtain ⟨-, positions, pieces, hpositions, hcheck, hpieces, rfl, small⟩ := layOut_eq_ok.1 h
  have hfinds := finds_mapM (fun node _ => finds_internPiece node) lasting_standsFor
    (l := m.nodes.toList)
  obtain ⟨hwf, hgrow, hstand⟩ := hfinds.of_ok wf hpieces
  refine ⟨hwf, hgrow, Layout.consistent_ofPieces positions pieces,
    standsFor_widened hstand (sameNodes_widenAll positions pieces), ?_, ?_, small⟩
  · exact distinctPositions_iff hpositions
  · exact placed_of_checkReferences hcheck

/-! ## 3. Places of labels -/

/-- Where skipping markers stops before the end, there is an instruction. -/
theorem exists_insn_of_skipMarkers_lt {nodes : Array Node} {k : Nat}
    (h : skipMarkers nodes k < nodes.size) : ∃ i, nodes[skipMarkers nodes k]? = some (.insn i) := by
  fun_induction skipMarkers nodes k with
  | case1 k hlt hmarker ih => exact ih h
  | case2 k hlt hinsn =>
    rw [Array.getElem?_eq_getElem hlt]
    cases hnode : nodes[k] with
    | insn i => exact ⟨i, rfl⟩
    | _ =>
      rw [hnode] at hinsn
      exact absurd rfl hinsn
  | case3 k hout => exact absurd h (Nat.lt_irrefl _)

namespace LaidOut

variable {m : Method} {p q : ConstantPool} {l : Layout}

theorem growsTo (h : LaidOut m p l) (hgrow : p.GrowsTo q) : LaidOut m q l :=
  { h with stand := h.stand.imp fun node piece hp => lasting_standsFor node piece p q hgrow hp }

theorem map_node (h : LaidOut m p l) : l.pieces.map Piece.node = m.nodes.toList := by
  have hstand := h.stand
  generalize m.nodes.toList = nodes at hstand
  generalize l.pieces = pieces at hstand
  induction hstand with
  | nil => rfl
  | cons hp _ ih => rw [List.map_cons, hp.node_eq, ih]

theorem length_pieces (h : LaidOut m p l) : l.pieces.length = m.nodes.size := by
  rw [← Array.length_toList, ← h.map_node, List.length_map]

theorem mem_insns (h : LaidOut m p l) {piece : Piece} {i : Insn} (hpiece : piece ∈ l.pieces)
    (hi : piece.node = .insn i) : i ∈ m.insns := by
  refine List.mem_filterMap.2 ⟨.insn i, ?_, rfl⟩
  rw [← h.map_node, ← hi]
  exact List.mem_map_of_mem hpiece

theorem entriesFit (h : LaidOut m p l) (fits : m.EntriesFit) : l.EntriesFit :=
  fun _ hpiece _ hi => fits _ (h.mem_insns hpiece hi)

/-- Elements can be read back when their instructions are well-formed. -/
theorem readable (h : LaidOut m p l) (form : ∀ i ∈ m.insns, i.OpcodeFits)
    (agrees : ∀ i ∈ m.insns, i.AgreesWith p) : ∀ piece ∈ l.pieces, piece.ReadableIn p := by
  intro piece hpiece i hi
  have hmem := h.mem_insns hpiece hi
  obtain ⟨node, -, hstand⟩ := exists_left_of_forall₂ h.stand hpiece
  have hnode : node = .insn i := hstand.node_eq.symm.trans hi
  exact ⟨form i hmem, (hstand.interned i hnode).operandIs (agrees i hmem)⟩

/-- A label that is referred to is at a place for an instruction or at the end. -/
theorem place_of_reference (h : LaidOut m p l) {label : Label} (hlabel : label ∈ m.references) :
    l.offsetOf label ∈ l.starts ∨ l.offsetOf label = l.codeLength := by
  obtain ⟨k, hk⟩ := h.placed label hlabel
  have hlt : k < m.nodes.size := (Array.getElem?_eq_some_iff.1 ((h.position label k).1 hk)).1
  exact h.consistent.place_of_label hk (h.length_pieces.symm ▸ Nat.le_of_lt hlt)

/-- A label that is placed is at a place for an instruction or at the end. -/
theorem place_of_offsetOf? (h : LaidOut m p l) {label : Label} {n : Nat}
    (hn : l.offsetOf? label = some n) : n ∈ l.starts ∨ n = l.codeLength := by
  obtain ⟨⟨k, hk⟩, rfl⟩ := l.offsetOf?_eq.1 hn
  have hlt : k < m.nodes.size := (Array.getElem?_eq_some_iff.1 ((h.position label k).1 hk)).1
  exact h.consistent.place_of_label hk (h.length_pieces.symm ▸ Nat.le_of_lt hlt)

/-- Where an instruction follows a label, one starts at its offset. -/
theorem start_of_landing (h : LaidOut m p l) {label : Label}
    (hlabel : (m.landing? label).isSome) : l.offsetOf label ∈ l.starts := by
  obtain ⟨target, htarget⟩ := Option.isSome_iff_exists.1 hlabel
  obtain ⟨k, hk, htarget⟩ := Option.bind_eq_some_iff.1 htarget
  have hinside : skipMarkers m.nodes k < m.nodes.size := by
    by_contra hout
    simp [hout] at htarget
  obtain ⟨hlt, hnode, -⟩ := Array.findIdx?_eq_some_iff_getElem.1 hk
  have hposition : l.positions[label]? = some k := by
    rw [h.position, Array.getElem?_eq_getElem hlt, beq_iff_eq.1 hnode]
  rw [h.consistent.offsetOf_eq hposition (h.length_pieces.symm ▸ Nat.le_of_lt hlt)]
  have hle : k ≤ skipMarkers m.nodes k := le_skipMarkers (Nat.le_of_lt hlt)
  obtain ⟨i, hget⟩ := exists_insn_of_skipMarkers_lt hinside
  refine h.consistent.start_of_position ?_
  rw [← Array.getElem?_toList, ← h.map_node, List.getElem?_map, Option.map_eq_some_iff] at hget
  obtain ⟨piece, hpiece, hinsn⟩ := hget
  refine ⟨piece, List.mem_iff_getElem?.2 ⟨skipMarkers m.nodes k - k, ?_⟩, by rw [hinsn]; rfl⟩
  rw [List.getElem?_drop, Nat.add_sub_cancel' hle, hpiece]

end LaidOut

end Rewire
