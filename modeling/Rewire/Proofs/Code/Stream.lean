import Mathlib
import Rewire.Proofs.Code.Jumps
import Rewire.Proofs.Code.Placement

/-!
# The instructions of a layout

The bytes of a layout are cut into the instructions that its elements are read back as, each at its
offset. This file shows

* how a scan goes on behind an instruction (`scanFrom_of_insn`), so code which is cut into
  instructions is scanned as those (`scanFrom_of_outline`), and that a scan only succeeds when all of
  them jump into the code (`targets_lt_of_scanFrom`);
* the instructions of a layout with their offsets (`Layout.stream`), into which its bytes are cut
  (`Layout.cut_stream`), with the bytes of each element at its offset (`Layout.bytesAt_of_placed`);
* where an instruction follows a position, one starts at its offset (`Layout.start_of_position`).
-/

namespace Rewire

/-! ## 1. Code that is cut into instructions -/

section Cut

variable {code : Array UInt8} {pool : ConstantPool} {a b c : Nat} {s t : List (Nat × Insn)}
  {P : Nat → Nat → Insn → Prop}

theorem CutBy.append (h : CutBy P a s b) (h' : CutBy P b t c) : CutBy P a (s ++ t) c := by
  induction h with
  | nil => exact h'
  | cons hi _ ih => exact .cons hi (ih h')

theorem CutBy.le (h : CutBy P a s b) : a ≤ b := by
  induction h with
  | nil => exact Nat.le_refl _
  | cons _ _ ih => exact Nat.le_trans (Nat.le_add_right _ _) ih

theorem CutBy.of_mem (h : CutBy P a s b) {e : Nat × Insn} (he : e ∈ s) :
    ∃ length, P e.1 length e.2 := by
  induction h with
  | nil => cases he
  | cons hi _ ih =>
    rcases List.mem_cons.1 he with rfl | he
    · exact ⟨_, hi⟩
    · exact ih he

namespace Outline

/-- Instructions start between the ends. -/
theorem bounds (h : Outline code a s b) {e : Nat × Insn} (he : e ∈ s) : a ≤ e.1 ∧ e.1 < b := by
  induction h with
  | nil => cases he
  | cons hi hrest ih =>
    rcases List.mem_cons.1 he with rfl | he
    · exact ⟨Nat.le_refl _, Nat.lt_of_lt_of_le (Nat.lt_add_of_pos_right hi.pos) hrest.le⟩
    · exact ⟨Nat.le_trans (Nat.le_add_right _ _) (ih he).1, (ih he).2⟩

/-- Instructions start at ascending offsets. -/
theorem ascending (h : Outline code a s b) : (s.map Prod.fst).Pairwise (· < ·) := by
  induction h with
  | nil => exact .nil
  | cons hi hrest ih =>
    rw [List.map_cons, List.pairwise_cons]
    refine ⟨fun n hn => ?_, ih⟩
    obtain ⟨e, he, rfl⟩ := List.mem_map.1 hn
    exact Nat.lt_of_lt_of_le (Nat.lt_add_of_pos_right hi.pos) (bounds hrest he).1

/-- So do the places for instructions and the end. -/
theorem nodup_places (h : Outline code a s b) : (s.map Prod.fst ++ [b]).Nodup := by
  refine List.Pairwise.imp Nat.ne_of_lt (List.pairwise_append.2
    ⟨h.ascending, List.pairwise_singleton _ _, fun n hn m hm => ?_⟩)
  obtain ⟨e, he, rfl⟩ := List.mem_map.1 hn
  rw [List.mem_singleton.1 hm]
  exact (h.bounds he).2

end Outline

/-- Whether all instructions jump to offsets below the given one. -/
def JumpsBelow (stop : Nat) (s : List (Nat × Insn)) : Prop :=
  ∀ e ∈ s, ∀ t ∈ e.2.targets, t.id < stop

/-- The offsets that instructions jump to. -/
def targetOffsets (s : List (Nat × Insn)) : List Nat :=
  s.flatMap fun e => e.2.targets.map Label.id

theorem branchTarget_of_lt {offset n : Nat} (small : code.size ≤ maxCodeLength)
    (h : n < code.size) : branchTarget code offset ((n : Int) - offset) = .ok n := by
  have hlt : n < 0x100000000 :=
    Nat.lt_trans (Nat.lt_of_lt_of_le h small) (by decide)
  unfold branchTarget
  simp only [add_sub_cancel, asOffset_of_lt hlt]
  exact if_pos ⟨Int.natCast_nonneg n, Int.ofNat_lt.2 h⟩

theorem lt_of_branchTarget {offset n k : Nat}
    (h : branchTarget code offset ((n : Int) - offset) = .ok k) : n < code.size := by
  unfold branchTarget at h
  have heq : (offset : Int) + ((n : Int) - offset) = n := by omega
  simp only [heq] at h
  split at h
  · rename_i hin
    exact Int.ofNat_lt.1 hin.2
  · cases h

/-- A scan ends where the code does. -/
theorem scanFrom_of_end {offset : Nat} {found : CodeScan} (h : code.size ≤ offset) :
    scanFrom code offset found = .ok found := by
  rw [scanFrom, if_neg (Nat.not_lt.2 h)]
  rfl

/-- A scan goes on behind an instruction that lies in the code. -/
theorem scanFrom_of_insn {offset : Nat} {found scan : CodeScan} (length : Nat) (targets : List Nat)
    (hlength : insnLength code offset = .ok length) (pos : 0 < length)
    (inside : offset + length ≤ code.size) (htargets : branchTargets code offset = .ok targets)
    (h : scanFrom code (offset + length)
      { starts := found.starts.push offset, targets := found.targets ++ targets } = .ok scan) :
    scanFrom code offset found = .ok scan := by
  rw [scanFrom, if_pos (by omega)]
  refine bind_eq_ok.2 ⟨length, hlength, ?_⟩
  rw [dif_neg (by omega)]
  exact bind_eq_ok.2 ⟨targets, htargets, h⟩

/-- **Code that is cut into instructions is scanned as those.** -/
theorem scanFrom_of_outline {stop : Nat} (h : Outline code a s stop) (hstop : stop = code.size)
    (small : code.size ≤ maxCodeLength) (below : JumpsBelow code.size s) (found : CodeScan) :
    ∃ scan, scanFrom code a found = .ok scan ∧
      scan.starts.toList = found.starts.toList ++ s.map Prod.fst ∧
      scan.targets.toList = found.targets.toList ++ targetOffsets s := by
  induction h generalizing found with
  | nil offset =>
    exact ⟨found, scanFrom_of_end hstop.ge, by simp, by simp [targetOffsets]⟩
  | @cons offset length stop i rest hi hrest ih =>
    have htargets : branchTargets code offset = .ok (i.targets.map Label.id) := by
      rw [hi.targets_eq]
      exact mapM_of_forall fun t ht => branchTarget_of_lt small (below _ List.mem_cons_self t ht)
    obtain ⟨scan, hscan, hstarts, htargets'⟩ := ih hstop
      (fun e he => below e (List.mem_cons_of_mem _ he))
      { starts := found.starts.push offset, targets := found.targets ++ i.targets.map Label.id }
    refine ⟨scan, scanFrom_of_insn _ _ hi.length_eq hi.pos hi.inside htargets hscan, ?_, ?_⟩
    · rw [hstarts]
      simp
    · rw [htargets']
      simp [targetOffsets]

/-- A scan only succeeds when all instructions jump into the code. -/
theorem targets_lt_of_scanFrom {stop : Nat} (h : Outline code a s stop) {found scan : CodeScan}
    (hscan : scanFrom code a found = .ok scan) : JumpsBelow code.size s := by
  induction h generalizing found with
  | nil => exact fun e he => by cases he
  | @cons offset length stop i rest hi hrest ih =>
    have hpos := hi.pos
    have hinside := hi.inside
    rw [scanFrom, if_pos (by omega)] at hscan
    obtain ⟨n, hn, hscan⟩ := bind_eq_ok.1 hscan
    rw [hi.length_eq] at hn
    cases hn
    rw [dif_neg (by omega)] at hscan
    obtain ⟨targets, htargets, hscan⟩ := bind_eq_ok.1 hscan
    rw [hi.targets_eq, mapM_eq_ok] at htargets
    intro e he t ht
    rcases List.mem_cons.1 he with rfl | he
    · obtain ⟨k, -, hk⟩ := exists_left_of_forall₂ htargets.flip ht
      exact lt_of_branchTarget hk
    · exact ih hscan e he t ht

end Cut

/-! ## 2. The instructions of a layout -/

/-- The instructions that an element at an offset is read back as, with their offsets. -/
def readBackAt (target : Label → Nat) (placed : Piece × Nat) : List (Nat × Insn) :=
  match placed.1.node with
  | .insn i =>
    [placed.2, placed.2 + 3].zip ((i.mapLabels fun l => ⟨target l⟩).readBack placed.1.wide
      ⟨placed.2 + placed.1.length placed.2⟩)
  | _ => []

/-- The instructions of a layout as they are read back, with their offsets. -/
def Layout.stream (l : Layout) : List (Nat × Insn) :=
  l.placed.flatMap (readBackAt l.offsetOf)

theorem length_readBack (i : Insn) (wide : Bool) (after : Label) :
    (i.readBack wide after).length = 1 ∨ (i.readBack wide after).length = 2 := by
  cases i with
  | jump op l =>
    simp only [Insn.readBack]
    split
    · split
      · exact .inr rfl
      · exact .inl rfl
    · exact .inl rfl
  | _ => exact .inl rfl

theorem map_snd_readBackAt (target : Label → Nat) (p : Piece) (offset : Nat) :
    (readBackAt target (p, offset)).map Prod.snd =
      match p.node with
      | .insn i => (i.mapLabels fun l => ⟨target l⟩).readBack p.wide ⟨offset + p.length offset⟩
      | _ => [] := by
  unfold readBackAt
  cases hnode : p.node with
  | insn i =>
    refine List.map_snd_zip ?_
    rcases length_readBack (i.mapLabels fun l => ⟨target l⟩) p.wide
      ⟨offset + p.length offset⟩ with h | h
    · rw [h]
      simp
    · rw [h]
      simp
  | _ => rfl

theorem Layout.map_snd_stream (l : Layout) : l.stream.map Prod.snd = l.resolved := by
  rw [Layout.stream, Layout.resolved, List.map_flatMap]
  refine List.flatMap_congr fun a _ => ?_
  exact map_snd_readBackAt l.offsetOf a.1 a.2

/-- Whether the instruction of an element has an opcode of its form, and its operand in a pool. -/
def Piece.ReadableIn (pool : ConstantPool) (p : Piece) : Prop :=
  ∀ i, p.node = .insn i → i.OpcodeFits ∧ i.OperandIs pool p.operand

section Stream

variable {code : Array UInt8} {pool : ConstantPool} {target : Label → Nat}

theorem length_pieceEncode {p : Piece} {offset : Nat} {bytes : Bytes}
    (h : Piece.encode target (p, offset) = .ok bytes)
    (fits : ∀ i, p.node = .insn i → i.EntriesFit) : bytes.length = p.length offset := by
  unfold Piece.encode at h
  unfold Piece.length
  cases hnode : p.node with
  | insn i =>
    simp only [hnode] at h
    exact length_encode h (fits i hnode)
  | _ =>
    simp only [hnode] at h
    cases h
    rfl

theorem length_encodeFrom {offset : Nat} {pieces : List Piece} {chunks : List Bytes}
    (h : (placedFrom offset pieces).mapM (Piece.encode target) = .ok chunks)
    (fits : ∀ p ∈ pieces, ∀ i, p.node = .insn i → i.EntriesFit) :
    offset + chunks.flatten.length = endFrom offset pieces := by
  induction pieces generalizing offset chunks with
  | nil =>
    cases h
    rfl
  | cons p rest ih =>
    rw [placedFrom, List.mapM_cons] at h
    obtain ⟨bytes, hbytes, h⟩ := bind_eq_ok.1 h
    obtain ⟨more, hmore, h⟩ := bind_eq_ok.1 h
    cases h
    rw [List.flatten_cons, List.length_append, ← Nat.add_assoc,
      length_pieceEncode hbytes (fits p List.mem_cons_self)]
    exact ih hmore fun q hq => fits q (List.mem_cons_of_mem _ hq)

/-- The bytes of elements are cut into what the elements are read back as, when the bytes of each
    instruction are. -/
theorem cutBy_placedFrom {P : Nat → Nat → Insn → Prop} {offset : Nat} {pieces : List Piece}
    {chunks : List Bytes} (h : (placedFrom offset pieces).mapM (Piece.encode target) = .ok chunks)
    (fits : ∀ p ∈ pieces, ∀ i, p.node = .insn i → i.EntriesFit)
    (hat : BytesAt code offset chunks.flatten)
    (hcut : ∀ p ∈ pieces, ∀ i, p.node = .insn i → ∀ offset bytes,
      i.encode offset p.operand p.wide target = .ok bytes → BytesAt code offset bytes →
        CutBy P offset ([offset, offset + 3].zip ((i.mapLabels fun l => ⟨target l⟩).readBack p.wide
          ⟨offset + bytes.length⟩)) (offset + bytes.length)) :
    CutBy P offset ((placedFrom offset pieces).flatMap (readBackAt target))
      (endFrom offset pieces) := by
  induction pieces generalizing offset chunks with
  | nil => exact .nil offset
  | cons p rest ih =>
    rw [placedFrom, List.mapM_cons] at h
    obtain ⟨bytes, hbytes, h⟩ := bind_eq_ok.1 h
    obtain ⟨more, hmore, h⟩ := bind_eq_ok.1 h
    cases h
    obtain ⟨hfirst, hrest⟩ := bytesAt_append.1 hat
    have hlength := length_pieceEncode hbytes (fits p List.mem_cons_self)
    rw [hlength] at hrest
    have hrest := ih hmore (fun q hq => fits q (List.mem_cons_of_mem _ hq)) hrest fun q hq =>
      hcut q (List.mem_cons_of_mem _ hq)
    refine CutBy.append (b := offset + p.length offset) ?_ hrest
    unfold readBackAt
    cases hnode : p.node with
    | insn i =>
      unfold Piece.encode at hbytes
      simp only [hnode] at hbytes ⊢
      rw [← hlength]
      exact hcut p List.mem_cons_self i hnode offset bytes hbytes hfirst
    | _ =>
      simp only [Piece.length, hnode]
      exact .nil offset

end Stream

/-- A layout is written in as many bytes as its code is long. -/
theorem Layout.length_of_encode {l : Layout} {code : Bytes} (h : l.encode = .ok code)
    (consistent : l.Consistent) (fits : l.EntriesFit) : code.length = l.codeLength := by
  obtain ⟨chunks, hchunks, h⟩ := bind_eq_ok.1 h
  cases h
  rw [consistent.placed_eq] at hchunks
  rw [consistent.codeLength_eq, ← length_encodeFrom hchunks fits, Nat.zero_add]

/-- The switches of a layout have fewer entries than there are bytes. -/
theorem Layout.entriesFit_of_encode {l : Layout} {code : Bytes} (h : l.encode = .ok code)
    (consistent : l.Consistent) (few : code.length < 0x100000000) : l.EntriesFit := by
  intro p hp i hnode
  obtain ⟨chunks, hchunks, h⟩ := bind_eq_ok.1 h
  cases h
  rw [consistent.placed_eq, mapM_eq_ok] at hchunks
  have hplaced : p ∈ (placedFrom 0 l.pieces).map Prod.fst := by rwa [map_fst_placedFrom]
  obtain ⟨⟨q, offset⟩, ha, hq⟩ := List.mem_map.1 hplaced
  obtain rfl : q = p := hq
  obtain ⟨bytes, hmem, hbytes⟩ := exists_left_of_forall₂ hchunks.flip ha
  simp only [Piece.encode, hnode] at hbytes
  have hle := entries_le_of_encode hbytes
  have hsub := (List.sublist_flatten_of_mem hmem).length_le
  exact Nat.lt_of_le_of_lt (hle.trans hsub) few

/-- The bytes of a layout are cut into its instructions, when the bytes of each of them are. -/
theorem Layout.cutBy_stream {P : Nat → Nat → Insn → Prop} {l : Layout} {code : Bytes}
    (h : l.encode = .ok code) (consistent : l.Consistent) (fits : l.EntriesFit)
    (hcut : ∀ p ∈ l.pieces, ∀ i, p.node = .insn i → ∀ offset bytes,
      i.encode offset p.operand p.wide l.offsetOf = .ok bytes →
        BytesAt code.toArray offset bytes → CutBy P offset ([offset, offset + 3].zip
          ((i.mapLabels fun l' => ⟨l.offsetOf l'⟩).readBack p.wide ⟨offset + bytes.length⟩))
          (offset + bytes.length)) : CutBy P 0 l.stream l.codeLength := by
  obtain ⟨chunks, hchunks, h⟩ := bind_eq_ok.1 h
  cases h
  rw [consistent.placed_eq] at hchunks
  have hat : BytesAt chunks.flatten.toArray 0 chunks.flatten := by
    simpa using bytesAt_of_append [] chunks.flatten []
  rw [Layout.stream, consistent.placed_eq, consistent.codeLength_eq]
  exact cutBy_placedFrom hchunks fits hat hcut

/-- **The bytes of a layout are cut into its instructions.** -/
theorem Layout.cut_stream {l : Layout} {pool : ConstantPool} {code : Bytes} (h : l.encode = .ok code)
    (consistent : l.Consistent) (fits : l.EntriesFit) (small : l.codeLength ≤ maxCodeLength)
    (readable : ∀ p ∈ l.pieces, p.ReadableIn pool) :
    Cut code.toArray pool 0 l.stream l.codeLength := by
  refine l.cutBy_stream h consistent fits fun p hp i hi offset bytes hbytes hat => ?_
  obtain ⟨form, hoperand⟩ := readable p hp i hi
  refine cut_encode hbytes hat form hoperand
    (fun label => (consistent.offsetOf_le label).trans small) ?_
  rw [List.size_toArray, l.length_of_encode h consistent fits]
  exact small

/-! ## 3. Positions and offsets -/

theorem length_of_marker {p : Piece} {offset : Nat} (h : p.node.isMarker = true) :
    p.length offset = 0 := by
  unfold Piece.length
  cases hnode : p.node with
  | insn i =>
    rw [hnode] at h
    cases h
  | _ => rfl

/-- Markers take no room. -/
theorem endFrom_of_markers {offset : Nat} {pieces : List Piece}
    (h : ∀ p ∈ pieces, p.node.isMarker = true) : endFrom offset pieces = offset := by
  induction pieces with
  | nil => rfl
  | cons p rest ih =>
    rw [endFrom, length_of_marker (h p List.mem_cons_self), Nat.add_zero]
    exact ih fun q hq => h q (List.mem_cons_of_mem _ hq)

theorem start_mem_readBackAt (target : Label → Nat) {p : Piece} (offset : Nat)
    (h : p.node.isMarker = false) :
    offset ∈ (readBackAt target (p, offset)).map Prod.fst := by
  unfold readBackAt
  cases hnode : p.node with
  | insn i =>
    simp only
    have hlength := length_readBack (i.mapLabels fun l => ⟨target l⟩) p.wide
      ⟨offset + p.length offset⟩
    cases hback : (i.mapLabels fun l => ⟨target l⟩).readBack p.wide
        ⟨offset + p.length offset⟩ with
    | nil =>
      rw [hback] at hlength
      simp at hlength
    | cons r rest => exact List.mem_cons_self
  | _ =>
    rw [hnode] at h
    cases h

/-- Before an instruction, one starts at the offset. -/
theorem start_mem_placedFrom (target : Label → Nat) {offset : Nat} {pieces : List Piece}
    (h : ∃ p ∈ pieces, p.node.isMarker = false) :
    offset ∈ ((placedFrom offset pieces).flatMap (readBackAt target)).map Prod.fst := by
  induction pieces with
  | nil =>
    obtain ⟨p, hp, -⟩ := h
    cases hp
  | cons q rest ih =>
    rw [placedFrom, List.flatMap_cons, List.map_append, List.mem_append]
    cases hq : q.node.isMarker with
    | false => exact .inl (start_mem_readBackAt target offset hq)
    | true =>
      rw [length_of_marker hq, Nat.add_zero]
      obtain ⟨p, hp, hnode⟩ := h
      refine .inr (ih ⟨p, ?_, hnode⟩)
      rcases List.mem_cons.1 hp with rfl | hp
      · rw [hq] at hnode
        cases hnode
      · exact hp

/-- The instructions of a layout that start at an offset. -/
def Layout.starts (l : Layout) : List Nat :=
  l.stream.map Prod.fst

namespace Layout.Consistent

variable {l : Layout}

/-- **Where an instruction follows a position**, one starts at its offset. -/
theorem start_of_position (h : l.Consistent) {k : Nat}
    (hinsn : ∃ p ∈ l.pieces.drop k, p.node.isMarker = false) :
    endFrom 0 (l.pieces.take k) ∈ l.starts := by
  have hplaced := placedFrom_append 0 (l.pieces.take k) (l.pieces.drop k)
  rw [List.take_append_drop] at hplaced
  rw [Layout.starts, Layout.stream, h.placed_eq, hplaced, List.flatMap_append, List.map_append]
  exact List.mem_append_right _ (start_mem_placedFrom l.offsetOf hinsn)

/-- Where none follows, the offset is the end. -/
theorem end_of_position (h : l.Consistent) {k : Nat}
    (hmarkers : ∀ p ∈ l.pieces.drop k, p.node.isMarker = true) :
    endFrom 0 (l.pieces.take k) = l.codeLength := by
  have hend := endFrom_append 0 (l.pieces.take k) (l.pieces.drop k)
  rw [List.take_append_drop, endFrom_of_markers hmarkers] at hend
  rw [h.codeLength_eq, hend]

/-- A place for an instruction, or the end. -/
theorem place_of_position (h : l.Consistent) (k : Nat) :
    endFrom 0 (l.pieces.take k) ∈ l.starts ∨ endFrom 0 (l.pieces.take k) = l.codeLength := by
  by_cases hinsn : ∃ p ∈ l.pieces.drop k, p.node.isMarker = false
  · exact .inl (h.start_of_position hinsn)
  · refine .inr (h.end_of_position fun p hp => ?_)
    cases hp' : p.node.isMarker with
    | true => rfl
    | false => exact absurd ⟨p, hp, hp'⟩ hinsn

/-- Every label is at a place for an instruction or at the end. -/
theorem place_of_label (h : l.Consistent) {label : Label} {k : Nat}
    (hk : l.positions[label]? = some k) (hle : k ≤ l.pieces.length) :
    l.offsetOf label ∈ l.starts ∨ l.offsetOf label = l.codeLength := by
  rw [h.offsetOf_eq hk hle]
  exact h.place_of_position k

end Layout.Consistent

/-! ## 4. Targets -/

/-- Whether an element is a condition written as its opposite around a wide `goto`. -/
def Piece.IsWideCondition (p : Piece) : Prop :=
  ∃ op label opposite, p.node = .insn (.jump op label) ∧ p.wide = true ∧
    oppositeCondition op = .ok opposite

/-- Whether no instruction follows a wide condition, around which the opposite condition jumps. -/
def Layout.EndsInWideCondition (l : Layout) : Prop :=
  ∃ before p after, l.pieces = before ++ p :: after ∧ p.IsWideCondition ∧
    ∀ q ∈ after, q.node.isMarker = true

theorem mem_targets_readBack {i r : Insn} {wide : Bool} {after t : Label}
    (hr : r ∈ i.readBack wide after) (ht : t ∈ r.targets) :
    t ∈ i.targets ∨ t = after ∧ wide = true ∧
      ∃ op label opposite, i = .jump op label ∧ oppositeCondition op = .ok opposite := by
  cases i with
  | jump op label =>
    simp only [Insn.readBack] at hr
    split at hr
    · rename_i opposite hopposite
      split at hr
      · rename_i hwide
        rcases List.mem_cons.1 hr with rfl | hr
        · exact .inr ⟨List.mem_singleton.1 ht, hwide, op, label, opposite, rfl, hopposite⟩
        · rw [List.mem_singleton.1 hr] at ht
          exact .inl ht
      · rw [List.mem_singleton.1 hr] at ht
        exact .inl ht
    · rw [List.mem_singleton.1 hr] at ht
      exact .inl ht
  | lookupSwitch default pairs =>
    rw [Insn.readBack, List.mem_singleton] at hr
    rw [hr] at ht
    left
    simp only [Insn.targets, List.mem_cons, List.mem_map, sortedPairs, List.mem_mergeSort] at ht ⊢
    exact ht
  | _ =>
    rw [List.mem_singleton.1 hr] at ht
    exact .inl ht

theorem mem_placedFrom {offset : Nat} {pieces : List Piece} {a : Piece × Nat} :
    a ∈ placedFrom offset pieces ↔
      ∃ before after, pieces = before ++ a.1 :: after ∧ a.2 = endFrom offset before := by
  induction pieces generalizing offset with
  | nil =>
    constructor
    · intro h
      cases h
    · rintro ⟨before, after, h, -⟩
      cases before <;> cases h
  | cons q rest ih =>
    rw [placedFrom, List.mem_cons, ih]
    constructor
    · rintro (rfl | ⟨before, after, rfl, h⟩)
      · exact ⟨[], rest, rfl, rfl⟩
      · exact ⟨q :: before, after, rfl, h⟩
    · rintro ⟨_ | ⟨q', before⟩, after, hpieces, h⟩
      · cases hpieces
        exact .inl (Prod.ext rfl h)
      · cases hpieces
        exact .inr ⟨before, after, rfl, h⟩

theorem jump_of_mapLabels {f : Label → Label} {i : Insn} {op : UInt8} {l : Label}
    (h : i.mapLabels f = .jump op l) : ∃ l', i = .jump op l' := by
  cases i with
  | jump op' l' =>
    cases h
    exact ⟨l', rfl⟩
  | _ => cases h

namespace Layout.Consistent

variable {l : Layout}

/-- What the instructions of a layout jump to: the places of labels, and the ends of wide
    conditions. -/
theorem targets_of_stream (h : l.Consistent) {n : Nat} (hn : n ∈ targetOffsets l.stream) :
    (∃ p ∈ l.pieces, ∃ i, p.node = .insn i ∧ ∃ label ∈ i.targets, n = l.offsetOf label) ∨
      ∃ before p after, l.pieces = before ++ p :: after ∧ p.IsWideCondition ∧
        n = endFrom 0 (before ++ [p]) := by
  obtain ⟨e, he, hn⟩ := List.mem_flatMap.1 hn
  obtain ⟨t, ht, rfl⟩ := List.mem_map.1 hn
  obtain ⟨⟨p, offset⟩, ha, he⟩ := List.mem_flatMap.1 he
  rw [h.placed_eq] at ha
  obtain ⟨before, after, hpieces, hoffset⟩ := mem_placedFrom.1 ha
  simp only at hpieces hoffset
  have hr := List.mem_map_of_mem (f := Prod.snd) he
  rw [map_snd_readBackAt] at hr
  cases hnode : p.node with
  | insn i =>
    simp only [hnode] at hr
    rcases mem_targets_readBack hr ht with ht | ⟨rfl, hwide, op, label, opposite, hi, hopposite⟩
    · rw [Insn.targets_mapLabels] at ht
      obtain ⟨label, hlabel, rfl⟩ := List.mem_map.1 ht
      exact .inl ⟨p, by simp [hpieces], i, hnode, label, hlabel, rfl⟩
    · obtain ⟨label', rfl⟩ := jump_of_mapLabels hi
      refine .inr ⟨before, p, after, hpieces, ⟨op, label', opposite, hnode, hwide, hopposite⟩, ?_⟩
      rw [endFrom_append, ← hoffset]
      rfl
  | _ =>
    simp only [hnode] at hr
    cases hr

/-- **Every jump leads to an instruction**, when the labels do and the last instruction is no wide
    condition. -/
theorem targets_mem_starts (h : l.Consistent)
    (land : ∀ p ∈ l.pieces, ∀ i, p.node = .insn i → ∀ label ∈ i.targets,
      l.offsetOf label ∈ l.starts)
    (hend : ¬ l.EndsInWideCondition) : ∀ n ∈ targetOffsets l.stream, n ∈ l.starts := by
  intro n hn
  rcases h.targets_of_stream hn with ⟨p, hp, i, hi, label, hlabel, rfl⟩ |
    ⟨before, p, after, hpieces, hwide, rfl⟩
  · exact land p hp i hi label hlabel
  · have hsplit : l.pieces = (before ++ [p]) ++ after := by rw [hpieces, List.append_assoc]; rfl
    have htake : l.pieces.take (before ++ [p]).length = before ++ [p] := by
      rw [hsplit, List.take_left]
    have hdrop : l.pieces.drop (before ++ [p]).length = after := by
      rw [hsplit, List.drop_left]
    rw [← htake]
    refine h.start_of_position ?_
    rw [hdrop]
    by_contra hnone
    refine hend ⟨before, p, after, hpieces, hwide, fun q hq => ?_⟩
    cases hq' : q.node.isMarker with
    | true => rfl
    | false => exact absurd ⟨q, hq, hq'⟩ hnone

/-- The opposite of a wide condition at the end jumps to the end. -/
theorem codeLength_mem_targets (h : l.Consistent) (hend : l.EndsInWideCondition) :
    l.codeLength ∈ targetOffsets l.stream := by
  obtain ⟨before, p, after, hpieces, ⟨op, label, opposite, hnode, hwide, hopposite⟩, hafter⟩ := hend
  have hlast : endFrom 0 before + p.length (endFrom 0 before) = l.codeLength := by
    rw [h.codeLength_eq, hpieces, endFrom_append, endFrom, endFrom_of_markers hafter]
  have hmem : (p, endFrom 0 before) ∈ placedFrom 0 l.pieces :=
    mem_placedFrom.2 ⟨before, after, hpieces, rfl⟩
  refine List.mem_flatMap.2 ⟨(endFrom 0 before, .jump opposite ⟨l.codeLength⟩), ?_,
    List.mem_singleton.2 rfl⟩
  rw [Layout.stream, h.placed_eq]
  refine List.mem_flatMap.2 ⟨_, hmem, ?_⟩
  unfold readBackAt
  simp only [hnode, hwide, Insn.mapLabels]
  rw [readBack_wide hopposite, hlast]
  exact List.mem_cons_self

end Layout.Consistent

/-- **The bytes of an element** are at its offset. -/
theorem Layout.bytesAt_of_placed {l : Layout} {code : Bytes} (h : l.encode = .ok code)
    (consistent : l.Consistent) (fits : l.EntriesFit) {a : Piece × Nat} (ha : a ∈ l.placed) :
    ∃ bytes, Piece.encode l.offsetOf a = .ok bytes ∧ BytesAt code.toArray a.2 bytes := by
  obtain ⟨p, offset⟩ := a
  obtain ⟨chunks, hchunks, h⟩ := bind_eq_ok.1 h
  cases h
  rw [consistent.placed_eq] at ha hchunks
  obtain ⟨before, after, hpieces, rfl⟩ := mem_placedFrom.1 ha
  rw [hpieces, placedFrom_append, mapM_eq_ok] at hchunks
  obtain ⟨first, bytes, rest, rfl, hfirst, hbytes, -⟩ := forall₂_split hchunks
  refine ⟨bytes, hbytes, ?_⟩
  have hlength := length_encodeFrom (mapM_eq_ok.2 hfirst) fun q hq =>
    fits q (hpieces ▸ List.mem_append_left _ hq)
  rw [Nat.zero_add] at hlength
  rw [List.flatten_append, List.flatten_cons, ← List.append_assoc, ← hlength]
  exact bytesAt_of_append first.flatten bytes rest.flatten

theorem jumpsBelow_iff {stop : Nat} {s : List (Nat × Insn)} :
    JumpsBelow stop s ↔ ∀ n ∈ targetOffsets s, n < stop := by
  constructor
  · intro h n hn
    obtain ⟨e, he, hn⟩ := List.mem_flatMap.1 hn
    obtain ⟨t, ht, rfl⟩ := List.mem_map.1 hn
    exact h e he t ht
  · exact fun h e he t ht => h _ (List.mem_flatMap.2 ⟨e, he, List.mem_map_of_mem ht⟩)

end Rewire
