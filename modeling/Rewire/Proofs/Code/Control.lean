import Mathlib
import Rewire.Code.Control
import Rewire.Proofs.Code.LabelFaults
import Rewire.Proofs.Code.RoundTrip
import Rewire.Proofs.Code.Widening

/-!
# Where control goes in assembled code

Executing the bytes of a jump or switch does what the instruction says. This file shows

* of a condition and its opposite exactly one holds (`takes_opposite`), so a jump leads to its
  label however wide it is written (`controlLeaving_jump`);
* a switch finds the displacement of its case in its table (`controlAfter_tableSwitch`,
  `controlAfter_lookupSwitch`);
* so control leaves the room of every jump and switch to where the instruction leads
  (`controlLeaving_encode`);
* widening ends, and every instruction of the assembled code stands where the layout puts it and
  leads where its labels are (`isLaidOutWell_of_labels`), but for jumps with other opcodes than the
  short ones and for switches with 2^32 entries (`not_isLaidOutWell_wideGoto`).
-/

namespace Rewire

/-! ## 1. Conditions -/

/-- The conditions, each with its opposite. -/
def oppositePairs : List (UInt8 × UInt8) :=
  [(0x99, 0x9a), (0x9a, 0x99), (0x9b, 0x9c), (0x9c, 0x9b), (0x9d, 0x9e), (0x9e, 0x9d),
    (0x9f, 0xa0), (0xa0, 0x9f), (0xa1, 0xa2), (0xa2, 0xa1), (0xa3, 0xa4), (0xa4, 0xa3),
    (0xa5, 0xa6), (0xa6, 0xa5), (0xc6, 0xc7), (0xc7, 0xc6)]

theorem mem_oppositePairs {op opposite : UInt8} (h : oppositeCondition op = .ok opposite) :
    (op, opposite) ∈ oppositePairs := by
  have hall : ∀ n : Fin 256, (oppositeCondition (UInt8.ofNat n)).toOption.all fun opposite =>
      (UInt8.ofNat n, opposite) ∈ oppositePairs := by
    decide +kernel
  have := hall ⟨op.toNat, op.toNat_lt⟩
  rw [UInt8.ofNat_toNat, h] at this
  exact of_decide_eq_true this

/-- **Of a condition and its opposite exactly one holds.** -/
theorem takes_opposite (x : Operands) {op opposite : UInt8}
    (h : oppositeCondition op = .ok opposite) : x.takes opposite = !x.takes op := by
  have hlt : ∀ a b : Int32, decide (a ≤ b) = !decide (b < a) := fun a b => by
    rw [← decide_not]
    exact decide_eq_decide.2 Int32.not_lt.symm
  have hmem := mem_oppositePairs h
  simp only [oppositePairs, List.mem_cons, Prod.mk.injEq, List.not_mem_nil, or_false] at hmem
  rcases hmem with h | h | h | h | h | h | h | h | h | h | h | h | h | h | h | h <;>
    obtain ⟨rfl, rfl⟩ := h <;>
    simp [Operands.takes, Operands.holds, Opcode.goto, Opcode.jsr, Opcode.IsWideJump, Opcode.gotoWide,
      Opcode.jsrWide, hlt]

variable {code : Array UInt8} {x : Operands} {offset stop n : Nat} {op : UInt8} {bytes : Bytes}

/-! ## 2. Steps of control -/

theorem controlAfter_jump {delta : Int16} (hat : BytesAt code offset (op :: bytes16 delta))
    (form : Opcode.IsShortJump op) : controlAfter code x offset =
      .ok (if x.takes op then offset + delta.toInt else (offset + 3 : Nat)) := by
  have hread := i16At_of_bytesAt (bytesAt_cons.1 hat).2
  have hformat := formatAt_eq hat ((Format.goesWith op).jump form)
  refine bind_eq_ok.2 ⟨_, u8At_eq hat, bind_eq_ok.2 ⟨_, hformat, ?_⟩⟩
  simp only [hread]
  split <;> rfl

/-- Where control goes through a displacement of four bytes. -/
theorem follow_eq {position : Nat} {delta : Int32} (hat : BytesAt code position (bytes32 delta)) :
    controlAfter.follow code offset position = .ok (offset + delta.toInt) :=
  bind_eq_ok.2 ⟨_, i32At_of_bytesAt hat, rfl⟩

theorem controlAfter_wideJump {wideOp : UInt8} {delta : Int32}
    (hat : BytesAt code offset (wideOp :: bytes32 delta))
    (hf : Format.of? wideOp = some (.wideJump op)) :
    controlAfter code x offset = .ok (offset + delta.toInt) :=
  bind_eq_ok.2 ⟨_, u8At_eq hat, bind_eq_ok.2 ⟨_, formatAt_eq hat hf,
    follow_eq (bytesAt_cons.1 hat).2⟩⟩

/-- Control leaves the room where it does not move forward inside. -/
theorem controlLeaving_eq {next : Int} (h : controlAfter code x offset = .ok next)
    (houtside : next ≤ offset ∨ stop ≤ next) : controlLeaving code x stop offset = .ok next := by
  rw [controlLeaving]
  refine bind_eq_ok.2 ⟨_, h, ?_⟩
  rw [if_neg (by omega)]
  rfl

/-- Where it does, it leaves from where it moved. -/
theorem controlLeaving_forward (h : controlAfter code x offset = .ok (n : Int))
    (hforward : offset < n) (hinside : n < stop) :
    controlLeaving code x stop offset = controlLeaving code x stop n := by
  rw [controlLeaving, h]
  show (if (offset : Int) < n ∧ (n : Int) < stop then _ else _) = _
  rw [if_pos ⟨Int.ofNat_lt.2 hforward, Int.ofNat_lt.2 hinside⟩]
  rfl

/-! ## 3. Jumps -/

/-- **A jump in bytes leads where the jump leads**, however wide it is. -/
theorem controlLeaving_jump {wide : Bool} (h : encodeJump op wide ((n : Int) - offset) = .ok bytes)
    (hat : BytesAt code offset bytes) (form : Opcode.IsShortJump op)
    (houtside : n ≤ offset ∨ offset + bytes.length ≤ n) :
    controlLeaving code x (offset + bytes.length) offset =
      .ok (if x.takes op then (n : Int) else (offset + bytes.length : Nat)) := by
  unfold encodeJump at h
  cases wide with
  | false =>
    obtain ⟨delta, hdelta, hbytes⟩ := bind_eq_ok.1 h
    cases hbytes
    have hafter := controlAfter_jump (x := x) hat form
    rw [fitSigned16_eq_ok hdelta, show (offset : Int) + (n - offset) = n by omega] at hafter
    refine controlLeaving_eq hafter ?_
    simp only [List.length_cons, length_bytes16] at houtside ⊢
    split <;> omega
  | true =>
    simp only [Bool.not_true, Bool.false_eq_true, if_false] at h
    split at h
    · rename_i hgoto
      obtain ⟨delta, hdelta, hbytes⟩ := bind_eq_ok.1 h
      cases hbytes
      have hf : Format.of? (if op = Opcode.goto then Opcode.gotoWide else Opcode.jsrWide) =
          some (.wideJump op) := by
        rcases hgoto with rfl | rfl <;> rfl
      have htakes : x.takes op = true := by
        rcases hgoto with rfl | rfl <;> rfl
      have hafter := controlAfter_wideJump (x := x) hat hf
      rw [fitSigned32_eq_ok hdelta, show (offset : Int) + (n - offset) = n by omega] at hafter
      rw [htakes, if_pos rfl]
      exact controlLeaving_eq hafter (by omega)
    · obtain ⟨opposite, hopposite, h⟩ := bind_eq_ok.1 h
      obtain ⟨delta, hdelta, hbytes⟩ := bind_eq_ok.1 h
      cases hbytes
      obtain ⟨hfirst, hsecond⟩ := bytesAt_append.1 hat
      replace hsecond : BytesAt code (offset + 3) (Opcode.gotoWide :: bytes32 delta) := hsecond
      have hskip := controlAfter_jump (x := x) hfirst (oppositeCondition_isShortJump hopposite)
      have hover := controlAfter_wideJump (x := x) hsecond rfl
      rw [fitSigned32_eq_ok hdelta,
        show ((offset + 3 : Nat) : Int) + (n - offset - 3) = n by omega] at hover
      rw [takes_opposite x hopposite] at hskip
      show controlLeaving code x (offset + 8) offset = .ok (if _ then _ else ((offset + 8 : Nat) : Int))
      replace houtside : n ≤ offset ∨ offset + 8 ≤ n := houtside
      cases htakes : x.takes op with
      | false =>
        rw [htakes] at hskip
        exact controlLeaving_eq hskip (.inr (Int.le_refl _))
      | true =>
        rw [htakes] at hskip
        rw [controlLeaving_forward hskip (by omega) (by omega), if_pos rfl]
        exact controlLeaving_eq hover (by omega)

/-! ## 4. Switches -/

/-- In a table of entries of one width, each stands at its place. -/
theorem bytesAt_entry {γ : Type} {enc : γ → Bytes} {width : Nat}
    (hwidth : ∀ e, (enc e).length = width) {entries : List γ} {base k : Nat} {e : γ}
    (hat : BytesAt code base (entries.flatMap enc)) (he : entries[k]? = some e) :
    BytesAt code (base + width * k) (enc e) := by
  induction entries generalizing base k with
  | nil => cases he
  | cons e' rest ih =>
    rw [List.flatMap_cons, bytesAt_append, hwidth] at hat
    cases k with
    | zero =>
      cases he
      exact hat.1
    | succ k =>
      have hrest := ih hat.2 he
      rwa [show base + width + width * k = base + width * (k + 1) by rw [Nat.mul_succ]; omega]
        at hrest

/-- A search in the table finds the place of the entry that a search in the entries finds. -/
theorem find?_entries {γ : Type} {enc : γ → Bytes} {width : Nat} {P : Nat → Bool} {Q : γ → Bool}
    (hwidth : ∀ e, (enc e).length = width)
    (hPQ : ∀ position e, BytesAt code position (enc e) → P position = Q e) {entries : List γ}
    {base : Nat} (hat : BytesAt code base (entries.flatMap enc)) :
    Option.Rel (fun position e => BytesAt code position (enc e))
      (((List.range entries.length).map fun i => base + width * i).find? P) (entries.find? Q) := by
  induction entries generalizing base with
  | nil => exact .none
  | cons e rest ih =>
    rw [List.flatMap_cons, bytesAt_append, hwidth] at hat
    have hrest := ih hat.2
    have hshift : ((fun i => base + width * i) ∘ Nat.succ) = fun i => base + width + width * i := by
      funext i
      rw [Function.comp_apply, Nat.mul_succ]
      omega
    rw [List.length_cons, List.range_succ_eq_map, List.map_cons, List.map_map, hshift,
      Nat.mul_zero, Nat.add_zero]
    have hfirst := hPQ base e hat.1
    cases hQ : Q e with
    | true =>
      rw [List.find?_cons_of_pos (hfirst.trans hQ), List.find?_cons_of_pos hQ]
      exact .some hat.1
    | false =>
      rw [List.find?_cons_of_neg (by rw [hfirst, hQ]; exact Bool.false_ne_true),
        List.find?_cons_of_neg (by rw [hQ]; exact Bool.false_ne_true)]
      exact hrest

/-- Sorting the pairs of a switch by their keys keeps the pairs of one key in order. -/
theorem filter_sortedPairs (pairs : List (Int32 × Label)) (key : Int32) :
    (sortedPairs pairs).filter (fun pair => pair.1 = key) =
      pairs.filter fun pair => pair.1 = key := by
  have hsame : (pairs.filter fun pair => pair.1 = key).Pairwise fun a b =>
      decide (a.1.toInt ≤ b.1.toInt) = true := by
    refine List.pairwise_of_forall_mem_list fun a ha b hb => ?_
    have ha := of_decide_eq_true (List.mem_filter.1 ha).2
    have hb := of_decide_eq_true (List.mem_filter.1 hb).2
    rw [ha, hb]
    exact decide_eq_true (Int.le_refl _)
  have hsub : (pairs.filter fun pair => pair.1 = key).Sublist (sortedPairs pairs) :=
    List.sublist_mergeSort (fun a b c hab hbc => by simp only [decide_eq_true_eq] at hab hbc ⊢; omega)
      (fun a b => by simp only [Bool.or_eq_true, decide_eq_true_eq]; omega) hsame List.filter_sublist
  have hsub' := hsub.filter fun pair => pair.1 = key
  rw [List.filter_filter] at hsub'
  simp only [Bool.and_self] at hsub'
  exact (hsub'.eq_of_length ((List.mergeSort_perm pairs _).filter _).length_eq.symm).symm

theorem find?_sortedPairs (pairs : List (Int32 × Label)) (key : Int32) :
    (sortedPairs pairs).find? (fun pair => pair.1 = key) =
      pairs.find? fun pair => pair.1 = key := by
  rw [← List.head?_filter, ← List.head?_filter, filter_sortedPairs]

section Switches

variable {target : Label → Nat} {default : Label}

/-- Where the distance to a label stands, control goes to the label. -/
theorem follow_displacement {position : Nat} {l : Label} (htarget : target l ≤ maxCodeLength)
    (hoffset : offset ≤ maxCodeLength)
    (hat : BytesAt code position (Insn.encode.displacement offset target l)) :
    controlAfter.follow code offset position = .ok (target l : Int) := by
  rw [follow_eq hat]
  show Except.ok ((offset : Int) + (Int32.ofInt ((target l : Int) - offset)).toInt) = _
  rw [toInt_distance htarget hoffset, show (offset : Int) + (target l - offset) = target l by omega]

theorem controlAfter_tableSwitch {low high : Int32} {targets : List Label}
    (harity : high.toInt - low.toInt + 1 = targets.length)
    (htarget : ∀ l, target l ≤ maxCodeLength) (hoffset : offset ≤ maxCodeLength)
    (hat : BytesAt code offset (Opcode.tableSwitch :: switchPadding offset ++
      (Insn.encode.displacement offset target default ++ (bytes32 low ++ (bytes32 high ++
        targets.flatMap (Insn.encode.displacement offset target)))))) :
    controlAfter code x offset = .ok
      (target (((x.entry? low high).bind fun n => targets[n]?).getD default) : Int) := by
  obtain ⟨hdefault, hbase⟩ := bytesAt_append.1 (bytesAt_switch hat)
  obtain ⟨hlow, hbase⟩ := bytesAt_append.1 hbase
  obtain ⟨hhigh, htable⟩ := bytesAt_append.1 hbase
  have hwidth : ∀ l, (Insn.encode.displacement offset target l).length = 4 := fun _ => rfl
  rw [hwidth] at hlow hhigh htable
  rw [length_bytes32] at hhigh htable
  rw [length_bytes32] at htable
  have hentry : ∃ position, tableEntryAt code x offset = .ok position ∧
      BytesAt code position (Insn.encode.displacement offset target
        (((x.entry? low high).bind fun n => targets[n]?).getD default)) := by
    have hposition : tableEntryAt code x offset =
        .ok (((x.entry? low high).map (switchBase offset + 12 + 4 * ·)).getD (switchBase offset)) := by
      refine bind_eq_ok.2 ⟨_, i32At_of_bytesAt hlow, bind_eq_ok.2 ⟨_, i32At_of_bytesAt hhigh, ?_⟩⟩
      cases x.entry? low high <;> rfl
    cases hentry : x.entry? low high with
    | none =>
      rw [hentry] at hposition
      exact ⟨_, hposition, hdefault⟩
    | some n =>
      rw [hentry] at hposition
      unfold Operands.entry? at hentry
      split at hentry
      · rename_i hrange
        cases hentry
        have hle := Int32.le_iff_toInt_le.1 hrange.1
        have hle' := Int32.le_iff_toInt_le.1 hrange.2
        have hlt : (x.top.toInt - low.toInt).toNat < targets.length := by omega
        refine ⟨_, hposition, ?_⟩
        rw [Option.bind_some, List.getElem?_eq_getElem hlt, Option.getD_some]
        exact bytesAt_entry hwidth htable (List.getElem?_eq_getElem hlt)
      · cases hentry
  obtain ⟨position, hposition, hentry⟩ := hentry
  exact bind_eq_ok.2 ⟨_, u8At_eq hat, bind_eq_ok.2 ⟨_, formatAt_eq hat rfl,
    bind_eq_ok.2 ⟨_, hposition, follow_displacement (htarget _) hoffset hentry⟩⟩⟩

theorem controlAfter_lookupSwitch {pairs : List (Int32 × Label)} (few : pairs.length < 0x80000000)
    (htarget : ∀ l, target l ≤ maxCodeLength) (hoffset : offset ≤ maxCodeLength)
    (hat : BytesAt code offset (Opcode.lookupSwitch :: switchPadding offset ++
      (Insn.encode.displacement offset target default ++ (bytes32 (Int32.ofNat pairs.length) ++
        (sortedPairs pairs).flatMap fun pair =>
          bytes32 pair.1 ++ Insn.encode.displacement offset target pair.2)))) :
    controlAfter code x offset = .ok
      (target (((pairs.find? fun pair => pair.1 = x.top).map Prod.snd).getD default) : Int) := by
  obtain ⟨hdefault, hbase⟩ := bytesAt_append.1 (bytesAt_switch hat)
  obtain ⟨hcount, htable⟩ := bytesAt_append.1 hbase
  have hwidth : ∀ pair : Int32 × Label,
      (bytes32 pair.1 ++ Insn.encode.displacement offset target pair.2).length = 8 := fun _ => rfl
  rw [show (Insn.encode.displacement offset target default).length = 4 from rfl] at hcount htable
  rw [length_bytes32] at htable
  have hkey : ∀ position (pair : Int32 × Label),
      BytesAt code position (bytes32 pair.1 ++ Insn.encode.displacement offset target pair.2) →
        ((fun p => decide ((i32At code (p - 4)).toOption = some x.top)) ∘ (· + 4)) position =
          decide (pair.1 = x.top) := by
    intro position pair h
    rw [Function.comp_apply, Nat.add_sub_cancel, i32At_of_bytesAt (bytesAt_append.1 h).1]
    exact decide_eq_decide.2 Option.some_inj
  have hfound := find?_entries hwidth hkey htable
  rw [find?_sortedPairs, show (sortedPairs pairs).length = pairs.length from
    List.length_mergeSort pairs] at hfound
  have hentry : ∃ position, pairEntryAt code x offset = .ok position ∧
      BytesAt code position (Insn.encode.displacement offset target
        (((pairs.find? fun pair => pair.1 = x.top).map Prod.snd).getD default)) := by
    refine ⟨_, bind_eq_ok.2 ⟨_, pairCountAt_eq few (i32At_of_bytesAt hcount), rfl⟩, ?_⟩
    rw [pairPositions_eq, List.find?_map]
    revert hfound
    generalize pairs.find? _ = found
    generalize List.find? _ _ = position
    intro hfound
    cases hfound with
    | none => exact hdefault
    | some h => exact (bytesAt_append.1 h).2
  obtain ⟨position, hposition, hentry⟩ := hentry
  exact bind_eq_ok.2 ⟨_, u8At_eq hat, bind_eq_ok.2 ⟨_, formatAt_eq hat rfl,
    bind_eq_ok.2 ⟨_, hposition, follow_displacement (htarget _) hoffset hentry⟩⟩⟩

end Switches

/-! ## 5. Every jump and switch -/

/-- **The bytes of a jump or switch lead where the instruction leads**, when none of its targets is
    inside the room that the bytes take. -/
theorem controlLeaving_encode {i : Insn} {operand : UInt16} {wide : Bool} {target : Label → Nat}
    (h : i.encode offset operand wide target = .ok bytes) (hat : BytesAt code offset bytes)
    (transfers : i.targets ≠ []) (form : ∀ op l, i = .jump op l → Opcode.IsShortJump op)
    (htarget : ∀ l, target l ≤ maxCodeLength) (small : code.size ≤ maxCodeLength)
    (houtside : ∀ l, target l ≤ offset ∨ offset + bytes.length ≤ target l) :
    controlLeaving code x (offset + bytes.length) offset =
      .ok ((((i.select? x).map target).getD (offset + bytes.length) : Nat) : Int) := by
  cases i with
  | jump op l =>
    rw [controlLeaving_jump h hat (form op l rfl) (houtside l), Insn.select?]
    split <;> rfl
  | tableSwitch low high default targets =>
    simp only [Insn.encode] at h
    split at h
    · cases h
    rename_i harity
    cases h
    simp only [List.append_assoc] at hat houtside ⊢
    have hoffset : offset ≤ maxCodeLength := by
      have hinside := hat.inside (Nat.succ_pos _)
      omega
    refine controlLeaving_eq (controlAfter_tableSwitch (not_not.1 harity) htarget hoffset hat) ?_
    exact (houtside _).imp Int.ofNat_le.2 Int.ofNat_le.2
  | lookupSwitch default pairs =>
    cases h
    simp only [List.append_assoc] at hat houtside ⊢
    have hinside := hat.inside (Nat.succ_pos _)
    have hlength := length_lookupSwitch offset target (Int32.ofNat pairs.length) default
      (sortedPairs pairs)
    have hcount : (sortedPairs pairs).length = pairs.length := List.length_mergeSort pairs
    have hoffset : offset ≤ maxCodeLength := by omega
    have few : pairs.length < 0x80000000 := by
      rw [hcount, lookupSwitchLength] at hlength
      simp only [maxCodeLength] at small
      omega
    refine controlLeaving_eq (controlAfter_lookupSwitch few htarget hoffset hat) ?_
    exact (houtside _).imp Int.ofNat_le.2 Int.ofNat_le.2
  | _ => exact absurd rfl transfers

/-! ## 6. Assembled code -/

/-- Whether code has the instruction at a position of a method where a layout puts it: its bytes
    take the room the layout reserves, the next instruction is behind them, and control leaves this
    room to the label that the instruction selects, or else to the next instruction. -/
def Layout.Performs (l : Layout) (m : Method) (code : Array UInt8) (k : Nat) (i : Insn) : Prop :=
  let offset := offsetAt l.offsets k
  let next := offsetAt l.offsets (skipMarkers m.nodes (k + 1))
  ∃ p bytes, l.pieces[k]? = some p ∧ p.node = .insn i ∧
    i.encode offset p.operand p.wide l.offsetOf = .ok bytes ∧
    bytes.length = i.length offset p.operand p.wide ∧
    BytesAt code offset bytes ∧ next = offset + bytes.length ∧
    (i.targets ≠ [] → ∀ x : Operands, controlLeaving code x next offset =
      .ok (((i.select? x).map l.offsetOf).getD next : Nat))

/-- Whether a method is laid out well. -/
structure Method.IsLaidOutWell (m : Method) : Prop where
  /-- Widening ends after at most as many rounds as there are jumps, with no short jump out of reach
      of its target, unless a size or an offset does not fit 32 bits before. -/
  widening_ends : ∃ positions, distinctPositions m.nodes = .ok positions ∧
    checkReferences m positions = .ok () ∧ ∀ pieces : List Piece,
      pieces.map Piece.node = m.nodes.toList → (∀ p ∈ pieces, p.wide = false) →
        ∃ rounds ≤ m.nodes.toList.countP Node.isJump,
          ShortJumpsReach positions ((widenOnce positions)^[rounds] pieces) ∧
          (∀ l, Layout.settle positions pieces = .ok l →
            l.pieces = (widenOnce positions)^[rounds] pieces ∧ l.positions = positions ∧
              l.Consistent) ∧
          ∀ e, Layout.settle positions pieces = .error e → ∃ verb, e.fault = .overflow verb
  /-- Writing a layout does not fail over the displacement of a jump. -/
  displacements_fit : ∀ p q l, layOut m p = (.ok l, q) → ShortJumpsReach l.positions l.pieces ∧
    ∀ fault, l.encode ≠ .error ⟨[.writingJump], fault⟩
  /-- Assembled code is as long as its instructions together, has each of them where the layout puts
      it, and does what they say. -/
  performed : ∀ p p' log log' a, assemble m p log = ((.ok a, p'), log') →
    a.body.length < 0x100000000 → ∃ l q code,
      layOut m p = (.ok l, q) ∧
      BytesAt a.body.toArray 4 (be32 (UInt32.ofNat l.codeLength) ++ code) ∧
      code.length = l.codeLength ∧ l.codeLength ≤ maxCodeLength ∧
      l.codeLength = (l.placed.map fun a => a.1.length a.2).sum ∧
      (∀ k label, m.nodes[k]? = some (.label label) → l.offsetOf label = offsetAt l.offsets k) ∧
      ∀ k i, m.nodes[k]? = some (.insn i) → l.Performs m code.toArray k i

/-- The instructions of a layout are performed by its bytes. -/
theorem Layout.IsOf.performs {m : Method} {l : Layout} {code : Bytes} (h : l.IsOf m)
    (jumps : ∀ op label, .jump op label ∈ m.insns → Opcode.IsShortJump op) (counted : l.EntriesFit)
    (hcode : l.encode = .ok code) {k : Nat} {i : Insn} (hk : m.nodes[k]? = some (.insn i)) :
    l.Performs m code.toArray k i := by
  have hnode := hk
  rw [← Array.getElem?_toList, ← h.nodes, List.getElem?_map, Option.map_eq_some_iff] at hnode
  obtain ⟨p, hp, hnode⟩ := hnode
  obtain ⟨bytes, hbytes, hat⟩ := Layout.bytesAt_encode hcode h.consistent counted hp
  have fits := counted p (List.mem_of_getElem? hp)
  have hlength := length_pieceEncode hbytes fits
  have hnext : offsetAt l.offsets (skipMarkers m.nodes (k + 1)) =
      offsetAt l.offsets k + bytes.length := by
    rw [h.consistent.offsetAt_skipMarkers h.nodes (Array.getElem?_eq_some_iff.1 hk).1,
      h.consistent.offsetAt_succ hp, hlength]
  unfold Piece.encode at hbytes
  simp only [hnode] at hbytes
  refine ⟨p, bytes, hp, hnode, hbytes, length_encode hbytes (fits i hnode), hat, hnext,
    fun transfers x => ?_⟩
  rw [hnext]
  refine controlLeaving_encode hbytes hat transfers ?_
    (fun label => (h.consistent.offsetOf_le label).trans h.small) ?_ fun label => ?_
  · rintro op label rfl
    exact jumps op label (h.mem_insns (List.mem_of_getElem? hp) hnode)
  · rw [List.size_toArray, l.length_of_encode hcode h.consistent counted]
    exact h.small
  · have houtside := h.consistent.offsetOf_outside (List.getElem?_eq_some_iff.1 hp).1 label
    rwa [h.consistent.offsetAt_succ hp, ← hlength] at houtside

/-- **Widening ends in a layout that is performed.** Of every method whose labels are placed once
    each, whose references are placed and whose jumps have opcodes of jumps, the widening of jumps
    ends, its short jumps reach their targets, and the assembled bytes of every instruction stand
    at its offset and lead where the instruction leads. -/
theorem isLaidOutWell_of_labels {m : Method} (distinct : m.LabelsDistinct)
    (placed : m.LabelsPlaced)
    (jumps : ∀ op label, .jump op label ∈ m.insns → Opcode.IsShortJump op) : m.IsLaidOutWell where
  widening_ends := by
    refine ⟨_, distinctPositions_of_distinct distinct, checkReferences_of_placed placed,
      fun pieces hnodes short => ?_⟩
    obtain ⟨hreach, rounds, heq, hle⟩ := widenAll_rounds (labelPositions m.nodes) pieces
    refine ⟨rounds, hnodes ▸ rounds_le_jumps short hle, heq ▸ hreach, fun l hl => ?_, fun e he => ?_⟩
    · obtain ⟨rfl, -⟩ := Layout.settle_eq_ok.1 hl
      exact ⟨heq, rfl, Layout.consistent_ofPieces _ pieces⟩
    · have hfails : FailsBy (fun fault => ∃ verb, fault = .overflow verb)
          (Layout.settle (labelPositions m.nodes) pieces) :=
        Layout.failsBy_settle (fun verb => ⟨verb, rfl⟩) _ pieces
      exact hfails e he
  displacements_fit := fun p q l hl => by
    have h := isOf_of_layOut hl
    exact ⟨h.reach, fun fault he => h.sparesJumps_encode jumps _ he rfl⟩
  performed := fun p p' log log' a ha few => by
    obtain ⟨l, q, code, entries, _, _, lines, _, locals, _, localTypes, _, carried, stack, slots,
      bytes, hl, hcode, -, -, -, -, -, -, -, -, rfl⟩ := assemble_eq_ok.1 ha
    have h := isOf_of_layOut hl
    have counted : l.EntriesFit := l.entriesFit_of_encode hcode h.consistent (by
      simp only [List.length_append] at few
      omega)
    refine ⟨l, q, code, hl, ?_, l.length_of_encode hcode h.consistent counted, h.small,
      h.consistent.sum_lengths, fun k label hk => ?_, fun k i => h.performs jumps counted hcode⟩
    · have hat := bytesAt_of_append
        (be16 (limit m.origin CodeOrigin.maxStack stack) ++
          be16 (limit m.origin CodeOrigin.maxLocals slots))
        (be32 (UInt32.ofNat l.codeLength) ++ code) (tableBytes entries ++ bytes)
      simp only [List.append_assoc] at hat ⊢
      exact hat
    · rw [Layout.offsetOf, labelOffset, (h.position label k).2 hk]
      rfl

/-- A loop that is longer than its condition reaches is assembled with a wide condition, which is
    performed. -/
theorem isLaidOutWell_switchLoop : (switchLoop 4096 none).LabelsDistinct ∧
    (switchLoop 4096 none).LabelsPlaced ∧
    (∀ op label, .jump op label ∈ (switchLoop 4096 none).insns → Opcode.IsShortJump op) ∧
    (switchLoop 4096 none).IsLaidOutWell ∧ ∃ a l,
      assemble (switchLoop 4096 none) .empty #[] = ((.ok a, .empty), #[]) ∧
      layOut (switchLoop 4096 none) .empty = (.ok l, .empty) ∧
      ∃ p ∈ l.pieces, p.IsWideCondition := by
  have distinct : (switchLoop 4096 none).LabelsDistinct := List.nodup_singleton _
  have placed : (switchLoop 4096 none).LabelsPlaced := by
    intro label hlabel
    obtain ⟨k, hk⟩ := placed_of_checkReferences (switchLoop.checkReferences_eq 4096 none) label hlabel
    rw [distinctPositions_iff (switchLoop.distinctPositions_eq 4096 none)] at hk
    exact List.mem_filterMap.2 ⟨_, Array.mem_toList_iff.2 (Array.mem_of_getElem? hk), rfl⟩
  have jumps : ∀ op label, .jump op label ∈ (switchLoop 4096 none).insns → Opcode.IsShortJump op :=
    fun op label h => switchLoop.form 4096 none _ h
  obtain ⟨a, -, ha, hl, -⟩ := switchLoop.assemble_eq 4096 none .empty #[] switchLoop.bare_none
    (switchLoop.widenAll_far 4096 rfl) rfl (by decide)
  exact ⟨distinct, placed, jumps, isLaidOutWell_of_labels distinct placed jumps, a, _, ha, hl, _,
    List.mem_cons_of_mem _ (List.mem_cons_of_mem _ List.mem_cons_self),
    Opcode.ifeq, ⟨0⟩, 0x9a, rfl, rfl, rfl⟩

/-! ## 7. Code that is laid out badly -/

/-- A jump over two instructions with the opcode of a wide `goto`. -/
def wideGoto : Method where
  name := "f"
  descriptor := "()V"
  flags := staticFlag
  modified := true
  nodes := #[.insn (.jump Opcode.gotoWide ⟨0⟩), .insn (.simple Opcode.nop),
    .insn (.simple Opcode.nop), .label ⟨0⟩, .insn (.simple 0xb1)]

namespace wideGoto

def positions : Std.HashMap Label Nat :=
  (∅ : Std.HashMap Label Nat).insert ⟨0⟩ 3

/-- The elements, with a jump that is left short. -/
def pieces : List Piece :=
  wideGoto.nodes.toList.map fun node => { node }

def layout : Layout :=
  ⟨pieces, positions, pieceOffsets pieces⟩

/-- The jump has two bytes for its displacement, which are not all that its opcode reads. -/
def written : Bytes :=
  [Opcode.gotoWide, 0, 5, Opcode.nop, Opcode.nop, 0xb1]

theorem layOut_eq : layOut wideGoto .empty = (.ok layout, .empty) := by
  have hpositions : distinctPositions wideGoto.nodes = .ok positions := by cbv
  have hreferences : checkReferences wideGoto positions = .ok () := by cbv
  have hwiden : widenAll positions pieces = pieces := by cbv
  refine layOut_eq_ok.2 ⟨by simp [wideGoto, Node.isMarker], positions, pieces, hpositions,
    hreferences, rfl, ?_, by decide⟩
  rw [Layout.ofPieces, hwiden]
  rfl

theorem encode_eq : layout.encode = .ok written := by cbv

theorem assemble_eq : assemble wideGoto .empty #[] =
    ((.ok { body := codeBody 0 0 written [] [0, 0], dropped := [] }, .empty), #[]) := by
  have hdepth : maxStack wideGoto = .ok 0 := by cbv
  have hlocals : requiredLocals wideGoto = .ok 0 := by cbv
  exact assemble_eq_ok.2 ⟨layout, .empty, written, [], .empty, #[], [], .empty, [], .empty, [], .empty,
    { kept := [] }, 0, 0, [0, 0], layOut_eq, encode_eq, rfl, rfl, rfl, rfl, rfl, hdepth, hlocals,
    rfl, rfl⟩

/-- Control leaves the code instead of going to the label. -/
theorem controlLeaving_eq (x : Operands) :
    controlLeaving written.toArray x 3 0 = .ok 0x50000 ∧ layout.offsetOf ⟨0⟩ = 5 :=
  ⟨Rewire.controlLeaving_eq (bind_eq_ok.2 ⟨_, rfl, bind_eq_ok.2 ⟨_, rfl, rfl⟩⟩) (by decide), by cbv⟩

theorem isWideJump_of_mem {op : UInt8} {label : Label} (h : .jump op label ∈ wideGoto.insns) :
    Opcode.IsWideJump op := by
  have hmem : Insn.jump op label ∈ [Insn.jump Opcode.gotoWide ⟨0⟩, .simple Opcode.nop,
    .simple Opcode.nop, .simple 0xb1] := h
  simp only [List.mem_cons, Insn.jump.injEq, reduceCtorEq, List.not_mem_nil, or_false] at hmem
  exact .inl hmem.1

theorem not_isLaidOutWell : ¬ wideGoto.IsLaidOutWell := by
  intro well
  obtain ⟨l, q, code, hl, hat, hlength, -, -, -, hperforms⟩ :=
    well.performed _ _ _ _ _ assemble_eq (by decide)
  rw [layOut_eq] at hl
  cases hl
  have hcode : code = written := by
    have heq := List.prefix_iff_eq_take.1 hat
    rw [List.length_append, hlength] at heq
    exact List.append_cancel_left heq
  obtain ⟨p, bytes, hp, hnode, hbytes, -, -, -, hcontrol⟩ :=
    hperforms 0 (.jump Opcode.gotoWide ⟨0⟩) rfl
  obtain ⟨hleaving, hoffset⟩ := controlLeaving_eq default
  have hleads := hcontrol (List.cons_ne_nil _ _) default
  have hnext : offsetAt layout.offsets (skipMarkers wideGoto.nodes (0 + 1)) = 3 := by cbv
  have hselect : Insn.select? default (.jump Opcode.gotoWide ⟨0⟩) = some ⟨0⟩ := by decide
  rw [hcode, hnext, hselect] at hleads
  replace hleads := hleaving.symm.trans hleads
  rw [Option.map_some, Option.getD_some, hoffset] at hleads
  exact absurd (Except.ok.inj hleads) (by decide)

end wideGoto

/-- Of a switch with 2^32 entries none is counted, so that its code is longer than its layout. -/
theorem switchLoop.codeLength_lt : ∃ a l code,
    assemble (switchLoop 0x100000000 none) .empty #[] = ((.ok a, .empty), #[]) ∧
      layOut (switchLoop 0x100000000 none) .empty = (.ok l, .empty) ∧ l.encode = .ok code ∧
      l.codeLength < code.length := by
  obtain ⟨a, -, ha, hl, -⟩ := switchLoop.assemble_eq 0x100000000 none .empty #[]
    switchLoop.bare_none (switchLoop.widenAll_near 0x100000000 rfl) rfl (by decide)
  obtain ⟨l, q, code, -, -, -, -, -, -, -, -, -, -, -, -, -, hl', hcode, -⟩ := assemble_eq_ok.1 ha
  rw [hl] at hl'
  cases hl'
  refine ⟨a, _, code, ha, hl, hcode, ?_⟩
  by_contra hle
  have h := isOf_of_layOut hl
  have counted := Layout.entriesFit_of_encode hcode h.consistent (by
    have := h.small
    simp only [maxCodeLength] at this
    omega)
  have hentries : (List.replicate 0x100000000 ((0 : Int32), (⟨0⟩ : Label))).length < 0x100000000 :=
    counted _ (List.mem_cons_of_mem _ List.mem_cons_self) _ rfl
  rw [List.length_replicate] at hentries
  exact Nat.lt_irrefl _ hentries

/-- A jump whose opcode is not the short one is assembled, but its bytes do not lead to its label.
    Of a switch with 2^32 entries none is counted, so that its code is longer than its layout. -/
theorem not_isLaidOutWell_wideGoto :
    (wideGoto.LabelsDistinct ∧ wideGoto.LabelsPlaced ∧
      (∀ op label, .jump op label ∈ wideGoto.insns → Opcode.IsWideJump op) ∧
      ¬ wideGoto.IsLaidOutWell) ∧
    ∃ a l code, assemble (switchLoop 0x100000000 none) .empty #[] = ((.ok a, .empty), #[]) ∧
      layOut (switchLoop 0x100000000 none) .empty = (.ok l, .empty) ∧ l.encode = .ok code ∧
      l.codeLength < code.length :=
  ⟨⟨List.nodup_singleton _, fun _ h => h, fun _ _ => wideGoto.isWideJump_of_mem,
    wideGoto.not_isLaidOutWell⟩, switchLoop.codeLength_lt⟩

end Rewire
