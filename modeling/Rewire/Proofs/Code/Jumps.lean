import Mathlib
import Rewire.Proofs.Code.Instruction

/-!
# Jumps and switches are read back

Instructions with labels are written with the distances to the offsets of the labels, and read back
with those offsets. This file shows

* jumps stand where their bytes are, the short ones (`standsAt_jump`) and the wide ones
  (`standsAt_wideJump`);
* a table of entries of one width is read entry by entry (`mapM_positions`);
* switches stand where their bytes are (`standsAt_tableSwitch`, `standsAt_lookupSwitch`), the pairs
  in the order of their keys;
* whatever an instruction is written as is cut into what it is read back as (`cut_encode`).
-/

namespace Rewire

variable {code : Array UInt8} {pool : ConstantPool} {offset n : Nat} {op : UInt8} {bytes : Bytes}

/-! ## 1. Jumps -/

/-- The label of a jump, found through the distance to it. -/
theorem jumpLabel_eq {labels : LabelTable} {l : Label} (hn : n ≤ maxCodeLength)
    (h : labels.at? n = some l) : jumpLabel labels offset ((n : Int) - offset) = .ok l := by
  have hlt : n < 0x100000000 := Nat.lt_of_le_of_lt hn (by decide)
  rw [jumpLabel, add_sub_cancel, asOffset_of_lt hlt, LabelTable.get, h]
  rfl

theorem mapM_target :
    ([⟨n⟩] : List Label).mapM (fun t => branchTarget code offset ((t.id : Int) - offset)) =
      (do return [← branchTarget code offset ((n : Int) - offset)]) := by
  rw [List.mapM_cons, List.mapM_nil]
  rfl

theorem standsAt_jump {delta : Int16} (hat : BytesAt code offset (op :: bytes16 delta))
    (form : Opcode.IsShortJump op) (hn : n ≤ maxCodeLength)
    (hdelta : delta.toInt = (n : Int) - offset) :
    (Insn.jump op ⟨n⟩).StandsAt code pool offset 3 := by
  have hop := u8At_eq hat
  have hformat := formatAt_eq hat ((Format.goesWith op).jump form)
  have hread := i16At_of_bytesAt (bytesAt_cons.1 hat).2
  refine ⟨⟨by decide, hat.inside (Nat.succ_pos _), insnLength_eq_ok.2 ⟨_, hformat, rfl⟩, ?_⟩, ?_⟩
  · rw [branchTargets_eq hformat, Format.targets, hread, Insn.targets, mapM_target, ← hdelta]
    rfl
  · intro labels place h
    have hlabel := h ⟨n⟩ List.mem_cons_self
    refine decodeInsn_eq_ok.2 ⟨_, _, hop, hformat, bind_eq_ok.2 ⟨_, hread, ?_⟩⟩
    rw [hdelta]
    exact bind_eq_ok.2 ⟨_, jumpLabel_eq hn hlabel, rfl⟩

theorem standsAt_wideJump {wideOp : UInt8} {delta : Int32}
    (hat : BytesAt code offset (wideOp :: bytes32 delta))
    (hf : Format.of? wideOp = some (.wideJump op)) (hn : n ≤ maxCodeLength)
    (hdelta : delta.toInt = (n : Int) - offset) :
    (Insn.jump op ⟨n⟩).StandsAt code pool offset 5 := by
  have hop := u8At_eq hat
  have hformat := formatAt_eq hat hf
  have hread := i32At_of_bytesAt (bytesAt_cons.1 hat).2
  refine ⟨⟨by decide, hat.inside (Nat.succ_pos _), insnLength_eq_ok.2 ⟨_, hformat, rfl⟩, ?_⟩, ?_⟩
  · rw [branchTargets_eq hformat, Format.targets, branchTargetAt, hread, Insn.targets, mapM_target,
      ← hdelta]
    rfl
  · intro labels place h
    have hlabel := h ⟨n⟩ List.mem_cons_self
    refine decodeInsn_eq_ok.2 ⟨_, _, hop, hformat, ?_⟩
    refine bind_eq_ok.2 ⟨_, bind_eq_ok.2 ⟨_, hread, ?_⟩, rfl⟩
    rw [hdelta]
    exact jumpLabel_eq hn hlabel

theorem readBack_narrow (l after : Label) :
    (Insn.jump op l).readBack false after = [Insn.jump op l] := by
  simp only [Insn.readBack]
  cases oppositeCondition op <;> rfl

theorem readBack_wide {opposite : UInt8} (h : oppositeCondition op = .ok opposite)
    (l after : Label) : (Insn.jump op l).readBack true after =
      [Insn.jump opposite after, Insn.jump Opcode.goto l] := by
  simp only [Insn.readBack, h]
  rfl

/-- **A jump is cut into what it is read back as.** -/
theorem cut_jump {wide : Bool} (h : encodeJump op wide ((n : Int) - offset) = .ok bytes)
    (hat : BytesAt code offset bytes) (form : Opcode.IsShortJump op) (hn : n ≤ maxCodeLength)
    (small : code.size ≤ maxCodeLength) :
    Cut code pool offset ([offset, offset + 3].zip
      ((Insn.jump op ⟨n⟩).readBack wide ⟨offset + bytes.length⟩)) (offset + bytes.length) := by
  unfold encodeJump at h
  cases wide with
  | false =>
    obtain ⟨delta, hdelta, hbytes⟩ := bind_eq_ok.1 h
    cases hbytes
    rw [readBack_narrow]
    exact .cons (standsAt_jump hat form hn (fitSigned16_eq_ok hdelta)) (.nil _)
  | true =>
    simp only [Bool.not_true, Bool.false_eq_true, if_false] at h
    split at h
    · rename_i hgoto
      obtain ⟨delta, hdelta, hbytes⟩ := bind_eq_ok.1 h
      cases hbytes
      have hback : ∀ after, (Insn.jump op ⟨n⟩).readBack true after = [Insn.jump op ⟨n⟩] := by
        intro after
        rcases hgoto with rfl | rfl <;> rfl
      have hf : Format.of? (if op = Opcode.goto then Opcode.gotoWide else Opcode.jsrWide) =
          some (.wideJump op) := by
        rcases hgoto with rfl | rfl <;> rfl
      rw [hback]
      exact .cons (standsAt_wideJump hat hf hn (fitSigned32_eq_ok hdelta)) (.nil _)
    · obtain ⟨opposite, hopposite, h⟩ := bind_eq_ok.1 h
      obtain ⟨delta, hdelta, hbytes⟩ := bind_eq_ok.1 h
      cases hbytes
      obtain ⟨hfirst, hsecond⟩ := bytesAt_append.1 hat
      have hskip : (8 : Int16).toInt = ((offset + 8 : Nat) : Int) - offset := by
        rw [show (8 : Int16).toInt = 8 from rfl]
        omega
      have hover : delta.toInt = (n : Int) - (offset + 3 : Nat) := by
        rw [fitSigned32_eq_ok hdelta]
        omega
      show Cut code pool offset ([offset, offset + 3].zip
        ((Insn.jump op ⟨n⟩).readBack true ⟨offset + 8⟩)) (offset + 8)
      rw [readBack_wide hopposite]
      have hafter : offset + 8 ≤ maxCodeLength :=
        Nat.le_trans (hat.inside (Nat.succ_pos _)) small
      exact .cons (standsAt_jump hfirst (oppositeCondition_isShortJump hopposite) hafter hskip)
        (.cons (standsAt_wideJump hsecond rfl hn hover) (.nil _))

/-! ## 2. Tables -/

/-- A table of entries of one width is read entry by entry. -/
theorem mapM_positions {γ α : Type} {enc : γ → Bytes} {width : Nat} {f : Nat → Outcome α}
    {g : γ → Outcome α} (hwidth : ∀ e, (enc e).length = width)
    (hfg : ∀ position e, BytesAt code position (enc e) → f position = g e) {entries : List γ}
    {base : Nat} (hat : BytesAt code base (entries.flatMap enc)) :
    ((List.range entries.length).map fun i => base + width * i).mapM f = entries.mapM g := by
  induction entries generalizing base with
  | nil => rfl
  | cons e rest ih =>
    rw [List.flatMap_cons, bytesAt_append, hwidth] at hat
    have hrest := ih hat.2
    have hshift : ((fun i => base + width * i) ∘ Nat.succ) = fun i => base + width + width * i := by
      funext i
      rw [Function.comp_apply, Nat.mul_succ]
      omega
    rw [List.length_cons, List.range_succ_eq_map, List.map_cons, List.map_map, hshift,
      List.mapM_cons, List.mapM_cons, hrest, Nat.mul_zero, Nat.add_zero, hfg base e hat.1]

@[simp] theorem length_bytes32 (v : Int32) : (bytes32 v).length = 4 := rfl

@[simp] theorem length_bytes16 (v : Int16) : (bytes16 v).length = 2 := rfl

theorem toInt_distance {target : Nat} (htarget : target ≤ maxCodeLength)
    (hoffset : offset ≤ maxCodeLength) :
    (Int32.ofInt ((target : Int) - offset)).toInt = (target : Int) - offset := by
  simp only [maxCodeLength] at htarget hoffset
  exact Int32.toInt_ofInt_of_le (by omega) (by omega)

/-- The bytes after the padding of a switch. -/
theorem bytesAt_switch {rest : Bytes} (h : BytesAt code offset (op :: switchPadding offset ++ rest)) :
    BytesAt code (switchBase offset) rest := by
  have hrest := (bytesAt_append.1 h).2
  rw [List.length_cons, switchPadding, List.length_replicate] at hrest
  have hbase : offset + (padding offset + 1) = switchBase offset := by
    unfold switchBase
    omega
  rwa [hbase] at hrest

/-! ## 3. Switches -/

section Switches

variable {target : Label → Nat}

/-- Where the distance to a label stands, the offset of the label is read. -/
theorem branchTargetAt_eq {position : Nat} {l : Label} (htarget : target l ≤ maxCodeLength)
    (hoffset : offset ≤ maxCodeLength)
    (hat : BytesAt code position (Insn.encode.displacement offset target l)) :
    branchTargetAt code offset position =
      branchTarget code offset ((target l : Int) - offset) := by
  unfold branchTargetAt
  rw [i32At_of_bytesAt hat]
  show branchTarget code offset (Int32.ofInt ((target l : Int) - offset)).toInt = _
  rw [toInt_distance htarget hoffset]

theorem jumpLabelAt_eq {labels : LabelTable} {position : Nat} {l : Label}
    (htarget : target l ≤ maxCodeLength) (hoffset : offset ≤ maxCodeLength)
    (hat : BytesAt code position (Insn.encode.displacement offset target l)) :
    jumpLabelAt code labels offset position =
      jumpLabel labels offset ((target l : Int) - offset) := by
  unfold jumpLabelAt
  rw [i32At_of_bytesAt hat]
  show jumpLabel labels offset (Int32.ofInt ((target l : Int) - offset)).toInt = _
  rw [toInt_distance htarget hoffset]

/-- Where the distance to a label stands, the label of its offset is decoded. -/
theorem jumpLabelAt_of_at? {labels : LabelTable} {position : Nat} {l found : Label}
    (htarget : target l ≤ maxCodeLength) (hoffset : offset ≤ maxCodeLength)
    (hat : BytesAt code position (Insn.encode.displacement offset target l))
    (h : labels.at? (target l) = some found) :
    jumpLabelAt code labels offset position = .ok found := by
  rw [jumpLabelAt_eq htarget hoffset hat]
  exact jumpLabel_eq htarget h

theorem length_tableSwitch (offset : Nat) (target : Label → Nat) (low high : Int32)
    (default : Label) (targets : List Label) :
    (Opcode.tableSwitch :: switchPadding offset ++
      (Insn.encode.displacement offset target default ++ (bytes32 low ++ (bytes32 high ++
        targets.flatMap (Insn.encode.displacement offset target))))).length =
      tableSwitchLength offset targets.length := by
  simp only [List.length_append, List.length_cons, Insn.encode.displacement, length_bytes32,
    List.length_flatMap, List.map_const', List.sum_replicate, smul_eq_mul, switchPadding,
    List.length_replicate, tableSwitchLength]
  omega

theorem length_lookupSwitch (offset : Nat) (target : Label → Nat) (count : Int32)
    (default : Label) (pairs : List (Int32 × Label)) :
    (Opcode.lookupSwitch :: switchPadding offset ++
      (Insn.encode.displacement offset target default ++ (bytes32 count ++
        pairs.flatMap fun pair =>
          bytes32 pair.1 ++ Insn.encode.displacement offset target pair.2))).length =
      lookupSwitchLength offset pairs.length := by
  simp only [List.length_append, List.length_cons, Insn.encode.displacement, length_bytes32,
    List.length_flatMap, List.map_const', List.sum_replicate, smul_eq_mul, switchPadding,
    List.length_replicate, lookupSwitchLength]
  omega

/-- Bounds as far apart as there are targets give the number of targets. -/
theorem tableCount?_eq {low high : Int32} {n : Nat} (harity : high.toInt - low.toInt + 1 = n)
    (few : n < 0x80000000) : ∃ count, tableCount? low high = some count ∧ count.toInt = n := by
  have hback : (Int32.ofNat n).toInt = n := Int32.toInt_ofNat_of_lt few
  exact ⟨_, tableCount?_eq_some.2 ⟨hback.trans harity.symm, by omega⟩, hback⟩

theorem tableSizeAt_eq {low high : Int32} {n : Nat} (harity : high.toInt - low.toInt + 1 = n)
    (few : n < 0x80000000) (hlow : i32At code (switchBase offset + 4) = .ok low)
    (hhigh : i32At code (switchBase offset + 8) = .ok high) : tableSizeAt code offset = .ok n := by
  refine bind_eq_ok.2 ⟨_, hlow, bind_eq_ok.2 ⟨_, hhigh, ?_⟩⟩
  simp only [harity]
  rw [if_pos ⟨Int.natCast_nonneg _, by exact_mod_cast few⟩]
  rfl

theorem pairCountAt_eq {n : Nat} (few : n < 0x80000000)
    (hcount : i32At code (switchBase offset + 4) = .ok (Int32.ofNat n)) :
    pairCountAt code offset = .ok n := by
  have hback : (Int32.ofNat n).toInt = n := Int32.toInt_ofNat_of_lt few
  have hnonneg : ¬ Int32.ofNat n < 0 := by
    rw [Int32.lt_iff_toInt_lt, hback]
    exact Int.not_lt.2 (Int.natCast_nonneg _)
  refine bind_eq_ok.2 ⟨_, hcount, ?_⟩
  simp only [if_neg hnonneg, hback]
  rfl

/-- The displacement of a pair stands four bytes behind its key. -/
theorem pairPositions_eq (offset n : Nat) : pairPositions offset n =
    ((List.range n).map fun i => switchBase offset + 4 + 4 + 8 * i).map (· + 4) := by
  rw [pairPositions, List.map_map]
  refine List.map_congr_left fun i _ => ?_
  rw [Function.comp_apply]
  omega

theorem standsAt_tableSwitch {low high : Int32} {default : Label} {targets : List Label}
    (harity : high.toInt - low.toInt + 1 = targets.length)
    (htarget : ∀ l, target l ≤ maxCodeLength) (small : code.size ≤ maxCodeLength)
    (hat : BytesAt code offset bytes)
    (hbytes : bytes = Opcode.tableSwitch :: switchPadding offset ++
      (Insn.encode.displacement offset target default ++ (bytes32 low ++ (bytes32 high ++
        targets.flatMap (Insn.encode.displacement offset target))))) :
    ((Insn.tableSwitch low high default targets).mapLabels fun l => ⟨target l⟩).StandsAt code pool
      offset bytes.length := by
  have hinside := hat.inside (by rw [hbytes]; exact Nat.succ_pos _)
  rw [hbytes] at hat
  have hop := u8At_eq hat
  have hformat := formatAt_eq hat rfl
  have hbase := bytesAt_switch hat
  obtain ⟨hdefault, hbase⟩ := bytesAt_append.1 hbase
  obtain ⟨hlow, hbase⟩ := bytesAt_append.1 hbase
  obtain ⟨hhigh, htable⟩ := bytesAt_append.1 hbase
  have hwidth : ∀ l, (Insn.encode.displacement offset target l).length = 4 := fun _ => rfl
  rw [hwidth] at hlow hhigh htable
  rw [length_bytes32] at hhigh htable
  rw [length_bytes32] at htable
  have hlow := i32At_of_bytesAt hlow
  have hhigh := i32At_of_bytesAt hhigh
  rw [hbytes, length_tableSwitch] at hinside ⊢
  have hoffset : offset ≤ maxCodeLength := by omega
  have few : targets.length < 0x80000000 := by
    simp only [tableSwitchLength, maxCodeLength] at hinside small
    omega
  have hsize := tableSizeAt_eq harity few hlow hhigh
  refine ⟨⟨by unfold tableSwitchLength; omega, hinside, ?_, ?_⟩, ?_⟩
  · exact insnLength_eq_ok.2 ⟨_, hformat, bind_eq_ok.2 ⟨_, hsize, rfl⟩⟩
  · have htargets := mapM_positions (f := branchTargetAt code offset) hwidth
      (fun _ l hl => branchTargetAt_eq (htarget l) hoffset hl) htable
    have hall : (switchBase offset :: tablePositions offset targets.length).mapM
        (branchTargetAt code offset) = (default :: targets).mapM fun l =>
          branchTarget code offset ((target l : Int) - offset) := by
      rw [List.mapM_cons, List.mapM_cons, branchTargetAt_eq (htarget default) hoffset hdefault,
        tablePositions, htargets]
    rw [Insn.targets_mapLabels, List.mapM_map, branchTargets_eq hformat, Format.targets, hlow, hhigh]
    show switchTargets code offset (tablePositions offset (high.toInt - low.toInt + 1).toNat) = _
    rw [harity, Int.toNat_natCast]
    exact hall
  · intro labels place h
    obtain ⟨count, hcount, hback⟩ := tableCount?_eq harity few
    rw [Insn.targets_mapLabels, Insn.targets, List.map_cons] at h
    have hfirst := jumpLabelAt_of_at? (htarget default) hoffset hdefault
      (h ⟨target default⟩ List.mem_cons_self)
    have hrest := mapM_positions (f := jumpLabelAt code labels offset) hwidth
      (fun _ l hl => jumpLabelAt_eq (htarget l) hoffset hl) htable
    rw [mapM_of_forall (g := fun l => place ⟨target l⟩) fun l hl => jumpLabel_eq
      (htarget l) (h ⟨target l⟩ (List.mem_cons_of_mem _ (List.mem_map_of_mem hl)))] at hrest
    change (tablePositions offset targets.length).mapM _ = _ at hrest
    rw [show targets.length = count.toInt.toNat by omega] at hrest
    refine decodeInsn_eq_ok.2 ⟨_, _, hop, hformat, ?_⟩
    refine bind_eq_ok.2 ⟨_, hfirst, bind_eq_ok.2 ⟨_, hlow, bind_eq_ok.2 ⟨_, hhigh,
      bind_eq_ok.2 ⟨_, orFail_eq_ok.2 hcount, bind_eq_ok.2 ⟨_, hrest, ?_⟩⟩⟩⟩⟩
    simp only [Insn.mapLabels, List.map_map]
    rfl

/-- The pair of a switch whose distance is stored at a position. -/
def pairAt (code : Array UInt8) (labels : LabelTable) (offset position : Nat) :
    Outcome (Int32 × Label) := do
  let key ← i32At code (position - 4)
  return (key, ← jumpLabelAt code labels offset position)

theorem standsAt_lookupSwitch {default : Label} {pairs : List (Int32 × Label)}
    (htarget : ∀ l, target l ≤ maxCodeLength) (small : code.size ≤ maxCodeLength)
    (hat : BytesAt code offset bytes)
    (hbytes : bytes = Opcode.lookupSwitch :: switchPadding offset ++
      (Insn.encode.displacement offset target default ++ (bytes32 (Int32.ofNat pairs.length) ++
        pairs.flatMap fun pair =>
          bytes32 pair.1 ++ Insn.encode.displacement offset target pair.2))) :
    ((Insn.lookupSwitch default pairs).mapLabels fun l => ⟨target l⟩).StandsAt code pool
      offset bytes.length := by
  have hinside := hat.inside (by rw [hbytes]; exact Nat.succ_pos _)
  rw [hbytes] at hat
  have hop := u8At_eq hat
  have hformat := formatAt_eq hat rfl
  have hbase := bytesAt_switch hat
  obtain ⟨hdefault, hbase⟩ := bytesAt_append.1 hbase
  obtain ⟨hcount, htable⟩ := bytesAt_append.1 hbase
  have hwidth : ∀ l, (Insn.encode.displacement offset target l).length = 4 := fun _ => rfl
  have hpair : ∀ pair : Int32 × Label,
      (bytes32 pair.1 ++ Insn.encode.displacement offset target pair.2).length = 8 := fun _ => rfl
  rw [hwidth] at hcount htable
  rw [length_bytes32] at htable
  have hcount := i32At_of_bytesAt hcount
  rw [hbytes, length_lookupSwitch] at hinside ⊢
  have hoffset : offset ≤ maxCodeLength := by omega
  have few : pairs.length < 0x80000000 := by
    simp only [lookupSwitchLength, maxCodeLength] at hinside small
    omega
  have hsize := pairCountAt_eq few hcount
  have hback : (Int32.ofNat pairs.length).toInt.toNat = pairs.length := by
    rw [Int32.toInt_ofNat_of_lt few, Int.toNat_natCast]
  refine ⟨⟨by unfold lookupSwitchLength; omega, hinside, ?_, ?_⟩, ?_⟩
  · exact insnLength_eq_ok.2 ⟨_, hformat, bind_eq_ok.2 ⟨_, hsize, rfl⟩⟩
  · have htargets := mapM_positions (f := branchTargetAt code offset ∘ (· + 4)) hpair
      (fun position pair hl => branchTargetAt_eq (htarget pair.2) hoffset
        (bytesAt_append.1 hl).2) htable
    have hall : (switchBase offset :: pairPositions offset pairs.length).mapM
        (branchTargetAt code offset) = (default :: pairs.map Prod.snd).mapM fun l =>
          branchTarget code offset ((target l : Int) - offset) := by
      rw [List.mapM_cons, List.mapM_cons, branchTargetAt_eq (htarget default) hoffset hdefault,
        pairPositions_eq, List.mapM_map, htargets, List.mapM_map]
      rfl
    rw [Insn.targets_mapLabels, List.mapM_map, branchTargets_eq hformat, Format.targets, hcount]
    show switchTargets code offset (pairPositions offset (Int32.ofNat pairs.length).toInt.toNat) = _
    rw [hback]
    exact hall
  · intro labels place h
    rw [Insn.targets_mapLabels, Insn.targets, List.map_cons] at h
    have hfirst := jumpLabelAt_of_at? (htarget default) hoffset hdefault
      (h ⟨target default⟩ List.mem_cons_self)
    have hread : ∀ position (pair : Int32 × Label),
        BytesAt code position (bytes32 pair.1 ++ Insn.encode.displacement offset target pair.2) →
          (pairAt code labels offset ∘ (· + 4)) position = do
            return (pair.1, ← jumpLabel labels offset ((target pair.2 : Int) - offset)) := by
      intro position pair hl
      obtain ⟨hkey, hlabel⟩ := bytesAt_append.1 hl
      rw [length_bytes32] at hlabel
      rw [Function.comp_apply, pairAt]
      rw [show position + 4 - 4 = position by omega, i32At_of_bytesAt hkey,
        jumpLabelAt_eq (htarget pair.2) hoffset hlabel]
      rfl
    have hrest := mapM_positions hpair hread htable
    rw [mapM_of_forall (g := fun pair => (pair.1, place ⟨target pair.2⟩)) fun pair hp =>
      bind_eq_ok.2 ⟨_, jumpLabel_eq (htarget pair.2) (h ⟨target pair.2⟩ (List.mem_cons_of_mem _
        (List.mem_map_of_mem (List.mem_map_of_mem hp)))), rfl⟩] at hrest
    refine decodeInsn_eq_ok.2 ⟨_, _, hop, hformat, ?_⟩
    rw [← List.mapM_map, ← pairPositions_eq, ← hback] at hrest
    refine bind_eq_ok.2 ⟨_, hfirst, bind_eq_ok.2 ⟨_, hcount, bind_eq_ok.2 ⟨_, hrest, ?_⟩⟩⟩
    simp only [Insn.mapLabels, List.map_map]
    rfl

/-- Replacing the labels does not change the order of the pairs. -/
theorem sortedPairs_map (f : Label → Label) (pairs : List (Int32 × Label)) :
    sortedPairs (pairs.map fun (key, l) => (key, f l)) =
      (sortedPairs pairs).map fun (key, l) => (key, f l) := by
  unfold sortedPairs
  exact (List.map_mergeSort (f := fun pair : Int32 × Label => (pair.1, f pair.2))
    fun _ _ _ _ => rfl).symm

end Switches

/-! ## 4. Every instruction -/

/-- Whether an instruction's opcode belongs to its form. -/
def Insn.OpcodeFits : Insn → Prop
  | tableSwitch _ _ _ _ => True
  | i => i.HasForm

theorem Insn.HasForm.opcodeFits {i : Insn} (h : i.HasForm) : i.OpcodeFits := by
  cases i with
  | tableSwitch low high default targets => trivial
  | _ => exact h

/-- **What an instruction is written as is cut into what it is read back as.** -/
theorem cut_encode {i : Insn} {operand : UInt16} {wide : Bool} {target : Label → Nat}
    (h : i.encode offset operand wide target = .ok bytes) (hat : BytesAt code offset bytes)
    (form : i.OpcodeFits) (hoperand : i.OperandIs pool operand)
    (htarget : ∀ l, target l ≤ maxCodeLength) (small : code.size ≤ maxCodeLength) :
    Cut code pool offset ([offset, offset + 3].zip
      ((i.mapLabels fun l => ⟨target l⟩).readBack wide ⟨offset + bytes.length⟩))
      (offset + bytes.length) := by
  cases i with
  | simple op =>
    cases h
    exact .cons (standsAt_simple hat form) (.nil _)
  | int op value => exact .cons (standsAt_int h hat form) (.nil _)
  | ldc value =>
    cases h
    exact .cons (standsAt_ldc hat hoperand) (.nil _)
  | var op slot => exact .cons (standsAt_var h hat form) (.nil _)
  | iinc slot delta =>
    cases h
    exact .cons (standsAt_iinc hat) (.nil _)
  | jump op l => exact cut_jump h hat form (htarget l) small
  | tableSwitch low high default targets =>
    simp only [Insn.encode] at h
    split at h
    · cases h
    rename_i harity
    cases h
    exact .cons (standsAt_tableSwitch (not_not.1 harity) htarget small hat
      (by simp only [List.append_assoc]))
      (.nil _)
  | lookupSwitch default pairs =>
    cases h
    have hcount : (sortedPairs pairs).length = pairs.length := List.length_mergeSort pairs
    have h : ((Insn.lookupSwitch default (sortedPairs pairs)).mapLabels
        fun l => ⟨target l⟩).StandsAt code pool offset _ :=
      standsAt_lookupSwitch htarget small hat (by rw [hcount]; simp only [List.append_assoc])
    have hback : ∀ after, ((Insn.lookupSwitch default pairs).mapLabels
        fun l => ⟨target l⟩).readBack wide after =
          [(Insn.lookupSwitch default (sortedPairs pairs)).mapLabels fun l => ⟨target l⟩] := by
      intro after
      simp only [Insn.mapLabels, Insn.readBack, sortedPairs_map (fun l => ⟨target l⟩) pairs]
    rw [hback]
    exact .cons h (.nil _)
  | field op m =>
    cases h
    obtain ⟨interface, hm⟩ := hoperand
    exact .cons (standsAt_field hat form hm) (.nil _)
  | call site =>
    by_cases hkind : site.kind = .interface
    · simp only [Insn.encode, if_pos hkind] at h
      obtain ⟨d, -, h⟩ := bind_eq_ok.1 h
      obtain ⟨width, -, h⟩ := bind_eq_ok.1 h
      obtain ⟨words, -, h⟩ := bind_eq_ok.1 h
      obtain ⟨count, -, h⟩ := bind_eq_ok.1 h
      cases h
      exact .cons (standsAt_call _ hat (by rw [if_pos hkind]; rfl) hoperand) (.nil _)
    · simp only [Insn.encode, if_neg hkind] at h
      cases h
      have hcall := standsAt_call [] (by rwa [List.append_nil])
        (by rw [if_neg hkind]; rfl) hoperand
      exact .cons hcall (.nil _)
  | invokeDynamic index name descriptor =>
    cases h
    exact .cons (standsAt_invokeDynamic hat hoperand) (.nil _)
  | type op name =>
    cases h
    exact .cons (standsAt_type hat form hoperand) (.nil _)
  | multiANewArray name dimensions =>
    cases h
    exact .cons (standsAt_multiANewArray hat hoperand) (.nil _)

/-! ## 5. Lengths -/

section Lengths

variable {op : UInt8}

theorem length_encodeInt {value : Int32} (h : encodeInt op value = .ok bytes) :
    bytes.length = if op = Opcode.sipush then 3 else 2 := by
  unfold encodeInt at h
  split at h
  · obtain ⟨n, -, h⟩ := bind_eq_ok.1 h
    cases h
    rw [if_pos ‹_›]
    rfl
  · rw [if_neg ‹_›]
    split at h <;>
    · obtain ⟨n, -, h⟩ := bind_eq_ok.1 h
      cases h
      rfl

theorem length_encodeLdc (value : Loadable) (operand : UInt16) :
    (encodeLdc value operand).length = if value.isWide ∨ 255 < operand then 3 else 2 := by
  unfold encodeLdc
  by_cases hwide : value.isWide = true
  · rw [if_pos hwide, if_pos (Or.inl hwide)]
    rfl
  rw [if_neg hwide]
  by_cases hsmall : operand ≤ 255
  · rw [if_pos hsmall, if_neg (not_or.2 ⟨hwide, UInt16.not_lt.2 hsmall⟩)]
    rfl
  · rw [if_neg hsmall, if_pos (Or.inr (UInt16.not_le.1 hsmall))]
    rfl

theorem length_encodeVar {slot : UInt16} (h : encodeVar op slot = .ok bytes) :
    bytes.length = if 255 < slot then 4 else if hasShortForm op slot then 1 else 2 := by
  unfold encodeVar at h
  split at h
  · cases h
    rw [if_pos ‹_›]
    rfl
  · rw [if_neg ‹_›]
    split at h
    · obtain ⟨b, -, h⟩ := bind_eq_ok.1 h
      cases h
      rw [if_pos ‹_›]
      rfl
    · cases h
      rw [if_neg ‹_›]
      rfl

theorem length_encodeIinc (slot : UInt16) (delta : Int16) :
    (encodeIinc slot delta).length = if iincIsShort slot delta then 3 else 6 := by
  unfold encodeIinc
  split <;> rfl

theorem length_encodeJump {wide : Bool} {delta : Int} (h : encodeJump op wide delta = .ok bytes) :
    bytes.length = jumpLength op wide := by
  unfold encodeJump at h
  unfold jumpLength
  split at h
  · obtain ⟨n, -, h⟩ := bind_eq_ok.1 h
    cases h
    rw [if_pos ‹_›]
    rfl
  · rw [if_neg ‹_›]
    split at h
    · obtain ⟨n, -, h⟩ := bind_eq_ok.1 h
      cases h
      show 5 = _
      rw [if_pos ‹_›]
    · obtain ⟨opposite, -, h⟩ := bind_eq_ok.1 h
      obtain ⟨n, -, h⟩ := bind_eq_ok.1 h
      cases h
      rw [if_neg ‹_›]
      rfl

end Lengths

/-- **An instruction is written in as many bytes** as the layout reserves for it, unless it is a
    switch whose entries are not counted in full. -/
theorem length_encode {i : Insn} {operand : UInt16} {wide : Bool} {target : Label → Nat}
    (h : i.encode offset operand wide target = .ok bytes) (fits : i.EntriesFit) :
    bytes.length = i.length offset operand wide := by
  cases i with
  | int op value => exact length_encodeInt h
  | ldc value =>
    cases h
    exact length_encodeLdc value operand
  | var op slot => exact length_encodeVar h
  | iinc slot delta =>
    cases h
    exact length_encodeIinc slot delta
  | jump op l => exact length_encodeJump h
  | tableSwitch low high default targets =>
    simp only [Insn.encode] at h
    split at h
    · cases h
    · cases h
      simp only [List.append_assoc]
      have hcount : countedEntries targets.length = targets.length := countedEntries_of_lt fits
      rw [length_tableSwitch, Insn.length, hcount]
  | lookupSwitch default pairs =>
    cases h
    simp only [List.append_assoc]
    have hcount : countedEntries pairs.length = pairs.length := countedEntries_of_lt fits
    rw [length_lookupSwitch, sortedPairs, List.length_mergeSort, Insn.length, hcount]
  | call site =>
    simp only [Insn.encode] at h
    rw [Insn.length]
    split at h
    · obtain ⟨d, -, h⟩ := bind_eq_ok.1 h
      obtain ⟨width, -, h⟩ := bind_eq_ok.1 h
      obtain ⟨words, -, h⟩ := bind_eq_ok.1 h
      obtain ⟨count, -, h⟩ := bind_eq_ok.1 h
      cases h
      rw [if_pos ‹_›]
      rfl
    · cases h
      rw [if_neg ‹_›]
      rfl
  | _ =>
    cases h
    rfl

/-- Every entry of a switch takes room. -/
theorem entries_le_of_encode {i : Insn} {operand : UInt16} {wide : Bool} {target : Label → Nat}
    (h : i.encode offset operand wide target = .ok bytes) : i.entries ≤ bytes.length := by
  cases i with
  | tableSwitch low high default targets =>
    simp only [Insn.encode] at h
    split at h
    · cases h
    · cases h
      simp only [List.append_assoc]
      rw [length_tableSwitch, Insn.entries, tableSwitchLength]
      omega
  | lookupSwitch default pairs =>
    cases h
    simp only [List.append_assoc]
    rw [length_lookupSwitch, sortedPairs, List.length_mergeSort, Insn.entries, lookupSwitchLength]
    omega
  | _ => exact Nat.zero_le _

end Rewire
