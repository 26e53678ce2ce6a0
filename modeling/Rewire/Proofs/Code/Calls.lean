import Mathlib
import Rewire.Proofs.Code.Assembling
import Rewire.Proofs.Code.Decoded

/-!
# Calls in assembled code

What is decoded from an assembled body calls nothing but what the method calls. This holds whatever
the slots denote that are not looked up, and whether the method's tables fit or not. This file shows

* that decoded code calls only what is called in the instructions it was cut into
  (`calls_of_decodeMethod`);
* that the bytes of a layout are cut into instructions that tell the calls among them
  (`LaidOut.cut_calls`);
* that the calls of a decoded body are those of the method (`LaidOut.calls_of_decode`).
-/

namespace Rewire

/-! ## 1. Instructions -/

section Insns

variable {code : Array UInt8} {pool : ConstantPool} {offset : Nat} {i : Insn}

theorem Insn.eq_call_of_mapLabels {f : Label → Label} {site : CallSite}
    (h : i.mapLabels f = .call site) : i = .call site := by
  cases i with
  | call site' => exact h
  | _ => cases h

/-- An instruction that stands at an offset tells whether there is a call. -/
theorem Insn.StandsAt.tellsCall {length : Nat} (h : i.StandsAt code pool offset length) :
    i.TellsCall code pool offset length := by
  refine ⟨h.toTakesUp, fun labels site hlabels hcall => ?_⟩
  have hplace : ∀ t ∈ i.targets, labels.at? t.id = some ((labels.at? t.id).getD ⟨0⟩) := by
    intro t ht
    obtain ⟨l, hl⟩ := hlabels t ht
    rw [hl]
    rfl
  have hinsn := h.insn_eq labels (fun t => (labels.at? t.id).getD ⟨0⟩) hplace
  rw [hcall] at hinsn
  exact Insn.eq_call_of_mapLabels (Except.ok.inj hinsn).symm

/-- An instruction of a format of fixed length that is no call tells so. -/
theorem tellsCall_fixed {format : Format} {op : UInt8} {bytes : Bytes}
    (hat : BytesAt code offset (op :: bytes)) (hf : Format.of? op = some format)
    (hfixed : format.fixedLength? = some (op :: bytes).length) (short : format.branches = false)
    (plain : i.targets = []) (hcall : ∀ kind, format ≠ .call kind) :
    i.TellsCall code pool offset (op :: bytes).length := by
  have hformat := formatAt_eq hat hf
  obtain ⟨hlength, htargets⟩ := length_of_fixed hformat hfixed short
  refine ⟨⟨Nat.succ_pos _, hat.inside (Nat.succ_pos _), hlength, ?_⟩, fun labels site _ h => ?_⟩
  · rw [htargets, plain]
    rfl
  · obtain ⟨kind, hkind⟩ := formatAt_of_call h
    rw [hformat] at hkind
    exact absurd (Except.ok.inj hkind) (hcall kind)

theorem tellsCall_ldc {value : Loadable} {operand : UInt16}
    (hat : BytesAt code offset (encodeLdc value operand)) :
    (Insn.ldc value).TellsCall code pool offset (encodeLdc value operand).length := by
  unfold encodeLdc at hat ⊢
  by_cases hwide : value.isWide = true
  · rw [if_pos hwide] at hat ⊢
    exact tellsCall_fixed hat rfl rfl rfl rfl nofun
  · rw [if_neg hwide] at hat ⊢
    by_cases hsmall : operand ≤ 255
    · rw [if_pos hsmall] at hat ⊢
      exact tellsCall_fixed hat rfl rfl rfl rfl nofun
    · rw [if_neg hsmall] at hat ⊢
      exact tellsCall_fixed hat rfl rfl rfl rfl nofun

/-- What an instruction is written as is cut into instructions that tell the calls. -/
theorem cut_calls_encode {operand : UInt16} {wide : Bool} {target : Label → Nat} {bytes : Bytes}
    (h : i.encode offset operand wide target = .ok bytes) (hat : BytesAt code offset bytes)
    (form : i.OpcodeFits) (hoperand : i.keptSlot? = none → i.OperandIs pool operand)
    (htarget : ∀ l, target l ≤ maxCodeLength) (small : code.size ≤ maxCodeLength) :
    CutBy (fun offset length i => i.TellsCall code pool offset length) offset
      ([offset, offset + 3].zip
        ((i.mapLabels fun l => ⟨target l⟩).readBack wide ⟨offset + bytes.length⟩))
      (offset + bytes.length) := by
  cases hkept : i.keptSlot? with
  | none =>
    exact (cut_encode h hat form (hoperand hkept) htarget small).mono
      fun _ _ _ hi => hi.tellsCall
  | some index =>
    cases i with
    | ldc value =>
      cases h
      exact .cons (tellsCall_ldc hat) (.nil _)
    | invokeDynamic index' name descriptor =>
      cases h
      exact .cons (tellsCall_fixed hat rfl rfl rfl rfl nofun) (.nil _)
    | _ => cases hkept

end Insns

/-! ## 2. Decoded code -/

/-- **The calls of decoded code** are among the instructions it was cut into. -/
theorem calls_of_decodeMethod {pool : ConstantPool} {blank d : Method} {body : Bytes}
    {parts : CodeParts} {s : List (Nat × Insn)} (hread : CodeParts.read pool body = .ok parts)
    (cut : CutBy (fun offset length i => i.TellsCall parts.code pool offset length) 0 s
      parts.code.size) (small : parts.code.size ≤ maxCodeLength)
    (h : decodeMethod pool blank body = .ok d) {site : CallSite}
    (hsite : .call site ∈ d.insns) : .call site ∈ s.map Prod.snd := by
  obtain ⟨parts', scan, offsets, nodes, handlers, locals, localTypes, hread', hscan, hoffsets,
    hnodes, -, -, -, rfl⟩ := decodeMethod_eq_ok.1 h
  rw [hread] at hread'
  cases hread'
  have outline : Outline parts.code 0 s parts.code.size := cut.mono fun _ _ _ hi => hi.toTakesUp
  obtain ⟨scan', hscan', hstarts, htargets⟩ :=
    scanFrom_of_outline outline rfl small (targets_lt_of_scanFrom outline hscan) {}
  have hsame := hscan.symm.trans hscan'
  cases hsame
  rw [List.nil_append] at hstarts htargets
  obtain ⟨hplace, rfl⟩ := labelledOffsets_eq_ok.1 hoffsets
  have nodup : ((labelPlaces parts scan).filter (· ∈ referencedOffsets parts scan)).Nodup := by
    rw [labelPlaces, hstarts]
    exact List.Nodup.filter _ outline.nodup_places
  obtain ⟨offset, hoffset, hcall⟩ := exists_start hnodes hsite
  rw [hstarts] at hoffset
  obtain ⟨e, he, rfl⟩ := List.mem_map.1 hoffset
  obtain ⟨length, htells⟩ := cut.of_mem he
  have heq := htells.call_eq _ site (fun t ht => ?_) hcall
  · rw [← heq]
    exact List.mem_map_of_mem he
  · have hreferenced : t.id ∈ referencedOffsets parts scan := by
      refine List.mem_append_left _ ?_
      rw [htargets]
      exact List.mem_flatMap.2 ⟨e, he, List.mem_map_of_mem ht⟩
    have hlabelled : t.id ∈ (labelPlaces parts scan).filter (· ∈ referencedOffsets parts scan) :=
      List.mem_filter.2 ⟨hplace _ hreferenced, decide_eq_true hreferenced⟩
    obtain ⟨l, hl⟩ := exists_label hlabelled
    exact ⟨l, at?_labelTable nodup hl⟩

/-! ## 3. Assembled bodies -/

theorem eq_call_of_mem_readBack {i : Insn} {wide : Bool} {after : Label} {site : CallSite}
    (h : .call site ∈ i.readBack wide after) : i = .call site := by
  cases i with
  | jump op l =>
    simp only [Insn.readBack] at h
    split at h
    · split at h
      · simp at h
      · simp at h
    · simp at h
  | lookupSwitch default pairs => cases List.mem_singleton.1 h
  | _ => exact (List.mem_singleton.1 h).symm

namespace LaidOut

variable {m : Method} {pool : ConstantPool} {l : Layout} {a : Assembled} {site : CallSite}

/-- The calls of a layout are those of the method. -/
theorem call_of_stream (h : LaidOut m pool l) (hsite : .call site ∈ l.stream.map Prod.snd) :
    .call site ∈ m.insns := by
  rw [l.map_snd_stream] at hsite
  obtain ⟨⟨p, offset⟩, hp, hmem⟩ := List.mem_flatMap.1 hsite
  rw [h.consistent.placed_eq] at hp
  obtain ⟨before, after, hpieces, -⟩ := mem_placedFrom.1 hp
  simp only at hpieces hmem
  cases hnode : p.node with
  | insn i =>
    simp only [hnode] at hmem
    have hi := Insn.eq_call_of_mapLabels (eq_call_of_mem_readBack hmem)
    refine h.mem_insns (show p ∈ l.pieces from ?_) (hnode.trans (congrArg Node.insn hi))
    rw [hpieces]
    exact List.mem_append_right _ List.mem_cons_self
  | _ =>
    simp only [hnode] at hmem
    cases hmem

/-- The bytes of a layout are cut into instructions that tell the calls among them. -/
theorem cut_calls (h : LaidOut m pool l) (counted : l.EntriesFit)
    (form : ∀ i ∈ m.insns, i.OpcodeFits) {code : Bytes} (hcode : l.encode = .ok code) :
    CutBy (fun offset length i => i.TellsCall code.toArray pool offset length) 0 l.stream
      l.codeLength := by
  refine l.cutBy_stream hcode h.consistent counted fun p hp i hi offset bytes hbytes hat => ?_
  obtain ⟨node, -, hstand⟩ := exists_left_of_forall₂ h.stand hp
  have hnode : node = .insn i := hstand.node_eq.symm.trans hi
  refine cut_calls_encode hbytes hat (form i (h.mem_insns hp hi)) (hstand.interned i hnode).found
    (fun label => (h.consistent.offsetOf_le label).trans h.small) ?_
  rw [List.size_toArray, l.length_of_encode hcode h.consistent counted]
  exact h.small

/-- **An assembled body calls nothing but what the method calls.** -/
theorem calls_of_decode (h : LaidOut m pool l) (counted : l.EntriesFit)
    (form : ∀ i ∈ m.insns, i.OpcodeFits) (ha : a.IsOf m l pool) {blank d : Method}
    (hd : decodeMethod pool blank a.body = .ok d)
    (hsite : .call site ∈ d.insns) : .call site ∈ m.insns := by
  obtain ⟨maxStack, maxLocals, code, raws, lines, locals, localTypes, others, bytes, hcode, -, -, -,
    -, -, -, hbody⟩ := ha
  obtain ⟨parts, -, -, -, -, -, -, hread, -⟩ := decodeMethod_eq_ok.1 hd
  have hlength := l.length_of_encode hcode h.consistent counted
  have hparts : parts.code = code.toArray := by
    rw [hbody, l.codeBody_eq hcode h.consistent counted] at hread
    exact CodeParts.code_of_read (hlength ▸ h.small) hread
  have cut := h.cut_calls counted form hcode
  rw [← hparts, ← hlength, ← List.size_toArray, ← hparts] at cut
  have hsmall : parts.code.size ≤ maxCodeLength := by
    rw [hparts, List.size_toArray, hlength]
    exact h.small
  exact h.call_of_stream (calls_of_decodeMethod hread cut hsmall hd hsite)

end LaidOut

end Rewire
