import Mathlib
import Rewire.Proofs.Code.Labelled

/-!
# What decoded code jumps to

The offsets that a scan collects are the ones whose labels the decoded instructions refer to. This
file shows

* that an instruction refers to the labels of the offsets it may jump to (`labels_of_targets`);
* that a decoded method refers to the labels of those offsets and of its handlers
  (`exists_target_of_decode`, `exists_handler_of_decode`);
* that a label inside the code is placed before an instruction (`insn_after_label`), so jumps lead to
  instructions (`jumpsLand_of_decode`).
-/

namespace Rewire

/-! ## 1. One instruction -/

section Insns

variable {code : Array UInt8} {pool : ConstantPool} {labels : LabelTable} {offset n : Nat}
  {i : Insn}

theorem label_of_branchTarget {delta : Int} {l : Label}
    (h : branchTarget code offset delta = .ok n) (hl : jumpLabel labels offset delta = .ok l) :
    labels.at? n = some l := by
  rw [(branchTarget_eq_ok h).1]
  exact orFail_eq_ok.1 hl

theorem label_of_branchTargetAt {position : Nat} {l : Label}
    (h : branchTargetAt code offset position = .ok n)
    (hl : jumpLabelAt code labels offset position = .ok l) : labels.at? n = some l := by
  obtain ⟨delta, hdelta, h⟩ := bind_eq_ok.1 h
  obtain ⟨delta', hdelta', hl⟩ := bind_eq_ok.1 hl
  rw [hdelta] at hdelta'
  cases hdelta'
  exact label_of_branchTarget h hl

/-- The targets of a switch have the labels at the same positions. -/
theorem labels_of_switch {positions targets : List Nat} {ls : List Label}
    (h : positions.mapM (branchTargetAt code offset) = .ok targets)
    (hl : List.Forall₂ (fun position l => jumpLabelAt code labels offset position = .ok l)
      positions ls) : List.Forall₂ (fun n l => labels.at? n = some l) targets ls := by
  rw [mapM_eq_ok] at h
  exact forall₂_comp h.flip hl fun _ _ _ htarget hlabel => label_of_branchTargetAt htarget hlabel

/-- **A decoded instruction refers to the labels of the offsets it may jump to.** -/
theorem labels_of_targets {targets : List Nat} (h : decodeInsn code pool labels offset = .ok i)
    (htargets : branchTargets code offset = .ok targets) :
    List.Forall₂ (fun n l => labels.at? n = some l) targets i.targets := by
  obtain ⟨op, format, -, hformat, hi⟩ := decodedAs_of_decode h
  rw [branchTargets_eq hformat] at htargets
  cases hi with
  | jump hdelta htarget =>
    obtain ⟨delta, hdelta', htargets⟩ := bind_eq_ok.1 htargets
    rw [hdelta] at hdelta'
    cases hdelta'
    obtain ⟨n, hn, htargets⟩ := bind_eq_ok.1 htargets
    cases htargets
    exact .cons (label_of_branchTarget hn htarget) .nil
  | wideJump htarget =>
    obtain ⟨n, hn, htargets⟩ := bind_eq_ok.1 htargets
    cases htargets
    exact .cons (label_of_branchTargetAt hn htarget) .nil
  | tableSwitch hlow hhigh hcount hdefault htargets' =>
    rw [Format.targets, hlow, hhigh] at htargets
    rw [(tableCount?_eq_some.1 hcount).1] at htargets'
    exact labels_of_switch htargets (.cons hdefault (mapM_eq_ok.1 htargets'))
  | lookupSwitch hcount hdefault hpairs =>
    rw [Format.targets, hcount] at htargets
    exact labels_of_switch htargets (.cons hdefault (List.forall₂_map_right_iff.2 hpairs))
  | invokeDynamic hcall =>
    obtain ⟨name, descriptor, rfl, -⟩ := computedCall_eq hcall
    cases htargets
    exact .nil
  | _ =>
    cases htargets
    exact .nil

end Insns

/-! ## 2. Landings -/

/-- Skipping markers stops at the next instruction. -/
theorem skipMarkers_le_of_insn {nodes : Array Node} {j k : Nat} {i : Insn} (hjk : j ≤ k)
    (hk : nodes[k]? = some (.insn i)) : skipMarkers nodes j ≤ k := by
  fun_induction skipMarkers nodes j with
  | case1 j hlt hmarker ih =>
    refine ih (Nat.lt_of_le_of_ne hjk ?_)
    rintro rfl
    rw [Array.getElem?_eq_getElem hlt] at hk
    rw [Option.some.inj hk] at hmarker
    cases hmarker
  | case2 => exact hjk
  | case3 j hout =>
    have hlt := (Array.getElem?_eq_some_iff.1 hk).1
    omega

/-- A label that is placed before an instruction leads to one. -/
theorem Method.isSome_landing? {m : Method} {l : Label} {before after : List Node} {i : Insn}
    (h : m.nodes.toList = before ++ .label l :: after) (hi : .insn i ∈ after) :
    (m.landing? l).isSome := by
  obtain ⟨n, hn⟩ := List.mem_iff_getElem?.1 hi
  have hinsn : m.nodes[before.length + 1 + n]? = some (.insn i) := by
    rw [← Array.getElem?_toList, h, List.getElem?_append_right (by omega),
      show before.length + 1 + n - before.length = n + 1 by omega, List.getElem?_cons_succ, hn]
  have hlabel : m.nodes[before.length]? = some (.label l) := by
    rw [← Array.getElem?_toList, h, List.getElem?_append_right (Nat.le_refl _), Nat.sub_self]
    rfl
  -- the label may be placed earlier too, and then leads to the same instruction or one before it
  obtain ⟨j, hj, hle⟩ : ∃ j, m.labelPosition? l = some j ∧ j ≤ before.length := by
    cases hj : m.labelPosition? l with
    | none =>
      have hnone := Array.findIdx?_eq_none_iff.1 hj _ (Array.mem_of_getElem? hlabel)
      simp at hnone
    | some j =>
      refine ⟨j, rfl, Nat.le_of_not_lt fun hlt => ?_⟩
      obtain ⟨_, -, hfirst⟩ := Array.findIdx?_eq_some_iff_getElem.1 hj
      have hne := hfirst _ hlt
      rw [(Array.getElem?_eq_some_iff.1 hlabel).2] at hne
      simp at hne
  have hlt : skipMarkers m.nodes j < m.nodes.size :=
    Nat.lt_of_le_of_lt (skipMarkers_le_of_insn (by omega) hinsn)
      (Array.getElem?_eq_some_iff.1 hinsn).1
  rw [landing?, hj]
  simp [hlt]

/-! ## 3. Methods -/

section Methods

variable {pool : ConstantPool} {blank m : Method} {body : Bytes} {parts : CodeParts}
  {scan : CodeScan} {o : CodeOrigin} {l : Label} {n : Nat}

theorem exists_origin_of_decode (h : decodeMethod pool blank body = .ok m)
    (hread : CodeParts.read pool body = .ok parts) :
    ∃ o, m.origin = some o ∧ o.attributes = parts.others ∧ o.codeLength = parts.code.size := by
  obtain ⟨parts', scan, offsets, nodes, handlers, locals, localTypes, hread', -, -, -, -, -, -, rfl⟩ :=
    decodeMethod_eq_ok.1 h
  cases hread.symm.trans hread'
  exact ⟨_, rfl, rfl, rfl⟩

/-- A label of a decoded method is found at its offset. -/
theorem at?_of_decode (h : decodeMethod pool blank body = .ok m) (ho : m.origin = some o)
    (hl : (l, n) ∈ o.labelOffsets) : (labelTable o.labelOffsets).at? n = some l := by
  obtain ⟨parts, scan, offsets, nodes, handlers, locals, localTypes, -, hscan, hoffsets, -, -, -, -,
    rfl⟩ := decodeMethod_eq_ok.1 h
  cases ho
  exact at?_labelTable (nodup_labelledOffsets hscan hoffsets) hl

/-- **The instructions of a decoded method** refer to the labels of offsets that the scan
    collects. -/
theorem exists_target_of_decode (h : decodeMethod pool blank body = .ok m)
    (hread : CodeParts.read pool body = .ok parts) (hscan : scanCode parts.code = .ok scan)
    (ho : m.origin = some o) {i : Insn} (hi : i ∈ m.insns) (hl : l ∈ i.targets) :
    ∃ n ∈ scan.targets.toList, n < o.codeLength ∧ (l, n) ∈ o.labelOffsets := by
  obtain ⟨parts', scan', offsets, nodes, handlers, locals, localTypes, hread', hscan', hoffsets,
    hnodes, -, -, -, rfl⟩ := decodeMethod_eq_ok.1 h
  cases hread.symm.trans hread'
  cases hscan.symm.trans hscan'
  cases ho
  obtain ⟨start, hstart, hdecode⟩ := exists_start hnodes hi
  obtain ⟨targets, htargets, hall⟩ := targets_of_scanCode hscan
  obtain ⟨ts, hts, hbranch⟩ := exists_left_of_forall₂ hall.flip hstart
  obtain ⟨n, hn, hat⟩ := exists_left_of_forall₂ (labels_of_targets hdecode hbranch) hl
  refine ⟨n, ?_, lt_of_branchTargets hbranch n hn,
    mem_of_at? (nodup_labelledOffsets hscan hoffsets) hat⟩
  rw [htargets]
  exact List.mem_flatten_of_mem hts hn

/-- The handlers of a decoded method are entered at the labels of their offsets. -/
theorem exists_handler_of_decode (h : decodeMethod pool blank body = .ok m)
    (hread : CodeParts.read pool body = .ok parts) (ho : m.origin = some o) {handler : Handler}
    (hhandler : handler ∈ m.handlers) :
    ∃ raw ∈ parts.handlers, (handler.handler, raw.handler) ∈ o.labelOffsets := by
  obtain ⟨parts', scan, offsets, nodes, handlers, locals, localTypes, hread', hscan, hoffsets, -,
    hhandlers, -, -, rfl⟩ := decodeMethod_eq_ok.1 h
  cases hread.symm.trans hread'
  cases ho
  obtain ⟨raw, hraw, hdecode⟩ := exists_left_of_forall₂ (mapM_eq_ok.1 hhandlers) hhandler
  obtain ⟨-, -, hget⟩ := labels_of_decodeHandler hdecode
  exact ⟨raw, hraw, mem_of_at? (nodup_labelledOffsets hscan hoffsets) (orFail_eq_ok.1 hget)⟩

/-- **A label inside the code** is placed before an instruction. -/
theorem insn_after_label (h : decodeMethod pool blank body = .ok m) (ho : m.origin = some o)
    (hl : (l, n) ∈ o.labelOffsets) (hlt : n < o.codeLength) :
    ∃ before after, m.nodes.toList = before ++ .label l :: after ∧ ∃ i, .insn i ∈ after := by
  have hat := at?_of_decode h ho hl
  obtain ⟨parts, scan, offsets, nodes, handlers, locals, localTypes, -, hscan, hoffsets, hnodes, -,
    -, -, rfl⟩ := decodeMethod_eq_ok.1 h
  cases ho
  have hn : n ∈ labelPlaces parts scan := by
    have hmem := List.mem_map_of_mem (f := Prod.snd) hl
    rw [show (parts.origin offsets).labelOffsets = numberLabels offsets from rfl,
      map_snd_numberLabels, (labelledOffsets_eq_ok.1 hoffsets).2] at hmem
    exact (List.mem_filter.1 hmem).1
  have hstart : n ∈ scan.starts.toList := by
    rcases List.mem_append.1 hn with hn | hn
    · exact hn
    · exact absurd (List.mem_singleton.1 hn) (Nat.ne_of_lt hlt)
  obtain ⟨chunk, hchunk, hnode⟩ := exists_left_of_forall₂ (mapM_eq_ok.1 hnodes).flip hstart
  obtain ⟨before, after, rfl⟩ := List.append_of_mem hchunk
  obtain ⟨i, -, hnode⟩ := bind_eq_ok.1 hnode
  cases hnode
  simp only [show (labelTable (numberLabels offsets)).at? n = some l from hat]
  generalize ((labelTable (numberLabels offsets)).at? parts.code.size).toList.map Node.label = atEnd
  refine ⟨before.flatten, (((lineTable parts.lines)[n]?).getD []).map .line ++ [.insn i] ++
    (after.flatten ++ atEnd), ?_, i, by simp⟩
  simp

/-- **The jumps of a decoded method** lead to instructions. -/
theorem jumpsLand_of_decode (h : decodeMethod pool blank body = .ok m) : m.JumpsLand := by
  intro i hi l hl
  obtain ⟨parts, scan, offsets, nodes, handlers, locals, localTypes, hread, hscan, -, -, -, -, -,
    hm⟩ := decodeMethod_eq_ok.1 h
  have ho : m.origin = some (parts.origin offsets) := by rw [hm]
  obtain ⟨n, -, hlt, hn⟩ := exists_target_of_decode h hread hscan ho hi hl
  obtain ⟨before, after, hnodes, j, hj⟩ := insn_after_label h ho hn hlt
  exact Method.isSome_landing? hnodes hj

end Methods

end Rewire
