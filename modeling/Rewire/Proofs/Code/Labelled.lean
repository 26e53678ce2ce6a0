import Mathlib
import Rewire.Proofs.Code.Decoded

/-!
# Labels of decoded methods

Decoding numbers the offsets that something refers to, places a label at each of them, and refers to
nothing else. This file shows

* that instructions are cut at ascending offsets (`starts_of_scanCode`), that they end inside the code
  (`inside_of_scanCode`), and that the targets that are collected are theirs (`targets_of_scanCode`)
  and lie in the code (`lt_of_branchTargets`);
* that each offset that gets a label gets one (`nodup_labelledOffsets`), and that their number is a
  32-bit number (`length_labelledOffsets`);
* that regions and records have the labels at their offsets (`labels_of_decodeHandler`,
  `labels_of_decodeLocal`);
* that a decoded method places the labels numbered from 0 to the next fresh one, in this order
  (`placedLabels_of_decode`), and refers to no others (`lt_of_mem_references`).
-/

namespace Rewire

/-! ## 1. Offsets -/

/-- Instructions are cut at ascending offsets from where the scan begins. -/
theorem starts_of_scanFrom {code : Array UInt8} {a : Nat} {found scan : CodeScan}
    (h : scanFrom code a found = .ok scan) :
    ∃ starts, scan.starts.toList = found.starts.toList ++ starts ∧ starts.Pairwise (· < ·) ∧
      ∀ n ∈ starts, a ≤ n ∧ n < code.size := by
  fun_induction scanFrom code a found with
  | case1 a found hlt ih =>
    obtain ⟨length, -, h⟩ := bind_eq_ok.1 h
    split at h
    · cases h
    · rename_i hlength
      obtain ⟨targets, -, h⟩ := bind_eq_ok.1 h
      obtain ⟨starts, hstarts, ascending, hbounds⟩ := ih length hlength targets h
      refine ⟨a :: starts, ?_, List.pairwise_cons.2 ⟨fun n hn => ?_, ascending⟩, fun n hn => ?_⟩
      · rw [hstarts]
        simp
      · have := (hbounds n hn).1
        omega
      · rcases List.mem_cons.1 hn with rfl | hn
        · exact ⟨Nat.le_refl _, hlt⟩
        · have := hbounds n hn
          omega
  | case2 a found hge =>
    cases h
    exact ⟨[], (List.append_nil _).symm, .nil, fun n hn => by cases hn⟩

theorem starts_of_scanCode {code : Array UInt8} {scan : CodeScan} (h : scanCode code = .ok scan) :
    scan.starts.toList.Pairwise (· < ·) ∧ ∀ n ∈ scan.starts.toList, n < code.size := by
  obtain ⟨starts, hstarts, ascending, hbounds⟩ := starts_of_scanFrom h
  rw [hstarts]
  exact ⟨ascending, fun n hn => (hbounds n hn).2⟩

/-! ## 2. Targets -/

section Targets

variable {code : Array UInt8} {offset n : Nat}

theorem branchTarget_eq_ok {delta : Int} (h : branchTarget code offset delta = .ok n) :
    n = asOffset ((offset : Int) + delta) ∧ n < code.size := by
  unfold branchTarget at h
  simp only at h
  split at h
  · cases h
    unfold asOffset
    omega
  · cases h

/-- The targets of an instruction lie in the code. -/
theorem lt_of_branchTargets {targets : List Nat} (h : branchTargets code offset = .ok targets) :
    ∀ n ∈ targets, n < code.size := by
  have hat : ∀ {position n : Nat}, branchTargetAt code offset position = .ok n → n < code.size := by
    intro position n hn
    obtain ⟨delta, -, hn⟩ := bind_eq_ok.1 hn
    exact (branchTarget_eq_ok hn).2
  have hall : ∀ {positions : List Nat}, positions.mapM (branchTargetAt code offset) = .ok targets →
      ∀ n ∈ targets, n < code.size := by
    intro positions h n hn
    obtain ⟨position, -, hposition⟩ := exists_left_of_forall₂ (mapM_eq_ok.1 h) hn
    exact hat hposition
  rcases targets_of_branchTargets h with rfl | ⟨format, -, h⟩
  · exact List.forall_mem_nil _
  cases format with
  | jump =>
    obtain ⟨delta, -, h⟩ := bind_eq_ok.1 h
    obtain ⟨n, hn, h⟩ := bind_eq_ok.1 h
    cases h
    exact List.forall_mem_singleton.2 (branchTarget_eq_ok hn).2
  | wideJump =>
    obtain ⟨n, hn, h⟩ := bind_eq_ok.1 h
    cases h
    exact List.forall_mem_singleton.2 (hat hn)
  | tableSwitch =>
    obtain ⟨low, -, h⟩ := bind_eq_ok.1 h
    obtain ⟨high, -, h⟩ := bind_eq_ok.1 h
    exact hall h
  | lookupSwitch =>
    obtain ⟨count, -, h⟩ := bind_eq_ok.1 h
    exact hall h
  | _ =>
    cases h
    exact List.forall_mem_nil _

/-- A scan collects the targets of the instructions it cuts. -/
theorem targets_of_scanFrom {code : Array UInt8} {a : Nat} {found scan : CodeScan}
    (h : scanFrom code a found = .ok scan) :
    ∃ starts targets, scan.starts.toList = found.starts.toList ++ starts ∧
      scan.targets.toList = found.targets.toList ++ targets.flatten ∧
      List.Forall₂ (fun n ts => branchTargets code n = .ok ts) starts targets := by
  fun_induction scanFrom code a found with
  | case1 a found hlt ih =>
    obtain ⟨length, -, h⟩ := bind_eq_ok.1 h
    split at h
    · cases h
    · rename_i hlength
      obtain ⟨ts, hts, h⟩ := bind_eq_ok.1 h
      obtain ⟨starts, targets, hstarts, htargets, hall⟩ := ih length hlength ts h
      refine ⟨a :: starts, ts :: targets, ?_, ?_, .cons hts hall⟩
      · rw [hstarts]
        simp
      · rw [htargets]
        simp
  | case2 a found hge =>
    cases h
    exact ⟨[], [], (List.append_nil _).symm, (List.append_nil _).symm, .nil⟩

theorem targets_of_scanCode {code : Array UInt8} {scan : CodeScan} (h : scanCode code = .ok scan) :
    ∃ targets, scan.targets.toList = targets.flatten ∧
      List.Forall₂ (fun n ts => branchTargets code n = .ok ts) scan.starts.toList targets := by
  obtain ⟨starts, targets, hstarts, htargets, hall⟩ := targets_of_scanFrom h
  rw [hstarts]
  exact ⟨targets, htargets, hall⟩

/-- The instructions that the scan comes to end inside the code. -/
theorem inside_of_scanFrom {found scan : CodeScan} (h : scanFrom code offset found = .ok scan) :
    ∀ n ∈ scan.starts, n ∈ found.starts ∨
      ∃ length, insnLength code n = .ok length ∧ n + length ≤ code.size := by
  fun_induction scanFrom code offset found with
  | case1 offset found hlt ih =>
    obtain ⟨length, hinsn, h⟩ := bind_eq_ok.1 h
    split at h
    · cases h
    · rename_i hlength
      obtain ⟨targets, -, h⟩ := bind_eq_ok.1 h
      intro n hn
      rcases ih length hlength targets h n hn with hn | hn
      · rcases Array.mem_push.1 hn with hn | rfl
        · exact .inl hn
        · exact .inr ⟨length, hinsn, by omega⟩
      · exact .inr hn
  | case2 =>
    cases h
    exact fun n hn => .inl hn

/-- What the scan says of each start: the instruction ends inside the code, and its targets are
    among those collected. -/
theorem inside_of_scanCode {scan : CodeScan} (h : scanCode code = .ok scan) {n : Nat}
    (hn : n ∈ scan.starts.toList) :
    ∃ length targets, insnLength code n = .ok length ∧ n + length ≤ code.size ∧
      branchTargets code n = .ok targets ∧ ∀ t ∈ targets, t ∈ scan.targets.toList := by
  obtain ⟨all, hall, hscan⟩ := targets_of_scanCode h
  obtain ⟨targets, hmem, htargets⟩ := exists_left_of_forall₂ hscan.flip hn
  rcases inside_of_scanFrom h n (Array.mem_toList_iff.1 hn) with hnone | ⟨length, hlength, hinside⟩
  · exact absurd hnone (Array.not_mem_empty n)
  · refine ⟨length, targets, hlength, hinside, htargets, fun t ht => ?_⟩
    rw [hall]
    exact List.mem_flatten_of_mem hmem ht

/-- What a scan collects lies in the code. -/
theorem lt_of_scanCode {scan : CodeScan} (h : scanCode code = .ok scan)
    (hn : n ∈ scan.targets.toList) : n < code.size := by
  obtain ⟨targets, htargets, hall⟩ := targets_of_scanCode h
  rw [htargets] at hn
  obtain ⟨ts, hts, hn⟩ := List.mem_flatten.1 hn
  obtain ⟨start, -, hbranch⟩ := exists_left_of_forall₂ hall hts
  exact lt_of_branchTargets hbranch n hn

end Targets

/-! ## 3. Offsets with labels -/

section Offsets

variable {parts : CodeParts} {scan : CodeScan} {offsets : List Nat}

theorem ascending_labelPlaces (h : scanCode parts.code = .ok scan) :
    (labelPlaces parts scan).Pairwise (· < ·) := by
  obtain ⟨ascending, hbounds⟩ := starts_of_scanCode h
  refine List.pairwise_append.2 ⟨ascending, List.pairwise_singleton _ _, fun n hn m hm => ?_⟩
  rw [List.mem_singleton.1 hm]
  exact hbounds n hn

/-- Each offset that gets a label gets one. -/
theorem nodup_labelledOffsets (h : scanCode parts.code = .ok scan)
    (hoffsets : labelledOffsets parts scan = .ok offsets) : offsets.Nodup := by
  obtain ⟨-, rfl⟩ := labelledOffsets_eq_ok.1 hoffsets
  exact ((ascending_labelPlaces h).imp Nat.ne_of_lt).filter _

/-- There is a number for each label: the end of the code gets one only if something refers to it, and
    no reference is as far as the greatest 32-bit number. -/
theorem length_labelledOffsets {pool : ConstantPool} {body : Bytes}
    (hread : CodeParts.read pool body = .ok parts) (h : scanCode parts.code = .ok scan)
    (hoffsets : labelledOffsets parts scan = .ok offsets) :
    (UInt32.ofNat (numberLabels offsets).length).toNat = offsets.length := by
  have nodup := nodup_labelledOffsets h hoffsets
  obtain ⟨hfit, hsize⟩ := CodeParts.offsetsFit_of_read hread
  obtain ⟨-, rfl⟩ := labelledOffsets_eq_ok.1 hoffsets
  have hlt : ∀ n ∈ (labelPlaces parts scan).filter (· ∈ referencedOffsets parts scan),
      n < 0xffffffff := by
    intro n hn
    rcases List.mem_append.1 (of_decide_eq_true (List.mem_filter.1 hn).2) with hn | hn
    · exact Nat.lt_of_lt_of_le (lt_of_scanCode h hn) hsize
    · exact hfit.lt hn
  have hle := (List.subperm_of_subset nodup fun n hn => List.mem_range.2 (hlt n hn)).length_le
  rw [List.length_range] at hle
  rw [numberLabels, List.length_map, List.length_zipIdx, toNat_ofNat32 hle]

end Offsets

/-! ## 4. Labels -/

theorem map_fst_numberLabels (offsets : List Nat) :
    (numberLabels offsets).map Prod.fst = (List.range offsets.length).map Label.mk := by
  unfold numberLabels
  rw [List.map_map, List.range_eq_range', ← List.zipIdx_map_snd 0 offsets, List.map_map]
  rfl

/-- The labels at offsets that all have one are those they were given. -/
theorem filterMap_at? {offsets : List Nat} (nodup : offsets.Nodup) :
    offsets.filterMap (labelTable (numberLabels offsets)).at? =
      (List.range offsets.length).map Label.mk := by
  have hsnd : ∀ f : Nat → Option Label,
      offsets.filterMap f = (numberLabels offsets).filterMap (f ∘ Prod.snd) := by
    intro f
    rw [← List.filterMap_map, map_snd_numberLabels]
  rw [hsnd, ← map_fst_numberLabels, ← List.filterMap_eq_map]
  exact List.filterMap_congr fun a ha => at?_labelTable nodup ha

/-- Offsets without a label add none. -/
theorem filterMap_at?_filter {offsets places : List Nat} {p : Nat → Bool} (nodup : offsets.Nodup)
    (hp : offsets = places.filter p) :
    places.filterMap (labelTable (numberLabels offsets)).at? =
      offsets.filterMap (labelTable (numberLabels offsets)).at? := by
  conv_rhs => rw [hp, List.filterMap_filter, ← hp]
  refine List.filterMap_congr fun n hn => ?_
  split
  · rfl
  · rename_i hout
    rw [Option.eq_none_iff_forall_ne_some]
    intro l hl
    have hmem := List.mem_map_of_mem (f := Prod.snd) (mem_of_at? nodup hl)
    rw [map_snd_numberLabels, hp] at hmem
    exact hout (List.mem_filter.1 hmem).2

/-- The labels among the nodes of instructions are those at their offsets. -/
theorem labels_of_nodesAt {parts : CodeParts} {pool : ConstantPool} {labels : LabelTable}
    {lines : Std.HashMap Nat (List UInt16)} {starts : List Nat} {nodes : List (List Node)}
    (h : List.Forall₂ (fun offset ns => nodesAt parts pool labels lines offset = .ok ns) starts
      nodes) :
    nodes.flatten.filterMap Node.label? = starts.filterMap labels.at? := by
  induction h with
  | nil => rfl
  | @cons offset ns _ _ hns _ ih =>
    obtain ⟨i, -, hns⟩ := bind_eq_ok.1 hns
    cases hns
    rw [List.flatten_cons, List.filterMap_append, ih, List.filterMap_cons, List.filterMap_append,
      List.filterMap_append, List.filterMap_map, List.filterMap_map]
    have hlines : ((lines[offset]?).getD []).filterMap (Node.label? ∘ Node.line) = [] := by
      rw [List.filterMap_eq_nil_iff]
      exact fun _ _ => rfl
    rw [hlines]
    cases labels.at? offset <;> rfl

/-- A decoded exception region has the labels at its offsets. -/
theorem labels_of_decodeHandler {pool : ConstantPool} {labels : LabelTable} {raw : RawHandler}
    {h : Handler} (hdecode : decodeHandler pool labels raw = .ok h) :
    labels.get raw.start = .ok h.start ∧ labels.get raw.stop = .ok h.stop ∧
      labels.get raw.handler = .ok h.handler := by
  have hrest : ∀ {catchType : Option String},
      (do
        let start ← labels.get raw.start
        let stop ← labels.get raw.stop
        let handler ← labels.get raw.handler
        return ({ start, stop, handler, catchType } : Handler)) = .ok h →
      labels.get raw.start = .ok h.start ∧ labels.get raw.stop = .ok h.stop ∧
        labels.get raw.handler = .ok h.handler := by
    intro catchType hdecode
    obtain ⟨start, hstart, hdecode⟩ := bind_eq_ok.1 hdecode
    obtain ⟨stop, hstop, hdecode⟩ := bind_eq_ok.1 hdecode
    obtain ⟨handler, hhandler, hdecode⟩ := bind_eq_ok.1 hdecode
    cases hdecode
    exact ⟨hstart, hstop, hhandler⟩
  unfold decodeHandler at hdecode
  split at hdecode
  · exact hrest hdecode
  · obtain ⟨catchType, -, hdecode⟩ := bind_eq_ok.1 hdecode
    exact hrest hdecode

/-- A decoded local variable record has the labels at its offsets. -/
theorem labels_of_decodeLocal {pool : ConstantPool} {labels : LabelTable} {raw : RawLocal}
    {r : LocalRecord} (hdecode : decodeLocal pool labels raw = .ok r) :
    labels.get raw.start = .ok r.start ∧ labels.get raw.stop = .ok r.stop := by
  obtain ⟨name, -, hdecode⟩ := bind_eq_ok.1 hdecode
  obtain ⟨descriptor, -, hdecode⟩ := bind_eq_ok.1 hdecode
  obtain ⟨start, hstart, hdecode⟩ := bind_eq_ok.1 hdecode
  obtain ⟨stop, hstop, hdecode⟩ := bind_eq_ok.1 hdecode
  cases hdecode
  exact ⟨hstart, hstop⟩

section Methods

variable {pool : ConstantPool} {blank m : Method} {body : Bytes}

/-- **A decoded method places the labels it numbers**, in the order of the offsets. -/
theorem placedLabels_of_decode (h : decodeMethod pool blank body = .ok m) :
    m.placedLabels = (List.range m.nextLabel.toNat).map Label.mk := by
  obtain ⟨parts, scan, offsets, nodes, handlers, locals, localTypes, hread, hscan, hoffsets, hnodes, -,
    -, -, rfl⟩ := decodeMethod_eq_ok.1 h
  have nodup := nodup_labelledOffsets hscan hoffsets
  obtain ⟨-, hfilter⟩ := labelledOffsets_eq_ok.1 hoffsets
  have hplaced : (nodes.flatten ++ ((labelTable (numberLabels offsets)).at?
      parts.code.size).toList.map Node.label).filterMap Node.label? =
        (labelPlaces parts scan).filterMap (labelTable (numberLabels offsets)).at? := by
    rw [List.filterMap_append, labels_of_nodesAt (mapM_eq_ok.1 hnodes), labelPlaces,
      List.filterMap_append, List.filterMap_cons, List.filterMap_nil]
    cases (labelTable (numberLabels offsets)).at? parts.code.size <;> rfl
  show (nodes.flatten ++ _).toArray.toList.filterMap Node.label? =
    (List.range (UInt32.ofNat (numberLabels offsets).length).toNat).map Label.mk
  rw [List.toList_toArray, hplaced, filterMap_at?_filter nodup hfilter, filterMap_at? nodup,
    length_labelledOffsets hread hscan hoffsets]

/-- A decoded method refers to labels it numbers. -/
theorem lt_of_mem_references (h : decodeMethod pool blank body = .ok m) {l : Label}
    (hl : l ∈ m.references) : l.id < m.nextLabel.toNat := by
  obtain ⟨parts, scan, offsets, nodes, handlers, locals, localTypes, hread, hscan, hoffsets, hnodes,
    hhandlers, hlocals, hlocalTypes, rfl⟩ := decodeMethod_eq_ok.1 h
  have nodup := nodup_labelledOffsets hscan hoffsets
  show l.id < (UInt32.ofNat (numberLabels offsets).length).toNat
  rw [length_labelledOffsets hread hscan hoffsets]
  have hat : ∀ {n : Nat} {l : Label}, (labelTable (numberLabels offsets)).at? n = some l →
      l.id < offsets.length := fun hn =>
    (List.getElem?_eq_some_iff.1 (mem_numberLabels.1 (mem_of_at? nodup hn))).1
  have hget : ∀ {n : Nat} {l : Label}, (labelTable (numberLabels offsets)).get n = .ok l →
      l.id < offsets.length := fun hn => hat (orFail_eq_ok.1 hn)
  have hrecord : ∀ {raws : List RawLocal} {records : List LocalRecord},
      raws.mapM (decodeLocal pool (labelTable (numberLabels offsets))) = .ok records →
        ∀ r ∈ records, ∀ l ∈ [r.start, r.stop], l.id < offsets.length := by
    intro raws records hrecords r hr l hl
    obtain ⟨raw, -, hdecode⟩ := exists_left_of_forall₂ (mapM_eq_ok.1 hrecords) hr
    obtain ⟨hstart, hstop⟩ := labels_of_decodeLocal hdecode
    rcases List.mem_cons.1 hl with rfl | hl
    · exact hget hstart
    · rw [List.mem_singleton.1 hl]
      exact hget hstop
  simp only [Method.references, referencedLabels, Method.allLocals, List.mem_append,
    List.mem_flatMap] at hl
  rcases hl with (⟨node, hnode, hl⟩ | ⟨handler, hhandler, hl⟩) | ⟨r, hr | hr, hl⟩
  · cases node with
    | insn i =>
      have hi : i ∈ (nodes.flatten ++ ((labelTable (numberLabels offsets)).at?
          parts.code.size).toList.map Node.label).filterMap Node.insn? :=
        List.mem_filterMap.2 ⟨.insn i, by simpa using hnode, rfl⟩
      obtain ⟨offset, -, hdecode⟩ := exists_start hnodes hi
      obtain ⟨n, hn⟩ := label_of_decode hdecode hl
      exact hat hn
    | _ => cases hl
  · obtain ⟨raw, -, hdecode⟩ := exists_left_of_forall₂ (mapM_eq_ok.1 hhandlers) hhandler
    obtain ⟨hstart, hstop, htarget⟩ := labels_of_decodeHandler hdecode
    simp only [List.mem_cons, List.not_mem_nil, or_false] at hl
    rcases hl with rfl | rfl | rfl
    · exact hget hstart
    · exact hget hstop
    · exact hget htarget
  · exact hrecord hlocals r hr l hl
  · exact hrecord hlocalTypes r hr l hl

end Methods

end Rewire
