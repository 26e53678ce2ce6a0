import Mathlib
import Rewire.Proofs.Code.Labels
import Rewire.Proofs.Code.Parts
import Rewire.Proofs.Code.Stream

/-!
# Decoding code that is cut into instructions

A method whose code is cut into instructions is decoded as those instructions. This file fixes

* the steps of decoding that have to succeed (`decodeMethod_eq_ok`);
* code with offsets in place of labels (`CodeByOffset`), and a decoded method in that form
  (`Method.byOffset`);
* what the entries of tables denote (`RawHandler.Denotes`, `RawLocal.Denotes`);
* the nodes of code that is cut into instructions (`nodesByOffset`), and that decoding gives them
  (`decodeMethod_of_cut`).
-/

namespace Rewire

/-! ## 1. Steps -/

/-- The origin of code that was taken apart, with labels at the given offsets. -/
def CodeParts.origin (parts : CodeParts) (offsets : List Nat) : CodeOrigin where
  maxStack := parts.maxStack
  maxLocals := parts.maxLocals
  codeLength := parts.code.size
  labelOffsets := numberLabels offsets
  attributes := parts.others

/-- Decoding succeeds exactly when each of its steps does. -/
theorem decodeMethod_eq_ok {pool : ConstantPool} {blank m : Method} {body : Bytes} :
    decodeMethod pool blank body = .ok m ↔
      ∃ parts scan offsets nodes handlers locals localTypes,
        CodeParts.read pool body = .ok parts ∧ scanCode parts.code = .ok scan ∧
        labelledOffsets parts scan = .ok offsets ∧
        scan.starts.toList.mapM (nodesAt parts pool (labelTable (numberLabels offsets))
          (lineTable parts.lines)) = .ok nodes ∧
        parts.handlers.mapM (decodeHandler pool (labelTable (numberLabels offsets))) =
          .ok handlers ∧
        parts.locals.mapM (decodeLocal pool (labelTable (numberLabels offsets))) = .ok locals ∧
        parts.localTypes.mapM (decodeLocal pool (labelTable (numberLabels offsets))) =
          .ok localTypes ∧
        m = { blank with
          nodes := (nodes.flatten ++ ((labelTable (numberLabels offsets)).at?
            parts.code.size).toList.map Node.label).toArray
          handlers, locals, localTypes
          nextLabel := UInt32.ofNat (numberLabels offsets).length
          origin := some (parts.origin offsets) } := by
  unfold decodeMethod
  simp only [bind_eq_ok, pure_eq_ok]
  constructor
  · rintro ⟨parts, hparts, scan, hscan, offsets, hoffsets, nodes, hnodes, handlers, hhandlers,
      locals, hlocals, localTypes, hlocalTypes, rfl⟩
    exact ⟨parts, scan, offsets, nodes, handlers, locals, localTypes, hparts, hscan, hoffsets,
      hnodes, hhandlers, hlocals, hlocalTypes, rfl⟩
  · rintro ⟨parts, scan, offsets, nodes, handlers, locals, localTypes, hparts, hscan, hoffsets,
      hnodes, hhandlers, hlocals, hlocalTypes, rfl⟩
    exact ⟨parts, hparts, scan, hscan, offsets, hoffsets, nodes, hnodes, handlers, hhandlers,
      locals, hlocals, localTypes, hlocalTypes, rfl⟩

/-- Every instruction of decoded code stands at one of the starts. -/
theorem exists_start {parts : CodeParts} {pool : ConstantPool} {labels : LabelTable}
    {lines : Std.HashMap Nat (List UInt16)} {starts : List Nat} {nodes : List (List Node)}
    {atEnd : List Label} (h : starts.mapM (nodesAt parts pool labels lines) = .ok nodes) {i : Insn}
    (hi : i ∈ (nodes.flatten ++ atEnd.map Node.label).filterMap Node.insn?) :
    ∃ offset ∈ starts, decodeInsn parts.code pool labels offset = .ok i := by
  obtain ⟨node, hnode, hinsn⟩ := List.mem_filterMap.1 hi
  cases node with
  | insn i' =>
    cases hinsn
    rcases List.mem_append.1 hnode with hnode | hnode
    · obtain ⟨chunk, hchunk, hmem⟩ := List.mem_flatten.1 hnode
      obtain ⟨offset, hoffset, hat⟩ := exists_left_of_forall₂ (mapM_eq_ok.1 h) hchunk
      obtain ⟨i', hi', hat⟩ := bind_eq_ok.1 hat
      cases hat
      rcases List.mem_append.1 hmem with hmem | hmem
      · rcases List.mem_append.1 hmem with hmem | hmem
        · obtain ⟨l, -, hl⟩ := List.mem_map.1 hmem
          cases hl
        · obtain ⟨l, -, hl⟩ := List.mem_map.1 hmem
          cases hl
      · cases List.mem_singleton.1 hmem
        exact ⟨offset, hoffset, during_eq_ok.1 hi'⟩
    · obtain ⟨l, -, hl⟩ := List.mem_map.1 hnode
      cases hl
  | _ => cases hinsn

/-! ## 2. Labels and offsets -/

namespace Insn

theorem mapLabels_mapLabels (f g : Label → Label) (i : Insn) :
    (i.mapLabels f).mapLabels g = i.mapLabels (g ∘ f) := by
  cases i <;> simp [mapLabels, Function.comp_def]

/-- Replacing labels by themselves changes nothing. -/
theorem mapLabels_of_fixed {f : Label → Label} {i : Insn} (h : ∀ t ∈ i.targets, f t = t) :
    i.mapLabels f = i := by
  cases i with
  | jump op l => rw [mapLabels, h l List.mem_cons_self]
  | tableSwitch low high default targets =>
    rw [mapLabels, h default List.mem_cons_self,
      List.map_congr_left fun t ht => h t (List.mem_cons_of_mem _ ht), List.map_id']
  | lookupSwitch default pairs =>
    rw [mapLabels, h default List.mem_cons_self]
    have hpairs : pairs.map (fun x : Int32 × Label => (x.1, f x.2)) = pairs.map id :=
      List.map_congr_left fun pair hp => Prod.ext rfl
        (h pair.2 (List.mem_cons_of_mem _ (List.mem_map_of_mem hp)))
    exact congrArg _ (hpairs.trans (List.map_id _))
  | _ => rfl

end Insn

/-- The node with its labels replaced. -/
def Node.mapLabels (f : Label → Label) : Node → Node
  | label l => label (f l)
  | line number => line number
  | insn i => insn (i.mapLabels f)

/-- The exception region with its labels replaced. -/
def Handler.mapLabels (f : Label → Label) (h : Handler) : Handler :=
  { h with start := f h.start, stop := f h.stop, handler := f h.handler }

/-- The local variable record with its labels replaced. -/
def LocalRecord.mapLabels (f : Label → Label) (r : LocalRecord) : LocalRecord :=
  { r with start := f r.start, stop := f r.stop }

/-- Code with offsets for labels. -/
structure CodeByOffset where
  nodes : List Node
  handlers : List Handler
  locals : List LocalRecord
  localTypes : List LocalRecord

/-- The code of a method that was read, with offsets for labels. -/
def Method.byOffset (m : Method) : CodeByOffset :=
  let offset (l : Label) : Label := ⟨(m.origin.map (CodeOrigin.offsetOf · l)).getD 0⟩
  { nodes := m.nodes.toList.map (Node.mapLabels offset)
    handlers := m.handlers.map (Handler.mapLabels offset)
    locals := m.locals.map (LocalRecord.mapLabels offset)
    localTypes := m.localTypes.map (LocalRecord.mapLabels offset) }

/-! ## 3. Tables -/

/-- Whether an entry of a table denotes an exception region by offsets. -/
structure RawHandler.Denotes (pool : ConstantPool) (raw : RawHandler) (h : Handler) : Prop where
  start : h.start = ⟨raw.start⟩
  stop : h.stop = ⟨raw.stop⟩
  handler : h.handler = ⟨raw.handler⟩
  catchType : raw.catchType = 0 ∧ h.catchType = none ∨
    raw.catchType ≠ 0 ∧ ∃ name, h.catchType = some name ∧ pool.className raw.catchType = .ok name

/-- Whether an entry of a table denotes a local variable record by offsets. -/
structure RawLocal.Denotes (pool : ConstantPool) (raw : RawLocal) (r : LocalRecord) : Prop where
  slot : r.slot = raw.slot
  name : pool.text raw.name = .ok r.name
  descriptor : pool.text raw.descriptor = .ok r.descriptor
  start : r.start = ⟨raw.start⟩
  stop : r.stop = ⟨raw.stop⟩

section Tables

variable {pool : ConstantPool} {labels : LabelTable} {place back : Label → Label}

theorem get_eq_ok_of_at? {n : Nat} {l : Label} (h : labels.at? n = some l) :
    labels.get n = .ok l := by
  rw [LabelTable.get, h]
  rfl

/-- Where the offsets of an exception region have labels, it is decoded. -/
theorem decodeHandler_of_denotes {raw : RawHandler} {h : Handler} (denotes : raw.Denotes pool h)
    (hplace : ∀ n, n ∈ [raw.start, raw.stop, raw.handler] → labels.at? n = some (place ⟨n⟩)) :
    decodeHandler pool labels raw = .ok (h.mapLabels place) := by
  obtain ⟨hstart, hstop, hhandler, hcatch⟩ := denotes
  have h₁ := get_eq_ok_of_at? (hplace raw.start (by simp))
  have h₂ := get_eq_ok_of_at? (hplace raw.stop (by simp))
  have h₃ := get_eq_ok_of_at? (hplace raw.handler (by simp))
  obtain ⟨start, stop, handler, catchType⟩ := h
  simp only at hstart hstop hhandler hcatch
  subst hstart hstop hhandler
  unfold decodeHandler
  rcases hcatch with ⟨hzero, rfl⟩ | ⟨hnonzero, name, rfl, hname⟩
  · rw [if_pos hzero]
    exact bind_eq_ok.2 ⟨_, rfl, bind_eq_ok.2 ⟨_, h₁, bind_eq_ok.2 ⟨_, h₂, bind_eq_ok.2 ⟨_, h₃, rfl⟩⟩⟩⟩
  · rw [if_neg hnonzero]
    exact bind_eq_ok.2 ⟨_, map_eq_ok.2 ⟨_, during_eq_ok.2 hname, rfl⟩, bind_eq_ok.2 ⟨_, h₁,
      bind_eq_ok.2 ⟨_, h₂, bind_eq_ok.2 ⟨_, h₃, rfl⟩⟩⟩⟩

/-- Where the offsets of a local variable record have labels, it is decoded. -/
theorem decodeLocal_of_denotes {raw : RawLocal} {r : LocalRecord} (denotes : raw.Denotes pool r)
    (hplace : ∀ n, n ∈ [raw.start, raw.stop] → labels.at? n = some (place ⟨n⟩)) :
    decodeLocal pool labels raw = .ok (r.mapLabels place) := by
  obtain ⟨hslot, hname, hdescriptor, hstart, hstop⟩ := denotes
  have h₁ := get_eq_ok_of_at? (hplace raw.start (by simp))
  have h₂ := get_eq_ok_of_at? (hplace raw.stop (by simp))
  obtain ⟨slot, name, descriptor, start, stop⟩ := r
  simp only at hslot hname hdescriptor hstart hstop
  subst hslot hstart hstop
  exact bind_eq_ok.2 ⟨_, during_eq_ok.2 hname, bind_eq_ok.2 ⟨_, during_eq_ok.2 hdescriptor,
    bind_eq_ok.2 ⟨_, h₁, bind_eq_ok.2 ⟨_, h₂, rfl⟩⟩⟩⟩

end Tables

/-! ## 4. Nodes -/

/-- The label at an offset, if it is referred to. -/
def labelAt (referenced : List Nat) (n : Nat) : List Node :=
  if n ∈ referenced then [.label ⟨n⟩] else []

/-- The source lines that start at an offset. -/
def linesAt (lines : List (Nat × UInt16)) (n : Nat) : List UInt16 :=
  (lines.filter fun line => line.1 = n).map Prod.snd

/-- The nodes of instructions with their offsets: at each offset its label, its source lines, the
    instruction, and the label of the end. -/
def nodesByOffset (s : List (Nat × Insn)) (lines : List (Nat × UInt16)) (referenced : List Nat)
    (stop : Nat) : List Node :=
  s.flatMap (fun e => labelAt referenced e.1 ++ (linesAt lines e.1).map .line ++ [.insn e.2]) ++
    labelAt referenced stop

theorem getD_lineTable (lines : List (Nat × UInt16)) (n : Nat) :
    ((lineTable lines)[n]?).getD [] = linesAt lines n := by
  unfold lineTable linesAt
  induction lines with
  | nil => simp
  | cons line rest ih =>
    rw [List.foldr_cons, Std.HashMap.getElem?_alter]
    by_cases h : line.1 = n
    · rw [if_pos (beq_iff_eq.2 h), List.filter_cons_of_pos (by simpa using h), List.map_cons, ← ih,
        h]
      rfl
    · rw [if_neg (by simpa using h), List.filter_cons_of_neg (by simpa using h), ← ih]

/-- The nodes at an offset that an instruction is decoded from. -/
theorem nodesAt_of_decodeInsn {parts : CodeParts} {pool : ConstantPool} {offsets : List Nat}
    {lines : List (Nat × UInt16)} {n : Nat} {i : Insn} (nodup : offsets.Nodup)
    (h : decodeInsn parts.code pool (labelTable (numberLabels offsets)) n = .ok i) :
    nodesAt parts pool (labelTable (numberLabels offsets)) (lineTable lines) n =
      .ok (((offsets.findIdx? (· = n)).map Label.mk).toList.map .label ++
        (linesAt lines n).map .line ++ [.insn i]) := by
  refine bind_eq_ok.2 ⟨i, during_eq_ok.2 h, ?_⟩
  rw [at?_numberLabels nodup, getD_lineTable]
  rfl

/-! ## 5. Methods -/

/-- Labels at offsets that stand for the offsets: each is found at its offset, nothing is found
    elsewhere, and the offsets are told again. -/
structure Labelling (labels : LabelTable) (back : Label → Label) (referenced : List Nat)
    (place : Label → Label) : Prop where
  found : ∀ n ∈ referenced, labels.at? n = some (place ⟨n⟩)
  absent : ∀ n, n ∉ referenced → labels.at? n = none
  undone : ∀ n ∈ referenced, back (place ⟨n⟩) = ⟨n⟩

namespace Labelling

variable {labels : LabelTable} {place back : Label → Label} {referenced : List Nat}

theorem labelAt_eq (h : Labelling labels back referenced place) (n : Nat) :
    ((labels.at? n).toList.map Node.label).map (Node.mapLabels back) = labelAt referenced n := by
  unfold labelAt
  by_cases hn : n ∈ referenced
  · rw [h.found n hn, if_pos hn]
    show [Node.label (back (place ⟨n⟩))] = _
    rw [h.undone n hn]
  · rw [h.absent n hn, if_neg hn]
    rfl

theorem insn_eq (h : Labelling labels back referenced place) {i : Insn}
    (hi : ∀ t ∈ i.targets, t.id ∈ referenced) : (i.mapLabels place).mapLabels back = i := by
  rw [Insn.mapLabels_mapLabels]
  exact Insn.mapLabels_of_fixed fun t ht => h.undone t.id (hi t ht)

theorem handlers_eq (h : Labelling labels back referenced place) {pool : ConstantPool}
    {raws : List RawHandler} {handlers : List Handler}
    (denote : List.Forall₂ (RawHandler.Denotes pool) raws handlers)
    (hraws : ∀ n ∈ raws.flatMap fun r => [r.start, r.stop, r.handler], n ∈ referenced) :
    ∃ decoded, raws.mapM (decodeHandler pool labels) = .ok decoded ∧
      decoded.map (Handler.mapLabels back) = handlers := by
  induction denote with
  | nil => exact ⟨[], rfl, rfl⟩
  | @cons raw handler rest more hraw _ ih =>
    rw [List.flatMap_cons] at hraws
    obtain ⟨decoded, hdecoded, hback⟩ := ih fun n hn => hraws n (List.mem_append_right _ hn)
    have hhere : ∀ n ∈ [raw.start, raw.stop, raw.handler], n ∈ referenced :=
      fun n hn => hraws n (List.mem_append_left _ hn)
    have hfirst := decodeHandler_of_denotes hraw fun n hn => h.found n (hhere n hn)
    refine ⟨handler.mapLabels place :: decoded, ?_, ?_⟩
    · rw [List.mapM_cons]
      exact bind_eq_ok.2 ⟨_, hfirst, bind_eq_ok.2 ⟨_, hdecoded, rfl⟩⟩
    · obtain ⟨start, stop, target, catchType⟩ := handler
      obtain ⟨hstart, hstop, htarget, -⟩ := hraw
      simp only at hstart hstop htarget
      subst hstart hstop htarget
      rw [List.map_cons, hback]
      simp only [Handler.mapLabels, h.undone raw.start (hhere _ (by simp)),
        h.undone raw.stop (hhere _ (by simp)), h.undone raw.handler (hhere _ (by simp))]

theorem locals_eq (h : Labelling labels back referenced place) {pool : ConstantPool}
    {raws : List RawLocal} {records : List LocalRecord}
    (denote : List.Forall₂ (RawLocal.Denotes pool) raws records)
    (hraws : ∀ n ∈ raws.flatMap fun r => [r.start, r.stop], n ∈ referenced) :
    ∃ decoded, raws.mapM (decodeLocal pool labels) = .ok decoded ∧
      decoded.map (LocalRecord.mapLabels back) = records := by
  induction denote with
  | nil => exact ⟨[], rfl, rfl⟩
  | @cons raw record rest more hraw _ ih =>
    rw [List.flatMap_cons] at hraws
    obtain ⟨decoded, hdecoded, hback⟩ := ih fun n hn => hraws n (List.mem_append_right _ hn)
    have hhere : ∀ n ∈ [raw.start, raw.stop], n ∈ referenced :=
      fun n hn => hraws n (List.mem_append_left _ hn)
    have hfirst := decodeLocal_of_denotes hraw fun n hn => h.found n (hhere n hn)
    refine ⟨record.mapLabels place :: decoded, ?_, ?_⟩
    · rw [List.mapM_cons]
      exact bind_eq_ok.2 ⟨_, hfirst, bind_eq_ok.2 ⟨_, hdecoded, rfl⟩⟩
    · obtain ⟨slot, name, descriptor, start, stop⟩ := record
      obtain ⟨-, -, -, hstart, hstop⟩ := hraw
      simp only at hstart hstop
      subst hstart hstop
      rw [List.map_cons, hback]
      simp only [LocalRecord.mapLabels, h.undone raw.start (hhere _ (by simp)),
        h.undone raw.stop (hhere _ (by simp))]

/-- The instructions of cut code are decoded with their labels and source lines. -/
theorem nodes_eq (h : Labelling labels back referenced place) {parts : CodeParts}
    {pool : ConstantPool} {a b : Nat} {s : List (Nat × Insn)} (cut : Cut parts.code pool a s b)
    (htargets : ∀ n ∈ targetOffsets s, n ∈ referenced) :
    ∃ nodes, (s.map Prod.fst).mapM (nodesAt parts pool labels (lineTable parts.lines)) =
        .ok nodes ∧
      nodes.flatten.map (Node.mapLabels back) = s.flatMap fun e =>
        labelAt referenced e.1 ++ (linesAt parts.lines e.1).map .line ++ [.insn e.2] := by
  induction cut with
  | nil => exact ⟨[], rfl, rfl⟩
  | @cons offset length stop i rest hi _ ih =>
    have hhere : ∀ t ∈ i.targets, t.id ∈ referenced := fun t ht =>
      htargets _ (List.mem_flatMap.2 ⟨_, List.mem_cons_self, List.mem_map_of_mem ht⟩)
    obtain ⟨nodes, hnodes, hback⟩ := ih fun n hn => by
      obtain ⟨e, he, hn⟩ := List.mem_flatMap.1 hn
      exact htargets n (List.mem_flatMap.2 ⟨e, List.mem_cons_of_mem _ he, hn⟩)
    have hinsn := hi.insn_eq labels place fun t ht => h.found t.id (hhere t ht)
    refine ⟨((labels.at? offset).toList.map .label ++ (linesAt parts.lines offset).map .line ++
      [.insn (i.mapLabels place)]) :: nodes, ?_, ?_⟩
    · rw [List.map_cons, List.mapM_cons]
      refine bind_eq_ok.2 ⟨_, bind_eq_ok.2 ⟨_, during_eq_ok.2 hinsn, ?_⟩,
        bind_eq_ok.2 ⟨_, hnodes, rfl⟩⟩
      rw [getD_lineTable]
      rfl
    · have hlines : ((linesAt parts.lines offset).map Node.line).map (Node.mapLabels back) =
          (linesAt parts.lines offset).map .line := by
        rw [List.map_map]
        rfl
      rw [List.flatten_cons, List.map_append, List.map_append, List.map_append, h.labelAt_eq,
        hlines, hback, List.flatMap_cons]
      simp only [List.map_cons, List.map_nil, Node.mapLabels, h.insn_eq hhere]

end Labelling

/-- The labels of code that is read stand for their offsets. -/
theorem labelling_numberLabels {offsets referenced : List Nat} {o : CodeOrigin}
    (nodup : offsets.Nodup) (same : ∀ n, n ∈ offsets ↔ n ∈ referenced)
    (ho : o.labelOffsets = numberLabels offsets) :
    ∃ place, Labelling (labelTable (numberLabels offsets)) (fun l => ⟨o.offsetOf l⟩) referenced
      place := by
  have hlabel : ∀ n ∈ referenced, ∃ l, (l, n) ∈ numberLabels offsets :=
    fun n hn => exists_label ((same n).2 hn)
  refine ⟨fun t => ((labelTable (numberLabels offsets)).at? t.id).getD ⟨0⟩, fun n hn => ?_,
    fun n hn => ?_, fun n hn => ?_⟩
  · obtain ⟨l, hl⟩ := hlabel n hn
    rw [at?_labelTable nodup hl]
    rfl
  · cases hat : (labelTable (numberLabels offsets)).at? n with
    | none => rfl
    | some l =>
      have hmem := List.mem_map_of_mem (f := Prod.snd) (mem_of_at? nodup hat)
      rw [map_snd_numberLabels] at hmem
      exact absurd ((same n).1 hmem) hn
  · obtain ⟨l, hl⟩ := hlabel n hn
    rw [at?_labelTable nodup hl]
    exact congrArg Label.mk (CodeOrigin.offsetOf_eq ho hl)

/-- **Code that is cut into instructions is decoded as those**, with a label at every offset that is
    referred to, and with its tables. -/
theorem decodeMethod_of_cut {pool : ConstantPool} {blank : Method} {body : Bytes}
    {parts : CodeParts} {s : List (Nat × Insn)} {handlers : List Handler}
    {locals localTypes : List LocalRecord} (hread : CodeParts.read pool body = .ok parts)
    (cut : Cut parts.code pool 0 s parts.code.size) (small : parts.code.size ≤ maxCodeLength)
    (htargets : ∀ n ∈ targetOffsets s, n ∈ s.map Prod.fst)
    (htables : ∀ n ∈ parts.tableOffsets, n ∈ s.map Prod.fst ∨ n = parts.code.size)
    (hhandlers : List.Forall₂ (RawHandler.Denotes pool) parts.handlers handlers)
    (hlocals : List.Forall₂ (RawLocal.Denotes pool) parts.locals locals)
    (hlocalTypes : List.Forall₂ (RawLocal.Denotes pool) parts.localTypes localTypes) :
    ∃ m, decodeMethod pool blank body = .ok m ∧ m.byOffset =
      { nodes := nodesByOffset s parts.lines (targetOffsets s ++ parts.tableOffsets)
          parts.code.size
        handlers, locals, localTypes } := by
  have below : JumpsBelow parts.code.size s := jumpsBelow_iff.2 fun n hn => by
    obtain ⟨e, he, rfl⟩ := List.mem_map.1 (htargets n hn)
    exact (cut.outline.bounds he).2
  obtain ⟨scan, hscan, hstarts, htargetsEq⟩ := scanFrom_of_outline cut.outline rfl small below {}
  rw [List.nil_append] at hstarts htargetsEq
  have hreferenced : referencedOffsets parts scan = targetOffsets s ++ parts.tableOffsets := by
    rw [referencedOffsets, htargetsEq]
  have hplaces : labelPlaces parts scan = s.map Prod.fst ++ [parts.code.size] := by
    rw [labelPlaces, hstarts]
  have hplace : ∀ n ∈ referencedOffsets parts scan, n ∈ labelPlaces parts scan := by
    intro n hn
    rw [hreferenced, List.mem_append] at hn
    rw [hplaces, List.mem_append, List.mem_singleton]
    rcases hn with hn | hn
    · exact .inl (htargets n hn)
    · exact htables n hn
  have hoffsets := labelledOffsets_eq_ok.2 ⟨hplace, rfl⟩
  have nodup : ((labelPlaces parts scan).filter (· ∈ referencedOffsets parts scan)).Nodup := by
    rw [hplaces]
    exact List.Nodup.filter _ cut.outline.nodup_places
  have same : ∀ n, n ∈ (labelPlaces parts scan).filter (· ∈ referencedOffsets parts scan) ↔
      n ∈ targetOffsets s ++ parts.tableOffsets := by
    intro n
    rw [List.mem_filter, decide_eq_true_eq, ← hreferenced]
    exact ⟨And.right, fun hn => ⟨hplace n hn, hn⟩⟩
  obtain ⟨place, labelling⟩ := labelling_numberLabels (o := parts.origin _) nodup same rfl
  obtain ⟨nodes, hnodes, hnodesEq⟩ := labelling.nodes_eq cut
    fun n hn => List.mem_append_left _ hn
  have htable : ∀ n, n ∈ parts.tableOffsets → n ∈ targetOffsets s ++ parts.tableOffsets :=
    fun n hn => List.mem_append_right _ hn
  obtain ⟨decoded, hdecoded, hdecodedEq⟩ := labelling.handlers_eq hhandlers fun n hn =>
    htable n (List.mem_append_left _ (List.mem_append_left _ hn))
  have hrecords : ∀ records : List RawLocal, (∀ r ∈ records, r ∈ parts.locals ++ parts.localTypes) →
      ∀ n ∈ records.flatMap fun r => [r.start, r.stop],
        n ∈ targetOffsets s ++ parts.tableOffsets := by
    intro records hsub n hn
    obtain ⟨r, hr, hn⟩ := List.mem_flatMap.1 hn
    exact htable n (List.mem_append_left _ (List.mem_append_right _
      (List.mem_flatMap.2 ⟨r, hsub r hr, hn⟩)))
  obtain ⟨decodedLocals, hdecodedLocals, hdecodedLocalsEq⟩ := labelling.locals_eq hlocals
    (hrecords parts.locals fun r hr => List.mem_append_left _ hr)
  obtain ⟨decodedTypes, hdecodedTypes, hdecodedTypesEq⟩ := labelling.locals_eq hlocalTypes
    (hrecords parts.localTypes fun r hr => List.mem_append_right _ hr)
  rw [← hstarts] at hnodes
  refine ⟨_, decodeMethod_eq_ok.2 ⟨parts, scan, _, nodes, decoded, decodedLocals, decodedTypes,
    hread, hscan, hoffsets, hnodes, hdecoded, hdecodedLocals, hdecodedTypes, rfl⟩, ?_⟩
  simp only [Method.byOffset, Option.map_some, Option.getD_some, hdecodedEq, hdecodedLocalsEq,
    hdecodedTypesEq]
  rw [List.map_append, hnodesEq, labelling.labelAt_eq]
  rfl

end Rewire
