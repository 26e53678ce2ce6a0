import Mathlib
import Rewire.Proofs.Code.Calls
import Rewire.Proofs.Code.Targets

/-!
# Frames where code jumps to

The frames of code that was read move along with its labels. This file shows

* that the attributes listed as dropped are those that are not carried over (`mem_dropped_iff`), so a
  stack map table that is not listed still has a frame at every label before the end
  (`LaidOut.frame_of_label`);
* which methods have frames at all labels they jump to (`Method.FramedBy`), decoded ones among them
  (`framedBy_of_decode`);
* that what is assembled from such a method has a frame wherever its code jumps to, other than
  behind a wide condition (`framed_of_assemble`). A wide condition is written as its opposite around
  a wide `goto`, and no frame of the code that was read belongs to where that opposite jumps.
-/

namespace Rewire

open ConstantPool

/-! ## 1. Attributes that are dropped -/

section Dropped

variable {m : Method} {preserved : Bool} {newOffset : Nat → Option Nat} {c c' : Carryover}
  {p q : ConstantPool} {log log' : Log}

theorem dropped_of_keep {name : String} {body : Bytes}
    (h : carryAttribute.keep c name body p log = ((.ok c', q), log')) : c'.dropped = c.dropped := by
  obtain ⟨a, p₁, log₁, -, h⟩ := Assembly.bind_eq_ok.1 h
  obtain ⟨rfl, -, -⟩ := Assembly.pure_eq_ok.1 h
  rfl

theorem dropped_of_drop {name : String}
    (h : carryAttribute.drop c name p log = ((.ok c', q), log')) :
    c'.dropped = c.dropped ++ [name] := by
  obtain ⟨rfl, -, -⟩ := Assembly.pure_eq_ok.1 h
  rfl

/-- An attribute is dropped if it is not carried over. -/
theorem dropped_of_carryAttribute {a : String × Bytes}
    (h : carryAttribute m preserved newOffset c a.1 a.2 p log = ((.ok c', q), log')) :
    c'.dropped = c.dropped ++
      if (carriedAttribute preserved newOffset a).isNone then [a.1] else [] := by
  unfold carryAttribute at h
  unfold carriedAttribute
  split at h
  · rename_i hpreserved
    rw [if_pos hpreserved, dropped_of_keep h]
    exact (List.append_nil _).symm
  · rename_i hpreserved
    rw [if_neg hpreserved]
    split at h
    · rename_i hname
      rw [if_pos hname]
      cases hmoved : relocateFrames newOffset a.2 with
      | ok body =>
        rw [hmoved] at h
        rw [dropped_of_keep h]
        exact (List.append_nil _).symm
      | error reason =>
        rw [hmoved] at h
        obtain ⟨_, p₁, log₁, -, h⟩ := Assembly.bind_eq_ok.1 h
        exact dropped_of_drop h
    · rename_i hname
      rw [if_neg hname]
      exact dropped_of_drop h

/-- **The attributes that are not carried over** are listed by name. -/
theorem dropped_of_carryAttributes {attributes : List (String × Bytes)}
    (h : (attributes.foldlM (fun c (name, body) =>
      carryAttribute m preserved newOffset c name body) c : Assembly Carryover) p log =
        ((.ok c', q), log')) :
    c'.dropped = c.dropped ++
      (attributes.filter fun a => (carriedAttribute preserved newOffset a).isNone).map Prod.fst := by
  induction attributes generalizing c p log with
  | nil =>
    obtain ⟨rfl, -, -⟩ := Assembly.pure_eq_ok.1 h
    exact (List.append_nil _).symm
  | cons a rest ih =>
    rw [List.foldlM_cons] at h
    obtain ⟨c₁, p₁, log₁, hfirst, h⟩ := Assembly.bind_eq_ok.1 h
    rw [ih h, dropped_of_carryAttribute hfirst, List.append_assoc, List.filter_cons]
    split <;> rfl

/-- **The attributes that assembling lists** are those that are not carried over. -/
theorem mem_dropped_iff {o : CodeOrigin} {p₁ : ConstantPool} {l : Layout} {a : Assembled}
    {name : String} (h : assemble m p log = ((.ok a, q), log')) (ho : m.origin = some o)
    (hl : layOut m p = (.ok l, p₁)) :
    name ∈ a.dropped ↔ ∃ b ∈ o.attributes, b.1 = name ∧
      carriedAttribute (o.isPreserved l) (o.newOffset l) b = none := by
  obtain ⟨l', _, _, _, _, _, _, _, _, _, _, _, c, _, _, _, hl', -, -, -, -, -, hcarried, -, -, -, rfl⟩ :=
    assemble_eq_ok.1 h
  cases hl.symm.trans hl'
  unfold carryAttributes at hcarried
  rw [ho] at hcarried
  rw [show c.dropped = _ from dropped_of_carryAttributes hcarried, List.nil_append, List.mem_map]
  simp only [List.mem_filter, Option.isNone_iff_eq_none]
  exact ⟨fun ⟨b, ⟨hb, hnone⟩, hname⟩ => ⟨b, hb, hname, hnone⟩,
    fun ⟨b, hb, hname, hnone⟩ => ⟨b, ⟨hb, hnone⟩, hname⟩⟩

end Dropped

/-! ## 2. Frames at labels -/

/-- Whether a stack map table among the attributes has a frame at an offset. -/
def HasFrame (attributes : List (String × Bytes)) (n : Nat) : Prop :=
  ∃ body frames, (AttributeName.stackMap, body) ∈ attributes ∧ readFrames body = .ok frames ∧
    n ∈ frames.map Frame.offset

/-- Whether the code that was read has a frame at a label. -/
def CodeOrigin.FramesLabel (o : CodeOrigin) (label : Label) : Prop :=
  ∃ n, (labelTable o.labelOffsets).at? n = some label ∧ (label, n) ∈ o.labelOffsets ∧
    HasFrame o.attributes n

/-- **A frame stays at its label**, if no stack map table is lost and the label is before the end. -/
theorem LaidOut.frame_of_label {m : Method} {pool : ConstantPool} {l : Layout} {o : CodeOrigin}
    {label : Label} {k : Nat} (laid : LaidOut m pool l) (ho : m.origin = some o)
    (carried : ∀ a ∈ o.attributes, a.1 = AttributeName.stackMap →
      (carriedAttribute (o.isPreserved l) (o.newOffset l) a).isSome)
    (hframe : o.FramesLabel label) (hk : l.offsetOf? label = some k) (hlt : k < l.codeLength) :
    HasFrame (m.carried l) k := by
  obtain ⟨n, hat, hlabel, body, frames, hbody, hframes, hn⟩ := hframe
  obtain ⟨a, ha⟩ := Option.isSome_iff_exists.1 (carried _ hbody rfl)
  have hmem : a ∈ m.carried l := by
    unfold Method.carried
    rw [ho]
    exact List.mem_filterMap.2 ⟨_, hbody, ha⟩
  cases hpreserved : o.isPreserved l with
  | true =>
    rw [hpreserved] at ha
    cases ha
    unfold CodeOrigin.isPreserved at hpreserved
    have hall := List.all_eq_true.1 (Bool.and_eq_true_iff.1 hpreserved).2 _ hlabel
    cases hk.symm.trans (of_decide_eq_true hall)
    exact ⟨body, frames, hmem, hframes, hn⟩
  | false =>
    rw [hpreserved] at ha
    obtain ⟨hname, hmoved⟩ := carriedAttribute_moved ha
    have hnew : o.newOffset l n = some k := by
      refine Option.bind_eq_some_iff.2 ⟨label, hat, Option.bind_eq_some_iff.2 ⟨k, hk, ?_⟩⟩
      exact if_pos hlt
    obtain ⟨moved, hread, hoffset⟩ :=
      offset_mem_of_relocateFrames laid.newOffset_fits hmoved hframes hn hnew
    exact ⟨a.2, moved, hname ▸ hmem, hread, hoffset⟩

/-! ## 3. Methods -/

/-- Whether a label stands before an instruction. -/
def Method.HasInside (m : Method) (label : Label) : Prop :=
  ∃ before after, m.nodes.toList = before ++ .label label :: after ∧ ∃ i, .insn i ∈ after

/-- Whether the code a method was read from has a frame at every label that the method jumps to or
    handles exceptions at. These labels stand before instructions, those of handlers unless `atEnd`
    holds, and control does not go on behind the last instruction. -/
structure Method.FramedBy (m : Method) (o : CodeOrigin) (atEnd : Prop) : Prop where
  origin : m.origin = some o
  targets : ∀ i ∈ m.insns, ∀ label ∈ i.targets, o.FramesLabel label ∧ m.HasInside label
  handlers : ∀ h ∈ m.handlers, o.FramesLabel h.handler ∧ (m.HasInside h.handler ∨ atEnd)
  ends : ∃ last, m.insns.getLast? = some last ∧ last.fallsThrough = false

/-- Whether code that was taken apart and scanned has a frame at every offset it jumps to or handles
    exceptions at. -/
structure CodeParts.Framed (parts : CodeParts) (scan : CodeScan) : Prop where
  targets : ∀ n ∈ scan.targets.toList, HasFrame parts.others n
  handlers : ∀ h ∈ parts.handlers, HasFrame parts.others h.handler

/-- Whether exceptions are handled behind the last instruction, where no code is. -/
def CodeParts.HandlesAtEnd (parts : CodeParts) : Prop :=
  ∃ h ∈ parts.handlers, parts.code.size ≤ h.handler

/-- **A method that is decoded from framed code** has frames at all labels it jumps to. -/
theorem framedBy_of_decode {pool : ConstantPool} {blank m : Method} {body : Bytes}
    {parts : CodeParts} {scan : CodeScan} {last : Insn}
    (h : decodeMethod pool blank body = .ok m) (hread : CodeParts.read pool body = .ok parts)
    (hscan : scanCode parts.code = .ok scan) (framed : parts.Framed scan)
    (hlast : m.insns.getLast? = some last) (hends : last.fallsThrough = false) :
    ∃ o, m.FramedBy o parts.HandlesAtEnd := by
  obtain ⟨o, ho, hothers, hlength⟩ := exists_origin_of_decode h hread
  refine ⟨o, ho, fun i hi label hlabel => ?_, fun handler hhandler => ?_, last, hlast, hends⟩
  · obtain ⟨n, hn, hlt, hmem⟩ := exists_target_of_decode h hread hscan ho hi hlabel
    exact ⟨⟨n, at?_of_decode h ho hmem, hmem, hothers ▸ framed.targets n hn⟩,
      insn_after_label h ho hmem hlt⟩
  · obtain ⟨raw, hraw, hmem⟩ := exists_handler_of_decode h hread ho hhandler
    refine ⟨⟨_, at?_of_decode h ho hmem, hmem, hothers ▸ framed.handlers raw hraw⟩, ?_⟩
    rcases Nat.lt_or_ge raw.handler o.codeLength with hlt | hge
    · exact .inl (insn_after_label h ho hmem hlt)
    · exact .inr ⟨raw, hraw, hlength ▸ hge⟩

/-! ## 4. Code that is written -/

/-- Whether an offset is where a wide condition ends, around which its opposite jumps. -/
def Layout.SkipsTo (l : Layout) (n : Nat) : Prop :=
  ∃ p offset, (p, offset) ∈ l.placed ∧ p.IsWideCondition ∧ n = offset + p.length offset

/-- Whether the code of an assembled body has a frame wherever it jumps to, other than behind a wide
    condition, and wherever it handles exceptions, other than at its end if `atEnd` holds. -/
def Assembled.FramedAs (a : Assembled) (pool : ConstantPool) (l : Layout) (atEnd : Prop) : Prop :=
  ∃ maxStack maxLocals code handlers attributes named bytes scan,
    l.encode = .ok code ∧ scanCode code.toArray = .ok scan ∧
    attributesBytes attributes = .ok bytes ∧
    List.Forall₂ (RawAttribute.IsNamed pool) attributes named ∧
    a.body = codeBody maxStack maxLocals code handlers bytes ∧
    (∀ n ∈ scan.targets.toList, HasFrame named n ∨ l.SkipsTo n) ∧
    ∀ h ∈ handlers, HasFrame named h.handler ∨ atEnd ∧ h.handler = code.length

namespace LaidOut

variable {m : Method} {pool : ConstantPool} {l : Layout}

theorem lt_of_start (laid : LaidOut m pool l) (counted : l.EntriesFit)
    (form : ∀ i ∈ m.insns, i.OpcodeFits) {code : Bytes} (hcode : l.encode = .ok code) {n : Nat}
    (hn : n ∈ l.starts) : n < l.codeLength := by
  obtain ⟨e, he, rfl⟩ := List.mem_map.1 hn
  have outline : Outline code.toArray 0 l.stream l.codeLength :=
    (laid.cut_calls counted form hcode).mono fun _ _ _ hi => hi.toTakesUp
  exact (outline.bounds he).2

theorem offsetOf?_of_reference (laid : LaidOut m pool l) {label : Label}
    (hlabel : label ∈ m.references) : l.offsetOf? label = some (l.offsetOf label) :=
  l.offsetOf?_eq.2 ⟨laid.placed label hlabel, rfl⟩

/-- A label that stands before an instruction is at the start of one. -/
theorem start_of_inside (laid : LaidOut m pool l) {label : Label} (inside : m.HasInside label) :
    l.offsetOf label ∈ l.starts := by
  obtain ⟨before, after, hnodes, i, hi⟩ := inside
  have hk : m.nodes[before.length]? = some (.label label) := by
    rw [← Array.getElem?_toList, hnodes]
    simp
  have hle : before.length ≤ l.pieces.length := by
    rw [laid.length_pieces]
    exact Nat.le_of_lt (Array.getElem?_eq_some_iff.1 hk).1
  rw [laid.consistent.offsetOf_eq ((laid.position _ _).2 hk) hle]
  refine laid.consistent.start_of_position ?_
  have hdrop : (l.pieces.drop before.length).map Piece.node = .label label :: after := by
    rw [List.map_drop, laid.map_node, hnodes, List.drop_left]
  obtain ⟨piece, hpiece, hnode⟩ :=
    List.mem_map.1 (hdrop ▸ List.mem_cons_of_mem _ hi : Node.insn i ∈ _)
  exact ⟨piece, hpiece, by rw [hnode]; rfl⟩

/-- Code whose last instruction is not followed by others does not end in a wide condition. -/
theorem not_endsInWideCondition (laid : LaidOut m pool l) {last : Insn}
    (hlast : m.insns.getLast? = some last) (hends : last.fallsThrough = false) :
    ¬ l.EndsInWideCondition := by
  rintro ⟨before, p, after, hpieces, ⟨op, label, opposite, hnode, -, hopposite⟩, hafter⟩
  have hmarkers : (after.map Piece.node).filterMap Node.insn? = [] := by
    refine List.filterMap_eq_nil_iff.2 fun node hnode => ?_
    obtain ⟨q, hq, rfl⟩ := List.mem_map.1 hnode
    have hmarker := hafter q hq
    cases hq' : q.node with
    | insn i =>
      rw [hq'] at hmarker
      cases hmarker
    | _ => rfl
  have hinsns : m.insns = (before.map Piece.node).filterMap Node.insn? ++ [.jump op label] := by
    unfold Method.insns
    rw [← laid.map_node, hpieces, List.map_append, List.map_cons, hnode, List.filterMap_append,
      show (Node.insn _ :: _).filterMap Node.insn? = _ :: _ from rfl, hmarkers]
  rw [hinsns, List.getLast?_concat] at hlast
  cases hlast
  have hgoto : op = Opcode.goto := by simpa [Insn.fallsThrough] using hends
  rw [hgoto] at hopposite
  cases hopposite

/-- **Code whose labels are before instructions** is scanned as the instructions of its layout, and
    jumps to their offsets, if it does not end in a wide condition. -/
theorem scan_of_inside (laid : LaidOut m pool l) (counted : l.EntriesFit)
    (form : ∀ i ∈ m.insns, i.OpcodeFits)
    (inside : ∀ i ∈ m.insns, ∀ label ∈ i.targets, m.HasInside label)
    (hend : ¬ l.EndsInWideCondition) {code : Bytes} (hcode : l.encode = .ok code) :
    ∃ scan, scanCode code.toArray = .ok scan ∧ scan.starts.toList = l.starts ∧
      scan.targets.toList = targetOffsets l.stream ∧ ∀ n ∈ targetOffsets l.stream, n ∈ l.starts := by
  have hstart : ∀ n ∈ targetOffsets l.stream, n ∈ l.starts :=
    laid.consistent.targets_mem_starts (fun p hp i hi label hlabel =>
      laid.start_of_inside (inside i (laid.mem_insns hp hi) label hlabel)) hend
  have hsize : l.codeLength = code.toArray.size := by
    rw [List.size_toArray, l.length_of_encode hcode laid.consistent counted]
  have outline : Outline code.toArray 0 l.stream l.codeLength :=
    (laid.cut_calls counted form hcode).mono fun _ _ _ hi => hi.toTakesUp
  have hbelow : JumpsBelow code.toArray.size l.stream := jumpsBelow_iff.2 fun n hn =>
    hsize ▸ laid.lt_of_start counted form hcode (hstart n hn)
  obtain ⟨scan, hscan, hstarts, htargets⟩ := scanFrom_of_outline outline hsize
    (hsize.ge.trans laid.small) hbelow {}
  exact ⟨scan, hscan, hstarts, htargets, hstart⟩

/-- **The code of a method that is framed** jumps only to frames and behind wide conditions. -/
theorem targets_framed {o : CodeOrigin} {atEnd : Prop} (laid : LaidOut m pool l)
    (counted : l.EntriesFit) (form : ∀ i ∈ m.insns, i.OpcodeFits) (framed : m.FramedBy o atEnd)
    (carried : ∀ a ∈ o.attributes, a.1 = AttributeName.stackMap →
      (carriedAttribute (o.isPreserved l) (o.newOffset l) a).isSome) {code : Bytes}
    (hcode : l.encode = .ok code) :
    ∃ scan, scanCode code.toArray = .ok scan ∧
      ∀ n ∈ scan.targets.toList, HasFrame (m.carried l) n ∨ l.SkipsTo n := by
  obtain ⟨last, hlast, hends⟩ := framed.ends
  obtain ⟨scan, hscan, -, htargets, hstart⟩ := laid.scan_of_inside counted form
    (fun i hi label hlabel => (framed.targets i hi label hlabel).2)
    (laid.not_endsInWideCondition hlast hends) hcode
  refine ⟨scan, hscan, fun n hn => ?_⟩
  rw [htargets] at hn
  rcases laid.consistent.targets_of_stream hn with ⟨p, hp, i, hi, label, hlabel, rfl⟩ |
    ⟨before, p, after, hpieces, hwide, rfl⟩
  · have hmem := laid.mem_insns hp hi
    have hreference := Method.mem_references_of_target hmem hlabel
    exact .inl (laid.frame_of_label framed.origin carried (framed.targets i hmem label hlabel).1
      (laid.offsetOf?_of_reference hreference)
      (laid.lt_of_start counted form hcode (laid.start_of_inside (framed.targets i hmem label hlabel).2)))
  · refine .inr ⟨p, endFrom 0 before, ?_, hwide, ?_⟩
    · rw [laid.consistent.placed_eq]
      exact mem_placedFrom.2 ⟨before, after, hpieces, rfl⟩
    · rw [endFrom_append]
      rfl

/-- The handlers of a method that is framed are written for frames, or the end. -/
theorem handlers_framed {o : CodeOrigin} {atEnd : Prop} (laid : LaidOut m pool l)
    (counted : l.EntriesFit) (form : ∀ i ∈ m.insns, i.OpcodeFits) (framed : m.FramedBy o atEnd)
    (carried : ∀ a ∈ o.attributes, a.1 = AttributeName.stackMap →
      (carriedAttribute (o.isPreserved l) (o.newOffset l) a).isSome) {code : Bytes}
    (hcode : l.encode = .ok code) {raws : List RawHandler}
    (denote : List.Forall₂ (RawHandler.Denotes pool) raws (l.handlers m.handlers)) :
    ∀ raw ∈ raws, HasFrame (m.carried l) raw.handler ∨ atEnd ∧ raw.handler = code.length := by
  intro raw hraw
  obtain ⟨mapped, hmapped, hdenotes⟩ := exists_left_of_forall₂ denote.flip hraw
  obtain ⟨handler, hhandler, rfl⟩ := List.mem_map.1 hmapped
  have htarget : l.offsetOf handler.handler = raw.handler := congrArg Label.id hdenotes.handler
  have hmem := (List.mem_filter.1 hhandler).1
  have hreference : handler.handler ∈ m.references :=
    Method.mem_references_of_handler hmem (by simp)
  obtain ⟨hframe, hinside⟩ := framed.handlers handler hmem
  have hframed (hstart : l.offsetOf handler.handler ∈ l.starts) :
      HasFrame (m.carried l) (l.offsetOf handler.handler) :=
    laid.frame_of_label framed.origin carried hframe (laid.offsetOf?_of_reference hreference)
      (laid.lt_of_start counted form hcode hstart)
  rw [← htarget, l.length_of_encode hcode laid.consistent counted]
  rcases hinside with hinside | hatEnd
  · exact .inl (hframed (laid.start_of_inside hinside))
  · exact (laid.place_of_reference hreference).imp hframed (.intro hatEnd)

end LaidOut

/-- **Assembling a framed method** that does not lose its stack map table gives framed code. -/
theorem framed_of_assemble {m : Method} {o : CodeOrigin} {atEnd : Prop} {p q : ConstantPool}
    {log log' : Log} {a : Assembled} (wf : p.WellFormed)
    (h : assemble m p log = ((.ok a, q), log')) (counted : m.EntriesFit)
    (form : ∀ i ∈ m.insns, i.OpcodeFits) (framed : m.FramedBy o atEnd)
    (kept : AttributeName.stackMap ∉ a.dropped) :
    ∃ l p₁, layOut m p = (.ok l, p₁) ∧ a.FramedAs q l atEnd := by
  obtain ⟨l, p₁, hl, -, -, laid, hof⟩ := isOf_of_assemble wf h
  have fits : l.EntriesFit := laid.entriesFit counted
  have carried : ∀ a ∈ o.attributes, a.1 = AttributeName.stackMap →
      (carriedAttribute (o.isPreserved l) (o.newOffset l) a).isSome := by
    intro a ha hname
    rw [Option.isSome_iff_ne_none]
    exact fun hnone => kept ((mem_dropped_iff h framed.origin hl).2 ⟨a, ha, hname, hnone⟩)
  obtain ⟨maxStack, maxLocals, code, raws, lines, locals, localTypes, others, bytes, hcode, denote,
    named, ⟨rawLocals, -, namedLocals⟩, ⟨rawTypes, -, namedTypes⟩, hothers, hbytes, hbody⟩ := hof
  rw [l.codeBody_eq hcode laid.consistent fits] at hbody
  obtain ⟨scan, hscan, htargets⟩ := laid.targets_framed fits form framed carried hcode
  have hasFrame : ∀ {n : Nat} {tables : List (String × Bytes)}, HasFrame (m.carried l) n →
      HasFrame (tables ++ m.carried l) n :=
    fun ⟨body, frames, hmem, hrest⟩ => ⟨body, frames, List.mem_append_right _ hmem, hrest⟩
  refine ⟨l, p₁, hl, maxStack, maxLocals, code, raws, _, _, bytes, scan, hcode, hscan, hbytes,
    List.rel_append (List.rel_append (List.rel_append named namedLocals) namedTypes) hothers, hbody,
    fun n hn => (htargets n hn).imp_left hasFrame, fun raw hraw => ?_⟩
  exact (laid.handlers_framed fits form framed carried hcode denote raw hraw).imp_left hasFrame

end Rewire
