import Mathlib
import Rewire.Proofs.Code.LaidOut
import Rewire.Proofs.Code.Tables

/-!
# What assembling writes

The body that assembling writes is read as the parts it was put together from: the code of the
layout, and the tables and attributes of the method for the places of its labels. This file shows

* the steps of assembling that have to succeed (`assemble_eq_ok`);
* that tables which fit their counts are written with offsets that fit (`Method.TablesFit`,
  `LaidOut.handlers_fit`, `LaidOut.locals_fit`);
* that the frames that are carried over mention places for instructions, or the end, when those of
  the code that was read did (`LaidOut.place_of_carriedFrame`);
* what an assembled body is put together from (`isOf_of_assemble`), and that it is read as its parts
  (`LaidOut.read`).
-/

namespace Rewire

open ConstantPool
open Reader (positionLimit)

/-! ## 1. Steps of assembling -/

/-- Carries the attributes of the code that was read over. -/
def carryAttributes (m : Method) (l : Layout) (tables : Carryover) : Assembly Carryover :=
  match m.origin with
  | none => pure tables
  | some o => o.attributes.foldlM
      (fun c (name, body) => carryAttribute m (o.isPreserved l) (o.newOffset l) c name body) tables

/-- The attributes of the code that was read, as they are carried over. -/
def Method.carried (m : Method) (l : Layout) : List (String × Bytes) :=
  match m.origin with
  | none => []
  | some o => o.attributes.filterMap (carriedAttribute (o.isPreserved l) (o.newOffset l))

theorem finds_methodAttributes (m : Method) (l : Layout) (tables : Carryover) :
    Assembly.Finds (carryAttributes m l tables) fun q c => tables.Adds c q (m.carried l) := by
  unfold carryAttributes Method.carried
  cases m.origin with
  | none =>
    refine (Assembly.finds_pure tables).weaken fun q c hc => ?_
    rw [hc]
    exact ⟨[], (List.append_nil _).symm, .nil⟩
  | some o => exact finds_carryAttributes o.attributes tables

/-- The limits, the larger of those of the code that was read and those that are needed. -/
def limit (old : Option CodeOrigin) (of : CodeOrigin → UInt16) (needed : UInt16) : UInt16 :=
  max ((old.map of).getD 0) needed

/-- The descriptor of a method without arguments and result. -/
theorem Descriptor.parse_nothing : Descriptor.parse "()V" = .ok ⟨[], .void⟩ := by
  decide +kernel

/-- Assembling succeeds exactly when each of its steps does. -/
theorem assemble_eq_ok {m : Method} {p p' : ConstantPool} {log log' : Log} {a : Assembled} :
    assemble m p log = ((.ok a, p'), log') ↔
      ∃ l p₁ code entries p₂ log₂ lines p₃ locals p₄ localTypes p₅ carried stack slots bytes,
        layOut m p = (.ok l, p₁) ∧ l.encode = .ok code ∧
        m.handlers.filterMapM (encodeHandler m l) p₁ log = ((.ok entries, p₂), log₂) ∧
        tableAttribute AttributeName.lineNumbers (l.lines.map encodeLine) p₂ = (.ok lines, p₃) ∧
        localsAttribute AttributeName.locals l m.locals p₃ = (.ok locals, p₄) ∧
        localsAttribute AttributeName.localTypes l m.localTypes p₄ = (.ok localTypes, p₅) ∧
        carryAttributes m l { kept := lines ++ locals ++ localTypes } p₅ log₂ =
          ((.ok carried, p'), log') ∧
        maxStack m = .ok stack ∧ requiredLocals m = .ok slots ∧
        attributesBytes carried.kept = .ok bytes ∧
        a = { body := be16 (limit m.origin CodeOrigin.maxStack stack) ++
                be16 (limit m.origin CodeOrigin.maxLocals slots) ++
                be32 (UInt32.ofNat l.codeLength) ++ code ++ tableBytes entries ++ bytes
              dropped := carried.dropped } := by
  have heq : assemble m = (do
      let l ← (layOut m : PoolStep Layout)
      let code ← (l.encode : Outcome Bytes)
      let entries ← m.handlers.filterMapM (encodeHandler m l)
      let lines ← (tableAttribute AttributeName.lineNumbers (l.lines.map encodeLine) :
        PoolStep (List RawAttribute))
      let locals ← (localsAttribute AttributeName.locals l m.locals : PoolStep (List RawAttribute))
      let localTypes ← (localsAttribute AttributeName.localTypes l m.localTypes :
        PoolStep (List RawAttribute))
      let carried ← carryAttributes m l { kept := lines ++ locals ++ localTypes }
      let stack ← (maxStack m : Outcome UInt16)
      let slots ← (requiredLocals m : Outcome UInt16)
      let bytes ← (attributesBytes carried.kept : Outcome Bytes)
      return {
        body := be16 (limit m.origin CodeOrigin.maxStack stack) ++
          be16 (limit m.origin CodeOrigin.maxLocals slots) ++
          be32 (UInt32.ofNat l.codeLength) ++ code ++ tableBytes entries ++ bytes
        dropped := carried.dropped }) := by
    unfold assemble carryAttributes limit
    cases m.origin <;> rfl
  rw [heq]
  constructor
  · intro h
    obtain ⟨l, p₁, log₁, sl, h₁⟩ := Assembly.bind_eq_ok.1 h
    obtain ⟨hl, rfl⟩ := Assembly.liftStep_eq_ok.1 sl
    obtain ⟨code, q, log₁, scode, h₂⟩ := Assembly.bind_eq_ok.1 h₁
    obtain ⟨hcode, rfl, rfl⟩ := Assembly.lift_eq_ok.1 scode
    obtain ⟨entries, p₂, log₂, hentries, h₃⟩ := Assembly.bind_eq_ok.1 h₂
    obtain ⟨lines, p₃, log₃, slines, h₄⟩ := Assembly.bind_eq_ok.1 h₃
    obtain ⟨hlines, rfl⟩ := Assembly.liftStep_eq_ok.1 slines
    obtain ⟨locals, p₄, log₃, slocals, h₅⟩ := Assembly.bind_eq_ok.1 h₄
    obtain ⟨hlocals, rfl⟩ := Assembly.liftStep_eq_ok.1 slocals
    obtain ⟨localTypes, p₅, log₃, slocalTypes, h₆⟩ := Assembly.bind_eq_ok.1 h₅
    obtain ⟨hlocalTypes, rfl⟩ := Assembly.liftStep_eq_ok.1 slocalTypes
    obtain ⟨carried, p₆, log₃, hcarried, h₇⟩ := Assembly.bind_eq_ok.1 h₆
    obtain ⟨stack, q, log₄, sstack, h₈⟩ := Assembly.bind_eq_ok.1 h₇
    obtain ⟨hstack, rfl, rfl⟩ := Assembly.lift_eq_ok.1 sstack
    obtain ⟨slots, q, log₄, sslots, h₉⟩ := Assembly.bind_eq_ok.1 h₈
    obtain ⟨hslots, rfl, rfl⟩ := Assembly.lift_eq_ok.1 sslots
    obtain ⟨bytes, q, log₄, sbytes, h₁₀⟩ := Assembly.bind_eq_ok.1 h₉
    obtain ⟨hbytes, rfl, rfl⟩ := Assembly.lift_eq_ok.1 sbytes
    obtain ⟨ha, rfl, rfl⟩ := Assembly.pure_eq_ok.1 h₁₀
    exact ⟨l, p₁, code, entries, p₂, log₂, lines, p₃, locals, p₄, localTypes, p₅, carried, stack,
      slots, bytes, hl, hcode, hentries, hlines, hlocals, hlocalTypes, hcarried, hstack, hslots,
      hbytes, ha.symm⟩
  · rintro ⟨l, p₁, code, entries, p₂, log₂, lines, p₃, locals, p₄, localTypes, p₅, carried, stack,
      slots, bytes, hl, hcode, hentries, hlines, hlocals, hlocalTypes, hcarried, hstack, hslots,
      hbytes, rfl⟩
    refine Assembly.bind_eq_ok.2 ⟨_, _, _, Assembly.liftStep_eq_ok.2 ⟨hl, rfl⟩, ?_⟩
    refine Assembly.bind_eq_ok.2 ⟨_, _, _, Assembly.lift_eq_ok.2 ⟨hcode, rfl, rfl⟩, ?_⟩
    refine Assembly.bind_eq_ok.2 ⟨_, _, _, hentries, ?_⟩
    refine Assembly.bind_eq_ok.2 ⟨_, _, _, Assembly.liftStep_eq_ok.2 ⟨hlines, rfl⟩, ?_⟩
    refine Assembly.bind_eq_ok.2 ⟨_, _, _, Assembly.liftStep_eq_ok.2 ⟨hlocals, rfl⟩, ?_⟩
    refine Assembly.bind_eq_ok.2 ⟨_, _, _, Assembly.liftStep_eq_ok.2 ⟨hlocalTypes, rfl⟩, ?_⟩
    refine Assembly.bind_eq_ok.2 ⟨_, _, _, hcarried, ?_⟩
    refine Assembly.bind_eq_ok.2 ⟨_, _, _, Assembly.lift_eq_ok.2 ⟨hstack, rfl, rfl⟩, ?_⟩
    refine Assembly.bind_eq_ok.2 ⟨_, _, _, Assembly.lift_eq_ok.2 ⟨hslots, rfl, rfl⟩, ?_⟩
    refine Assembly.bind_eq_ok.2 ⟨_, _, _, Assembly.lift_eq_ok.2 ⟨hbytes, rfl, rfl⟩, ?_⟩
    rfl

/-! ## 2. Tables that fit -/

/-- Whether a node is the mark of a source line. -/
def Node.isLine : Node → Bool
  | .line _ => true
  | _ => false

/-- Every table of a method fits the 16-bit count it is written with. -/
structure Method.TablesFit (m : Method) : Prop where
  lines : m.nodes.toList.countP Node.isLine ≤ 0xffff
  handlers : m.handlers.length ≤ 0xffff
  locals : m.locals.length ≤ 0xffff
  localTypes : m.localTypes.length ≤ 0xffff

section Tables

variable {m : Method} {pool : ConstantPool} {l : Layout}

theorem LaidOut.few_lines (h : LaidOut m pool l) (fits : m.TablesFit) :
    l.lines.length ≤ 0xffff := by
  refine Nat.le_trans ?_ fits.lines
  have hplaced : l.placed.map (fun a => a.1.node) = m.nodes.toList := by
    rw [← h.map_node, h.consistent.placed_eq, ← map_fst_placedFrom 0 l.pieces, List.map_map,
      map_fst_placedFrom]
    rfl
  rw [← hplaced, List.countP_map, Layout.lines, List.length_filterMap_eq_countP]
  refine List.countP_mono_left fun a _ hsome => ?_
  obtain ⟨p, offset⟩ := a
  obtain ⟨line, hline⟩ := Option.isSome_iff_exists.1 hsome
  simp only at hline
  split at hline
  · rename_i number hnode
    show p.node.isLine = true
    rw [hnode]
    rfl
  · cases hline

theorem LaidOut.lines_fit (h : LaidOut m pool l) : ∀ line ∈ l.lines, line.1 ≤ 0xffff := by
  intro line hline
  obtain ⟨⟨p, offset⟩, -, hsome⟩ := List.mem_filterMap.1 hline
  simp only at hsome
  split at hsome
  · split at hsome
    · cases hsome
      exact (Nat.le_of_lt ‹_›).trans h.small
    · cases hsome
  · cases hsome

theorem LaidOut.offset_fits (h : LaidOut m pool l) (label : Label) : l.offsetOf label ≤ 0xffff :=
  (h.consistent.offsetOf_le label).trans h.small

theorem LaidOut.handlers_fit (h : LaidOut m pool l) {handlers : List Handler}
    {raws : List RawHandler}
    (denote : List.Forall₂ (RawHandler.Denotes pool) raws (l.handlers handlers)) :
    raws.length ≤ handlers.length ∧ ∀ raw ∈ raws, raw.Fits := by
  constructor
  · rw [denote.length_eq, Layout.handlers, List.length_map]
    exact List.length_filter_le _ _
  · intro raw hraw
    obtain ⟨mapped, hmapped, hdenotes⟩ := exists_left_of_forall₂ denote.flip hraw
    obtain ⟨handler, -, rfl⟩ := List.mem_map.1 hmapped
    have hstart : l.offsetOf handler.start = raw.start := congrArg Label.id hdenotes.start
    have hstop : l.offsetOf handler.stop = raw.stop := congrArg Label.id hdenotes.stop
    have htarget : l.offsetOf handler.handler = raw.handler := congrArg Label.id hdenotes.handler
    exact ⟨hstart ▸ h.offset_fits _, hstop ▸ h.offset_fits _, htarget ▸ h.offset_fits _⟩

theorem LaidOut.locals_fit (h : LaidOut m pool l) {records : List LocalRecord}
    {raws : List RawLocal}
    (denote : List.Forall₂ (RawLocal.Denotes pool) raws (l.locals records)) :
    raws.length ≤ records.length ∧ ∀ raw ∈ raws, raw.Fits := by
  constructor
  · rw [denote.length_eq, Layout.locals, List.length_map]
    exact List.length_filter_le _ _
  · intro raw hraw
    obtain ⟨mapped, hmapped, hdenotes⟩ := exists_left_of_forall₂ denote.flip hraw
    obtain ⟨record, hrecord, rfl⟩ := List.mem_map.1 hmapped
    have hordered : l.offsetOf record.start ≤ l.offsetOf record.stop := by
      simpa using (List.mem_filter.1 hrecord).2
    have hstart : l.offsetOf record.start = raw.start := congrArg Label.id hdenotes.start
    have hstop : l.offsetOf record.stop = raw.stop := congrArg Label.id hdenotes.stop
    rw [hstart, hstop] at hordered
    exact ⟨hordered, hstop ▸ h.offset_fits _⟩

end Tables

/-! ## 3. Attributes that are carried over -/

/-- Whether a method has no code it was read from, or code that was read. -/
def Method.OriginIsRead (m : Method) : Prop :=
  ∀ o, m.origin = some o → o.IsRead

section Carried

variable {m : Method} {pool : ConstantPool} {l : Layout} {o : CodeOrigin}

/-- A new offset is that of a label before the end. -/
theorem CodeOrigin.newOffset_eq_some {n k : Nat} (h : o.newOffset l n = some k) :
    ∃ label, l.offsetOf? label = some k ∧ k < l.codeLength := by
  obtain ⟨label, -, h⟩ := Option.bind_eq_some_iff.1 h
  obtain ⟨new, hnew, h⟩ := Option.bind_eq_some_iff.1 h
  split at h
  · rename_i hlt
    cases h
    exact ⟨label, hnew, hlt⟩
  · cases h

theorem LaidOut.newOffset_fits (h : LaidOut m pool l) (n k : Nat) (hk : o.newOffset l n = some k) :
    k ≤ 0xffff := by
  obtain ⟨-, -, hlt⟩ := CodeOrigin.newOffset_eq_some hk
  exact (Nat.le_of_lt hlt).trans h.small

theorem LaidOut.carried_kept (h : LaidOut m pool l) (read : m.OriginIsRead) :
    ∀ a ∈ m.carried l, KeptWhole a := by
  unfold Method.carried
  cases ho : m.origin with
  | none => exact fun a ha => (List.not_mem_nil ha).elim
  | some o => exact kept_of_carried h.newOffset_fits (read o ho).kept (o.isPreserved l)

/-- **Carried frames mention places for instructions**, or the end. -/
theorem LaidOut.place_of_carriedFrame (h : LaidOut m pool l) (read : m.OriginIsRead) {n : Nat}
    (hn : n ∈ lastFrameOffsets (m.carried l)) : n ∈ l.starts ∨ n = l.codeLength := by
  unfold Method.carried at hn
  cases ho : m.origin with
  | none =>
    rw [ho] at hn
    cases hn
  | some o =>
    simp only [ho] at hn
    cases hpreserved : o.isPreserved l with
    | true =>
      rw [hpreserved, filterMap_carriedAttribute_preserved] at hn
      obtain ⟨label, hlabel⟩ := (read o ho).label_of_frame hn
      unfold CodeOrigin.isPreserved at hpreserved
      have hall := List.all_eq_true.1 (Bool.and_eq_true_iff.1 hpreserved).2 _ hlabel
      exact h.place_of_offsetOf? (of_decide_eq_true hall)
    | false =>
      rw [hpreserved] at hn
      obtain ⟨old, hold⟩ := newOffset_of_carriedFrame h.newOffset_fits hn
      obtain ⟨label, hlabel, -⟩ := CodeOrigin.newOffset_eq_some hold
      exact h.place_of_offsetOf? hlabel

end Carried

/-! ## 4. Assembled bodies in parts -/

/-- Whether parts are those of a method that was laid out. -/
structure CodeParts.AreOf (m : Method) (l : Layout) (pool : ConstantPool) (parts : CodeParts) :
    Prop where
  code : l.encode = .ok parts.code.toList
  handlers : List.Forall₂ (RawHandler.Denotes pool) parts.handlers (l.handlers m.handlers)
  lines : parts.lines = l.lines
  locals : List.Forall₂ (RawLocal.Denotes pool) parts.locals (l.locals m.locals)
  localTypes : List.Forall₂ (RawLocal.Denotes pool) parts.localTypes (l.locals m.localTypes)
  frames : parts.frameOffsets = lastFrameOffsets (m.carried l)

/-- The tables and attributes of a method, sorted in one after another. -/
theorem LaidOut.sorted_attributes {m : Method} {pool : ConstantPool} {l : Layout}
    {lines locals localTypes others : List RawAttribute} (h : LaidOut m pool l)
    (fits : m.TablesFit) (read : m.OriginIsRead)
    (hlines : List.Forall₂ (RawAttribute.IsNamed pool) lines
      (namedTable AttributeName.lineNumbers (l.lines.map encodeLine)))
    (hlocals : l.HasLocals AttributeName.locals m.locals pool locals)
    (hlocalTypes : l.HasLocals AttributeName.localTypes m.localTypes pool localTypes)
    (hothers : List.Forall₂ (RawAttribute.IsNamed pool) others (m.carried l)) (parts : CodeParts)
    (code : l.encode = .ok parts.code.toList)
    (handlers : List.Forall₂ (RawHandler.Denotes pool) parts.handlers (l.handlers m.handlers))
    (hnoLines : parts.lines = []) (hnoLocals : parts.locals = [])
    (hnoTypes : parts.localTypes = []) (hnoFrames : parts.frameOffsets = []) :
    ∃ parts', (lines ++ locals ++ localTypes ++ others).foldlM (takeAttribute pool) parts =
      .ok parts' ∧ parts'.AreOf m l pool := by
  obtain ⟨raws, hraws, hnamed⟩ := hlocals
  obtain ⟨rawTypes, hrawTypes, hnamedTypes⟩ := hlocalTypes
  obtain ⟨fewLocals, localsFit⟩ := h.locals_fit hraws
  obtain ⟨fewTypes, typesFit⟩ := h.locals_fit hrawTypes
  have hsmall : ∀ entries : List RawLocal, entries.length ≤ 0xffff →
      (tableBytes (entries.map RawLocal.bytes)).length < positionLimit := by
    intro entries few
    rw [length_tableBytes RawLocal.bytes 10 entries fun _ => rfl, positionLimit]
    omega
  have hsmallLines : (tableBytes (l.lines.map encodeLine)).length < positionLimit := by
    have few := h.few_lines fits
    rw [length_tableBytes encodeLine 4 l.lines fun _ => rfl, positionLimit]
    omega
  have hrawsFew := fewLocals.trans fits.locals
  have hrawTypesFew := fewTypes.trans fits.localTypes
  refine ⟨{ parts with
    lines := parts.lines ++ l.lines
    locals := parts.locals ++ raws
    localTypes := parts.localTypes ++ rawTypes
    frameOffsets := (m.carried l).foldl frameOffsetsAfter parts.frameOffsets
    others := parts.others ++ m.carried l }, ?_, ?_⟩
  · rw [List.append_assoc, List.append_assoc, List.foldlM_append]
    refine bind_eq_ok.2 ⟨{ parts with lines := parts.lines ++ l.lines }, ?_, ?_⟩
    · rw [foldlM_takeAttribute hlines]
      refine foldlM_take_table (fun hnone => ?_)
        (take_lines (h.few_lines fits) h.lines_fit hsmallLines)
      rw [List.map_eq_nil_iff.1 hnone, List.append_nil]
    rw [List.foldlM_append]
    refine bind_eq_ok.2 ⟨{ parts with
      lines := parts.lines ++ l.lines, locals := parts.locals ++ raws }, ?_, ?_⟩
    · rw [foldlM_takeAttribute hnamed]
      refine foldlM_take_table (fun hnone => ?_)
        (take_locals hrawsFew localsFit (hsmall raws hrawsFew))
      rw [List.map_eq_nil_iff.1 hnone, List.append_nil]
    rw [List.foldlM_append]
    refine bind_eq_ok.2 ⟨{ parts with
      lines := parts.lines ++ l.lines, locals := parts.locals ++ raws
      localTypes := parts.localTypes ++ rawTypes }, ?_, ?_⟩
    · rw [foldlM_takeAttribute hnamedTypes]
      refine foldlM_take_table (fun hnone => ?_)
        (take_localTypes hrawTypesFew typesFit (hsmall rawTypes hrawTypesFew))
      rw [List.map_eq_nil_iff.1 hnone, List.append_nil]
    · rw [foldlM_takeAttribute hothers]
      exact foldlM_take_kept (h.carried_kept read)
  · refine ⟨code, handlers, ?_, ?_, ?_, ?_⟩
    · rw [hnoLines, List.nil_append]
    · rwa [hnoLocals, List.nil_append]
    · rwa [hnoTypes, List.nil_append]
    · rw [hnoFrames]
      rfl

/-- What an assembled body is put together from. -/
def Assembled.IsOf (m : Method) (l : Layout) (pool : ConstantPool) (a : Assembled) : Prop :=
  ∃ maxStack maxLocals code raws lines locals localTypes others bytes,
    l.encode = .ok code ∧
    List.Forall₂ (RawHandler.Denotes pool) raws (l.handlers m.handlers) ∧
    List.Forall₂ (RawAttribute.IsNamed pool) lines
      (namedTable AttributeName.lineNumbers (l.lines.map encodeLine)) ∧
    l.HasLocals AttributeName.locals m.locals pool locals ∧
    l.HasLocals AttributeName.localTypes m.localTypes pool localTypes ∧
    List.Forall₂ (RawAttribute.IsNamed pool) others (m.carried l) ∧
    attributesBytes (lines ++ locals ++ localTypes ++ others) = .ok bytes ∧
    a.body = be16 maxStack ++ be16 maxLocals ++ be32 (UInt32.ofNat l.codeLength) ++ code ++
      tableBytes (raws.map RawHandler.bytes) ++ bytes

/-- The length that an assembled body gives for its code is the code's. -/
theorem Layout.codeBody_eq {l : Layout} {code : Bytes} (h : l.encode = .ok code)
    (consistent : l.Consistent) (fits : l.EntriesFit) (maxStack maxLocals : UInt16)
    (raws : List RawHandler) (bytes : Bytes) :
    be16 maxStack ++ be16 maxLocals ++ be32 (UInt32.ofNat l.codeLength) ++ code ++
      tableBytes (raws.map RawHandler.bytes) ++ bytes =
        codeBody maxStack maxLocals code raws bytes := by
  rw [codeBody, l.length_of_encode h consistent fits]

/-- The switches of a body have fewer entries than it has bytes. -/
theorem Assembled.IsOf.entriesFit {m : Method} {l : Layout} {pool : ConstantPool} {a : Assembled}
    (h : a.IsOf m l pool) (consistent : l.Consistent) (few : a.body.length < 0x100000000) :
    l.EntriesFit := by
  obtain ⟨maxStack, maxLocals, code, raws, -, -, -, -, bytes, hcode, -, -, -, -, -, -, hbody⟩ := h
  refine l.entriesFit_of_encode hcode consistent ?_
  simp only [hbody, List.length_append] at few
  omega

theorem Assembled.IsOf.growsTo {m : Method} {l : Layout} {p q : ConstantPool} {a : Assembled}
    (hpq : p.GrowsTo q) (h : a.IsOf m l p) : a.IsOf m l q := by
  obtain ⟨maxStack, maxLocals, code, raws, lines, locals, localTypes, others, bytes, hcode, denote,
    named, hasLocals, hasTypes, hothers, hrest⟩ := h
  exact ⟨maxStack, maxLocals, code, raws, lines, locals, localTypes, others, bytes, hcode,
    denote.imp fun _ _ hd => hd.growsTo hpq, lasting_areNamed _ lines p q hpq named,
    hasLocals.growsTo hpq, hasTypes.growsTo hpq, hothers.imp fun _ _ hr => hr.growsTo hpq, hrest⟩

/-- **Assembling** lays a method out and writes it with the grown pool. -/
theorem isOf_of_assemble {m : Method} {p p' : ConstantPool} {log log' : Log} {a : Assembled}
    (wf : p.WellFormed) (h : assemble m p log = ((.ok a, p'), log')) :
    ∃ l q, layOut m p = (.ok l, q) ∧ p'.WellFormed ∧ p.GrowsTo p' ∧ LaidOut m p' l ∧
      a.IsOf m l p' := by
  obtain ⟨l, p₁, code, entries, p₂, log₂, lines, p₃, locals, p₄, localTypes, p₅, carried, stack,
    slots, bytes, hl, hcode, hentries, hlines, hlocals, hlocalTypes, hcarried, -, -, hbytes, rfl⟩ :=
    assemble_eq_ok.1 h
  obtain ⟨wf₁, grow₁, laid⟩ := laidOut_of_layOut wf hl
  obtain ⟨wf₂, grow₂, raws, rfl, denote⟩ :=
    finds_encodeHandlers m l m.handlers p₁ log entries p₂ log₂ wf₁ hentries
  obtain ⟨wf₃, grow₃, named⟩ := (finds_tableAttribute _ _).of_ok wf₂ hlines
  obtain ⟨wf₄, grow₄, hasLocals⟩ := (finds_localsAttribute _ l m.locals).of_ok wf₃ hlocals
  obtain ⟨wf₅, grow₅, hasTypes⟩ := (finds_localsAttribute _ l m.localTypes).of_ok wf₄ hlocalTypes
  obtain ⟨wf', grow', others, hkept, hothers⟩ :=
    finds_methodAttributes m l _ p₅ log₂ carried p' log' wf₅ hcarried
  simp only at hkept
  have grow₄' := grow₅.trans grow'
  have grow₃' := grow₄.trans grow₄'
  have grow₂' := grow₃.trans grow₃'
  refine ⟨l, p₁, hl, wf', grow₁.trans (grow₂.trans grow₂'), laid.growsTo (grow₂.trans grow₂'),
    limit m.origin CodeOrigin.maxStack stack, limit m.origin CodeOrigin.maxLocals slots, code, raws,
    lines, locals, localTypes, others, bytes, hcode, denote.imp fun _ _ hd => hd.growsTo grow₂',
    lasting_areNamed _ lines p₃ p' grow₃' named, hasLocals.growsTo grow₄', hasTypes.growsTo grow',
    hothers, by rwa [← hkept], rfl⟩

/-- After laying out, assembling only adds constants. -/
theorem growsTo_of_layOut {m : Method} {p q p' : ConstantPool} {l : Layout} {log log' : Log}
    {a : Assembled} (wf : p.WellFormed) (hl : layOut m p = (.ok l, q))
    (h : assemble m p log = ((.ok a, p'), log')) : q.GrowsTo p' := by
  obtain ⟨l', p₁, code, entries, p₂, log₂, lines, p₃, locals, p₄, localTypes, p₅, carried, stack,
    slots, bytes, hl', -, hentries, hlines, hlocals, hlocalTypes, hcarried, -⟩ := assemble_eq_ok.1 h
  cases hl.symm.trans hl'
  obtain ⟨wf₁, -, -⟩ := laidOut_of_layOut wf hl
  obtain ⟨wf₂, grow₂, -⟩ := finds_encodeHandlers m l m.handlers q log entries p₂ log₂ wf₁ hentries
  obtain ⟨wf₃, grow₃, -⟩ := (finds_tableAttribute _ _).of_ok wf₂ hlines
  obtain ⟨wf₄, grow₄, -⟩ := (finds_localsAttribute _ l m.locals).of_ok wf₃ hlocals
  obtain ⟨wf₅, grow₅, -⟩ := (finds_localsAttribute _ l m.localTypes).of_ok wf₄ hlocalTypes
  obtain ⟨-, grow', -⟩ := finds_methodAttributes m l _ p₅ log₂ carried p' log' wf₅ hcarried
  exact grow₂.trans (grow₃.trans (grow₄.trans (grow₅.trans grow')))

/-- Assembling keeps pools well-formed and grows them. -/
theorem finds_assemble (m : Method) : Assembly.Finds (assemble m) fun q a =>
    ∃ l, LaidOut m q l ∧ a.IsOf m l q := by
  intro p log a q log' wf h
  obtain ⟨l, _, -, hwf, hgrow, laid, ha⟩ := isOf_of_assemble wf h
  exact ⟨hwf, hgrow, l, laid, ha⟩

/-- **An assembled body is read as its parts.** -/
theorem LaidOut.read {m : Method} {pool : ConstantPool} {l : Layout} {a : Assembled}
    (laid : LaidOut m pool l) (counted : l.EntriesFit) (fits : m.TablesFit)
    (read : m.OriginIsRead) (ha : a.IsOf m l pool) :
    ∃ parts, CodeParts.read pool a.body = .ok parts ∧ parts.AreOf m l pool := by
  obtain ⟨maxStack, maxLocals, code, raws, lines, locals, localTypes, others, bytes, hcode, denote,
    named, hasLocals, hasTypes, hothers, hbytes, hbody⟩ := ha
  obtain ⟨fewHandlers, handlersFit⟩ := laid.handlers_fit denote
  obtain ⟨parts, htake, hparts⟩ := laid.sorted_attributes fits read named hasLocals hasTypes hothers
    { maxStack, maxLocals, code := code.toArray, handlers := raws } hcode denote rfl rfl rfl rfl
  refine ⟨parts, ?_, hparts⟩
  rw [hbody, l.codeBody_eq hcode laid.consistent counted]
  exact read_codeBody (l.length_of_encode hcode laid.consistent counted ▸ laid.small)
    (fewHandlers.trans fits.handlers) handlersFit hbytes htake

end Rewire
