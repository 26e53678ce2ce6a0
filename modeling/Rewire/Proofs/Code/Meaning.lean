import Mathlib
import Rewire.Proofs.Code.Assembling
import Rewire.Proofs.Code.Decoded
import Rewire.Proofs.Pool.Units

/-!
# What operands mean

An operand is a slot, and what it means are the units that the slot leads to. Decoding reads them as
texts and assembling requests constants for the texts. This file shows

* that the operand of a decoded instruction leads to units that read as the texts of the instruction
  (`texts_of_decode`);
* that the operand that is written for an instruction leads to the units of its texts
  (`operandAt?_of_encode`, `Insn.Held.reachedUnits`), where the instruction was laid out
  (`Layout.Consistent.heldAt`);
* that a method which is assembled as it was decoded keeps what its operands mean, apart from
  surrogates without a partner (`mendsOperands_of_assemble`).
-/

namespace Rewire

open ConstantPool

/-! ## 1. Operands and their texts -/

/-- The slot that the instruction at an offset has for an operand, if slots of its format are looked
    up. -/
def operandAt? (code : Array UInt8) (offset : Nat) : Option UInt16 :=
  match formatAt code offset with
  | .ok .ldc => (u8At code (offset + 1)).toOption.map UInt8.toUInt16
  | .ok (.ldcWide _) | .ok .field | .ok (.call _) | .ok .type | .ok .multiANewArray =>
    (u16At code (offset + 1)).toOption
  | _ => none

/-- Whether an instruction has an operand that is looked up. -/
def Insn.HasOperand : Insn → Prop
  | ldc _ | field _ _ | call _ | type _ _ | multiANewArray _ _ => True
  | _ => False

/-- What is requested for the operand of an instruction. -/
def Insn.request? : Insn → Option Request
  | ldc (.int value) => some (.integer value)
  | ldc (.float bits) => some (.float bits)
  | ldc (.long value) => some (.long value)
  | ldc (.double bits) => some (.double bits)
  | ldc (.string text) => some (.string text)
  | ldc (.classRef name) => some (.classRef name)
  | field _ m => some (.field m)
  | call site => some (.method site.toMemberRef)
  | type _ name | multiANewArray name _ => some (.classRef name)
  | _ => none

/-- The texts in the operand of an instruction. -/
def Insn.texts (i : Insn) : List String :=
  (i.request?.map Request.texts).getD []

/-- An operand is requested as it says. -/
theorem internOperand_eq_intern {i : Insn} {r : Request} (h : i.request? = some r) :
    internOperand i = r.intern := by
  cases i with
  | ldc value =>
    cases value with
    | pooled => cases h
    | _ =>
      cases h
      rfl
  | field | call | type | multiANewArray =>
    cases h
    rfl
  | _ => cases h

section Insns

variable {code : Array UInt8} {pool : ConstantPool} {labels : LabelTable} {offset : Nat} {i : Insn}
  {index : UInt16}

/-! ## 2. Reading -/

theorem texts_of_loadable {wide : Bool} {value : Loadable}
    (h : decodeLoadable pool index wide = .ok value) :
    ∃ texts, pool.reachedUnits index = .ok texts ∧ texts.map ofUnits16 = (Insn.ldc value).texts := by
  obtain ⟨c, hc, h⟩ := bind_eq_ok.1 h
  cases c with
  | string text =>
    obtain ⟨s, hs, h⟩ := bind_eq_ok.1 h
    cases h
    obtain ⟨units, hunits, rfl⟩ := units_of_text hs
    exact ⟨[units], bind_eq_ok.2 ⟨_, hc, bind_eq_ok.2 ⟨_, hunits, rfl⟩⟩, rfl⟩
  | classRef name =>
    obtain ⟨s, hs, h⟩ := bind_eq_ok.1 h
    cases h
    obtain ⟨units, hunits, rfl⟩ := units_of_text hs
    exact ⟨[units], bind_eq_ok.2 ⟨_, hc, bind_eq_ok.2 ⟨_, hunits, rfl⟩⟩, rfl⟩
  | methodType _ | methodHandle _ _ | dynamic _ _ | integer _ | float _ | long _ | double _ =>
    cases h
    exact ⟨[], bind_eq_ok.2 ⟨_, hc, rfl⟩, rfl⟩
  | _ => cases h

/-- **The operand of a decoded instruction** leads to units that read as its texts. -/
theorem texts_of_decode (h : decodeInsn code pool labels offset = .ok i)
    (hindex : operandAt? code offset = some index) :
    i.HasOperand ∧ ∃ texts, pool.reachedUnits index = .ok texts ∧ texts.map ofUnits16 = i.texts := by
  obtain ⟨op, format, -, hformat, hi⟩ := decodedAs_of_decode h
  rw [operandAt?, hformat] at hindex
  cases hi with
  | ldc hat hvalue =>
    simp only [hat] at hindex
    cases hindex
    exact ⟨trivial, texts_of_loadable hvalue⟩
  | ldcWide hat hvalue =>
    simp only [hat] at hindex
    cases hindex
    exact ⟨trivial, texts_of_loadable hvalue⟩
  | field hat hm =>
    simp only [hat] at hindex
    cases hindex
    exact ⟨trivial, reachedUnits_of_memberRef hm⟩
  | call hat hm =>
    simp only [hat] at hindex
    cases hindex
    exact ⟨trivial, reachedUnits_of_memberRef hm⟩
  | type hat hname =>
    simp only [hat] at hindex
    cases hindex
    exact ⟨trivial, reachedUnits_of_className hname⟩
  | multiANewArray dimensions hat hname =>
    simp only [hat] at hindex
    cases hindex
    exact ⟨trivial, reachedUnits_of_className hname⟩
  | _ => cases hindex

/-! ## 3. Writing -/

/-- Whether a two-byte slot that is looked up follows the opcode. -/
def Format.HasSlot : Format → Prop
  | ldcWide _ | field | call _ | type | multiANewArray => True
  | _ => False

theorem operandAt?_of_bytesAt {op : UInt8} {operand : UInt16} (more : Bytes) {format : Format}
    (hat : BytesAt code offset (op :: (be16 operand ++ more)))
    (hformat : Format.of? op = some format) (has : format.HasSlot) :
    operandAt? code offset = some operand := by
  have hindex := u16At_of_bytesAt (bytesAt_append.1 (bytesAt_cons.1 hat).2).1
  rw [operandAt?, formatAt_eq hat hformat]
  cases format with
  | ldcWide | field | call | type | multiANewArray =>
    simp only [hindex]
    rfl
  | _ => cases has

theorem operandAt?_of_ldc {value : Loadable} {operand : UInt16}
    (hat : BytesAt code offset (encodeLdc value operand)) :
    operandAt? code offset = some operand := by
  unfold encodeLdc at hat
  have htwo : ∀ {op : UInt8} {wide : Bool}, BytesAt code offset (op :: be16 operand) →
      Format.of? op = some (.ldcWide wide) → operandAt? code offset = some operand :=
    fun hat hformat => operandAt?_of_bytesAt [] (by rwa [List.append_nil]) hformat trivial
  split at hat
  · exact htwo hat rfl
  split at hat
  · rename_i hsmall
    have hindex := u8At_of_bytesAt (bytesAt_cons.1 hat).2
    rw [operandAt?, formatAt_eq hat rfl]
    simp only [hindex]
    show some operand.toUInt8.toUInt16 = some operand
    rw [toUInt16_toUInt8 hsmall]
  · exact htwo hat rfl

/-- **The operand that is written** is the one the instruction was given. -/
theorem operandAt?_of_encode {operand : UInt16} {wide : Bool} {target : Label → Nat} {bytes : Bytes}
    (h : i.encode offset operand wide target = .ok bytes) (hat : BytesAt code offset bytes)
    (form : i.OpcodeFits) (has : i.HasOperand) : operandAt? code offset = some operand := by
  cases i with
  | ldc value =>
    cases h
    exact operandAt?_of_ldc hat
  | field op m =>
    cases h
    exact operandAt?_of_bytesAt [] (by rwa [List.append_nil]) ((Format.goesWith op).field form) trivial
  | call site =>
    simp only [Insn.encode] at h
    split at h
    · obtain ⟨_, -, h⟩ := bind_eq_ok.1 h
      obtain ⟨_, -, h⟩ := bind_eq_ok.1 h
      obtain ⟨_, -, h⟩ := bind_eq_ok.1 h
      obtain ⟨count, -, h⟩ := bind_eq_ok.1 h
      cases h
      exact operandAt?_of_bytesAt [count, 0] hat (Format.of?_call site.kind) trivial
    · cases h
      exact operandAt?_of_bytesAt [] (by rwa [List.append_nil]) (Format.of?_call site.kind) trivial
  | type op name =>
    cases h
    exact operandAt?_of_bytesAt [] (by rwa [List.append_nil]) ((Format.goesWith op).type form) trivial
  | multiANewArray name dimensions =>
    cases h
    exact operandAt?_of_bytesAt [dimensions] hat rfl trivial
  | _ => cases has

end Insns

/-! ## 4. Elements -/

/-- Whether a slot is the one that an instruction keeps, or holds what is requested for it. -/
structure Insn.Held (pool : ConstantPool) (operand : UInt16) (i : Insn) : Prop where
  kept : ∀ index, i.keptSlot? = some index → operand = index
  held : ∀ r, i.request? = some r → r.Holds pool operand

/-- **A slot that holds what is requested** for an instruction leads to the units of its texts. -/
theorem Insn.Held.reachedUnits {pool : ConstantPool} {operand : UInt16} {i : Insn}
    (h : i.Held pool operand) (has : i.HasOperand) (agrees : i.AgreesWith pool) :
    pool.reachedUnits operand = .ok (i.texts.map units16) := by
  cases hrequest : i.request? with
  | some r =>
    rw [Insn.texts, hrequest]
    exact (h.held r hrequest).reachedUnits
  | none =>
    cases i with
    | ldc value =>
      cases value with
      | pooled index wide =>
        obtain ⟨c, hc, hslot⟩ := agrees
        rw [h.kept index rfl]
        refine bind_eq_ok.2 ⟨c, hc, ?_⟩
        cases c with
        | methodType | methodHandle | dynamic => rfl
        | _ => cases hslot
      | _ => cases hrequest
    | field | call | type | multiANewArray => cases hrequest
    | _ => cases has

/-- Whether an element is a node whose operand is held. -/
structure Piece.HoldsNode (pool : ConstantPool) (node : Node) (p : Piece) : Prop where
  node_eq : p.node = node
  held : ∀ i, node = .insn i → i.Held pool p.operand

theorem lasting_holdsNode (node : Node) (p : Piece) :
    Lasting fun pool => p.HoldsNode pool node :=
  fun pool pool' hgrow h => ⟨h.node_eq, fun i hi => ⟨(h.held i hi).kept, fun r hr =>
    Request.lasting_holds r p.operand pool pool' hgrow ((h.held i hi).held r hr)⟩⟩

/-- **Every operand is held** in the slot it is given. -/
theorem finds_held (i : Insn) : Finds (internOperand i) fun q k => i.Held q k := by
  cases hrequest : i.request? with
  | some r =>
    rw [internOperand_eq_intern hrequest]
    refine (Request.finds_request r).weaken fun q k hk => ⟨fun index hindex => ?_, fun r' hr' => ?_⟩
    · cases i with
      | ldc value =>
        cases value with
        | pooled => cases hrequest
        | _ => cases hindex
      | invokeDynamic => cases hrequest
      | _ => cases hindex
    · rw [hrequest] at hr'
      cases hr'
      exact hk
  | none =>
    have hpure : ∀ index : UInt16, (∀ slot, i.keptSlot? = some slot → index = slot) →
        Finds (pure index) fun q k => i.Held q k := fun index hindex =>
      (finds_pure index).weaken fun q k hk =>
        ⟨fun slot hslot => hk.trans (hindex slot hslot), fun r hr => nomatch hrequest.symm.trans hr⟩
    cases i with
    | ldc value =>
      cases value with
      | pooled index wide => exact hpure index fun slot hslot => Option.some.inj hslot
      | _ => cases hrequest
    | invokeDynamic index => exact hpure index fun slot hslot => Option.some.inj hslot
    | field | call | type | multiANewArray => cases hrequest
    | _ => exact hpure 0 nofun

theorem finds_holdsNode (node : Node) :
    Finds (internPiece node) fun q p => p.HoldsNode q node := by
  cases node with
  | insn i =>
    have h := finds_bind (finds_held i) (fun k p q hgrow hk => ⟨hk.kept, fun r hr =>
      Request.lasting_holds r k p q hgrow (hk.held r hr)⟩)
      fun k => finds_pure ({ node := .insn i, operand := k } : Piece)
    refine h.weaken fun q p ⟨k, hk, hp⟩ => ?_
    subst hp
    exact ⟨rfl, fun j hj => by cases hj; exact hk⟩
  | label l =>
    exact (finds_pure _).weaken fun q p hp => ⟨by rw [hp], nofun⟩
  | line n =>
    exact (finds_pure _).weaken fun q p hp => ⟨by rw [hp], nofun⟩

theorem holdsNode_widened {pool : ConstantPool} {nodes : List Node} {pieces widened : List Piece}
    (h : List.Forall₂ (fun node p => p.HoldsNode pool node) nodes pieces)
    (same : SameNodes pieces widened) :
    List.Forall₂ (fun node p => p.HoldsNode pool node) nodes widened := by
  induction h generalizing widened with
  | nil =>
    cases same
    exact .nil
  | cons hp _ ih =>
    cases same with
    | cons hq hrest =>
      refine .cons ⟨hq.1.trans hp.node_eq, fun i hi => ?_⟩ (ih hrest)
      rw [hq.2]
      exact hp.held i hi

/-- **The elements of a layout** hold the operands of the nodes. -/
theorem holdsNode_of_layOut {m : Method} {p q : ConstantPool} {l : Layout} (wf : p.WellFormed)
    (h : layOut m p = (.ok l, q)) :
    List.Forall₂ (fun node piece => piece.HoldsNode q node) m.nodes.toList l.pieces := by
  obtain ⟨-, positions, pieces, -, -, hpieces, rfl, -⟩ := layOut_eq_ok.1 h
  obtain ⟨-, -, hheld⟩ := (finds_mapM (fun node _ => finds_holdsNode node) lasting_holdsNode
    (l := m.nodes.toList)).of_ok wf hpieces
  exact holdsNode_widened hheld (sameNodes_widenAll positions pieces)

/-! ## 5. Places -/

/-- Where the instructions of a layout start. -/
def Layout.insnOffsets (l : Layout) : List Nat :=
  l.placed.filterMap fun (p, offset) => p.node.insn?.map fun _ => offset

/-- Whether an instruction stands at an offset with an operand that is held. -/
def Insn.HeldAt (pool : ConstantPool) (code : Array UInt8) (target : Label → Nat) (i : Insn)
    (offset : Nat) : Prop :=
  ∃ operand wide bytes, i.Held pool operand ∧ i.encode offset operand wide target = .ok bytes ∧
    BytesAt code offset bytes

theorem heldAt_placedFrom {pool : ConstantPool} {code : Array UInt8} {target : Label → Nat}
    {offset : Nat} {nodes : List Node} {pieces : List Piece} {chunks : List Bytes}
    (held : List.Forall₂ (fun node p => p.HoldsNode pool node) nodes pieces)
    (fits : ∀ p ∈ pieces, ∀ i, p.node = .insn i → i.EntriesFit)
    (h : (placedFrom offset pieces).mapM (Piece.encode target) = .ok chunks)
    (hat : BytesAt code offset chunks.flatten) :
    List.Forall₂ (Insn.HeldAt pool code target) (nodes.filterMap Node.insn?)
      ((placedFrom offset pieces).filterMap fun (p, offset) => p.node.insn?.map fun _ => offset) := by
  induction held generalizing offset chunks with
  | nil => exact .nil
  | @cons node p nodes pieces hp _ ih =>
    rw [placedFrom, List.mapM_cons] at h
    obtain ⟨bytes, hbytes, h⟩ := bind_eq_ok.1 h
    obtain ⟨more, hmore, h⟩ := bind_eq_ok.1 h
    cases h
    obtain ⟨hfirst, hrest⟩ := bytesAt_append.1 hat
    rw [length_pieceEncode hbytes (fits p List.mem_cons_self)] at hrest
    have hrest := ih (fun q hq => fits q (List.mem_cons_of_mem _ hq)) hmore hrest
    rw [placedFrom, List.filterMap_cons, List.filterMap_cons]
    simp only [hp.node_eq]
    cases node with
    | insn i =>
      unfold Piece.encode at hbytes
      simp only [hp.node_eq] at hbytes
      exact .cons ⟨p.operand, p.wide, bytes, hp.held i rfl, hbytes, hfirst⟩ hrest
    | _ => exact hrest

/-- The instructions of a method stand where they were laid out. -/
theorem Layout.Consistent.heldAt {pool : ConstantPool} {l : Layout} {nodes : List Node} {code : Bytes}
    (consistent : l.Consistent) (fits : l.EntriesFit)
    (held : List.Forall₂ (fun node p => p.HoldsNode pool node) nodes l.pieces)
    (h : l.encode = .ok code) :
    List.Forall₂ (Insn.HeldAt pool code.toArray l.offsetOf) (nodes.filterMap Node.insn?)
      l.insnOffsets := by
  obtain ⟨chunks, hchunks, h⟩ := bind_eq_ok.1 h
  cases h
  rw [consistent.placed_eq] at hchunks
  rw [Layout.insnOffsets, consistent.placed_eq]
  refine heldAt_placedFrom held fits hchunks ?_
  simpa using bytesAt_of_append [] chunks.flatten []

/-- **The instructions of a decoded method** are those at the starts, in order. -/
theorem insns_of_decode {parts : CodeParts} {pool : ConstantPool} {labels : LabelTable}
    {lines : Std.HashMap Nat (List UInt16)} {starts : List Nat} {nodes : List (List Node)}
    (h : starts.mapM (nodesAt parts pool labels lines) = .ok nodes) (atEnd : List Label) :
    List.Forall₂ (fun offset i => decodeInsn parts.code pool labels offset = .ok i) starts
      ((nodes.flatten ++ atEnd.map Node.label).filterMap Node.insn?) := by
  have hmarks : ∀ {α : Type} (f : α → Node), (∀ a, (f a).insn? = none) → ∀ marks : List α,
      (marks.map f).filterMap Node.insn? = [] := by
    intro α f hf marks
    rw [List.filterMap_map]
    exact List.filterMap_eq_nil_iff.2 fun a _ => hf a
  rw [List.filterMap_append, hmarks Node.label fun _ => rfl, List.append_nil]
  rw [mapM_eq_ok] at h
  induction h with
  | nil => exact .nil
  | cons hnodes _ ih =>
    obtain ⟨i, hi, hnodes⟩ := bind_eq_ok.1 hnodes
    cases hnodes
    rw [List.flatten_cons, List.filterMap_append, List.filterMap_append, List.filterMap_append,
      hmarks Node.label fun _ => rfl, hmarks Node.line fun _ => rfl]
    exact .cons (during_eq_ok.1 hi) ih

/-! ## 6. Methods -/

theorem exists_insns_of_decode {pool : ConstantPool} {blank m : Method} {body : Bytes}
    (h : decodeMethod pool blank body = .ok m) : ∃ parts scan labels,
      CodeParts.read pool body = .ok parts ∧ scanCode parts.code = .ok scan ∧
      List.Forall₂ (fun offset i => decodeInsn parts.code pool labels offset = .ok i)
        scan.starts.toList (m.nodes.toList.filterMap Node.insn?) := by
  obtain ⟨parts, scan, offsets, nodes, _, _, _, hread, hscan, -, hnodes, -, -, -, rfl⟩ :=
    decodeMethod_eq_ok.1 h
  exact ⟨parts, scan, _, hread, hscan, insns_of_decode hnodes _⟩

/-- Whether the operand of an instruction, if it is looked up, leads to the same units as that of
    another one, apart from surrogates without a partner, which are replaced there. -/
def OperandMended (p q : ConstantPool) (code code' : Array UInt8) (offset offset' : Nat) : Prop :=
  ∀ index, operandAt? code offset = some index → ∃ index' texts,
    operandAt? code' offset' = some index' ∧ p.reachedUnits index = .ok texts ∧
      q.reachedUnits index' = .ok (texts.map mendUnits)

theorem operandMended_of_heldAt {pool q : ConstantPool} {code code' : Array UInt8}
    {labels : LabelTable} {target : Label → Nat} {offset offset' : Nat} {i : Insn}
    (grown : pool.GrowsTo q) (hdecode : decodeInsn code pool labels offset = .ok i)
    (h : i.HeldAt q code' target offset') : OperandMended pool q code code' offset offset' := by
  intro index hindex
  obtain ⟨has, texts, htexts, hread⟩ := texts_of_decode hdecode hindex
  obtain ⟨operand, wide, bytes, held, hbytes, hat⟩ := h
  have hvar : i.VarFits := by
    cases i with
    | var => cases has
    | _ => trivial
  have hoperand := operandAt?_of_encode hbytes hat (opcodeFits_of_decode hdecode hvar) has
  refine ⟨operand, texts, hoperand, htexts, ?_⟩
  rw [held.reachedUnits has ((agreesWith_of_decode hdecode).growsTo grown), ← hread, List.map_map]
  exact congrArg _ (List.map_congr_left fun units _ => units16_ofUnits16 units)

/-- Whether an assembled body has the operands of the body that its method was decoded from, one
    instruction after another, apart from surrogates without a partner. -/
def Assembled.MendsOperands (a : Assembled) (m : Method) (body : Bytes)
    (pool p q : ConstantPool) : Prop :=
  ∃ parts scan l code maxStack maxLocals handlers attributes,
    CodeParts.read pool body = .ok parts ∧ scanCode parts.code = .ok scan ∧
    (layOut m p).1 = .ok l ∧ l.encode = .ok code ∧
    a.body = codeBody maxStack maxLocals code handlers attributes ∧
    List.Forall₂ (OperandMended pool q parts.code code.toArray) scan.starts.toList l.insnOffsets

/-- **A method that is assembled as it was decoded** has its instructions where they were laid out, in
    the order in which they were decoded, with operands that are held. The pool may have grown in
    between. -/
theorem heldAt_of_assemble {pool p q : ConstantPool} {blank m : Method} {body : Bytes} {a : Assembled}
    {log log' : Log} (hm : decodeMethod pool blank body = .ok m) (wf : p.WellFormed)
    (h : assemble m p log = ((.ok a, q), log')) :
    q.WellFormed ∧ p.GrowsTo q ∧ ∃ parts scan l code maxStack maxLocals handlers attributes,
      CodeParts.read pool body = .ok parts ∧ scanCode parts.code = .ok scan ∧
      (layOut m p).1 = .ok l ∧ l.encode = .ok code ∧
      a.body = codeBody maxStack maxLocals code handlers attributes ∧
      List.Forall₂ (fun offset offset' => ∃ labels i,
        decodeInsn parts.code pool labels offset = .ok i ∧
          i.HeldAt q code.toArray l.offsetOf offset') scan.starts.toList l.insnOffsets := by
  obtain ⟨l, p₁, hl, wfq, hpq, laid, maxStack, maxLocals, code, handlers, -, -, -, -, attributes,
    hcode, -, -, -, -, -, -, hbody⟩ := isOf_of_assemble wf h
  obtain ⟨parts, scan, labels, hread, hscan, hinsns⟩ := exists_insns_of_decode hm
  have counted := laid.entriesFit (Method.entriesFit_of_decode hm)
  rw [l.codeBody_eq hcode laid.consistent counted] at hbody
  refine ⟨wfq, hpq, parts, scan, l, code, maxStack, maxLocals, handlers, attributes, hread, hscan,
    by rw [hl], hcode, hbody, ?_⟩
  have hheld := (holdsNode_of_layOut wf hl).imp fun node piece =>
    lasting_holdsNode node piece p₁ q (growsTo_of_layOut wf hl h)
  exact forall₂_comp hinsns (laid.consistent.heldAt counted hheld hcode) fun offset i offset' hdecode hat =>
    ⟨labels, i, hdecode, hat⟩

/-- **A method that is assembled as it was decoded** keeps what its operands mean, apart from
    surrogates without a partner. The pool may have grown in between. -/
theorem mendsOperands_of_assemble {pool p q : ConstantPool} {blank m : Method} {body : Bytes}
    {a : Assembled} {log log' : Log} (hm : decodeMethod pool blank body = .ok m)
    (grown : pool.GrowsTo p) (wf : p.WellFormed) (h : assemble m p log = ((.ok a, q), log')) :
    a.MendsOperands m body pool p q := by
  obtain ⟨-, hpq, parts, scan, l, code, maxStack, maxLocals, handlers, attributes, hread, hscan, hl,
    hcode, hbody, hplaces⟩ := heldAt_of_assemble hm wf h
  refine ⟨parts, scan, l, code, maxStack, maxLocals, handlers, attributes, hread, hscan, hl, hcode,
    hbody, hplaces.imp ?_⟩
  rintro offset offset' ⟨labels, i, hdecode, hat⟩
  exact operandMended_of_heldAt (grown.trans hpq) hdecode hat

end Rewire
