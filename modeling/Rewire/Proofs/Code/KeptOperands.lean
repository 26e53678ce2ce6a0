import Mathlib
import Rewire.Proofs.Code.Meaning
import Rewire.Proofs.Pool.Canonical

/-!
# Operands that are kept

Decoding resolves the slots that instructions name, and assembling requests slots for what they
denote. In a pool without duplicates these are the same slots, as long as a field is named by a field
reference and a method by a method reference. This file shows

* what a decoded instruction asks for is what its slot denotes (`names_of_decode`);
* so the operands of a decoded method are interned without a change to the pool
  (`internPieces_of_decode`), and each instruction that is assembled names the slot it was decoded
  with (`keptSlots_of_assemble`).
-/

namespace Rewire

open ConstantPool

/-! ## 1. Slots of instructions -/

/-- The slot that the instruction at an offset names. -/
def slotAt? (code : Array UInt8) (offset : Nat) : Option UInt16 :=
  match formatAt code offset with
  | .ok .invokeDynamic => (u16At code (offset + 1)).toOption
  | _ => operandAt? code offset

/-- Whether the instruction at an offset names a field if it accesses one, and a method if it calls
    one. -/
structure NamesMember (pool : ConstantPool) (code : Array UInt8) (offset : Nat) : Prop where
  field : formatAt code offset = .ok .field → ∀ index, u16At code (offset + 1) = .ok index →
    ∃ owner member, pool.get index = .ok (.fieldRef owner member)
  method : ∀ kind, formatAt code offset = .ok (.call kind) →
    ∀ index, u16At code (offset + 1) = .ok index → ∃ owner member,
      pool.get index = .ok (.methodRef owner member) ∨
        pool.get index = .ok (.interfaceMethodRef owner member)

/-- Whether a slot denotes what is requested for an instruction, or is the one that it keeps. -/
inductive Insn.Names (pool : ConstantPool) (index : UInt16) (i : Insn) : Prop where
  | requested (r : Request) (hr : i.request? = some r) (hat : r.IsAt pool index)
  | kept (hkept : i.keptSlot? = some index)

section Insns

variable {code : Array UInt8} {pool : ConstantPool} {labels : LabelTable} {offset : Nat} {i : Insn}
  {index : UInt16}

theorem slotAt?_of_operandAt? (h : operandAt? code offset = some index) :
    slotAt? code offset = some index := by
  unfold slotAt?
  split
  · rename_i hformat
    rw [operandAt?, hformat] at h
    cases h
  · exact h

theorem names_of_loadable {wide : Bool} {value : Loadable}
    (h : decodeLoadable pool index wide = .ok value) : (Insn.ldc value).Names pool index := by
  obtain ⟨c, hc, h⟩ := bind_eq_ok.1 h
  cases c with
  | string text =>
    obtain ⟨s, hs, h⟩ := bind_eq_ok.1 h
    cases h
    exact .requested (.string s) rfl ⟨text, hc, hs⟩
  | classRef name =>
    obtain ⟨s, hs, h⟩ := bind_eq_ok.1 h
    cases h
    exact .requested (.classRef s) rfl (bind_eq_ok.2 ⟨_, hc, hs⟩)
  | integer value =>
    cases h
    exact .requested (.integer value) rfl hc
  | float bits =>
    cases h
    exact .requested (.float bits) rfl hc
  | long value =>
    cases h
    exact .requested (.long value) rfl hc
  | double bits =>
    cases h
    exact .requested (.double bits) rfl hc
  | methodType _ | methodHandle _ _ | dynamic _ _ =>
    cases h
    exact .kept rfl
  | _ => cases h

/-- A computed call is decoded with the slot it names. -/
theorem slotAt?_of_invokeDynamic (h : decodeInsn code pool labels offset = .ok i)
    (hformat : formatAt code offset = .ok .invokeDynamic) :
    ∃ index, slotAt? code offset = some index ∧ i.keptSlot? = some index := by
  obtain ⟨op, format, -, hformat', h⟩ := decodeInsn_eq_ok.1 h
  cases hformat.symm.trans hformat'
  obtain ⟨index, hindex, h⟩ := bind_eq_ok.1 h
  obtain ⟨name, descriptor, rfl, -⟩ := computedCall_eq h
  refine ⟨index, ?_, rfl⟩
  rw [slotAt?, hformat]
  simp only [hindex]
  rfl

/-- **A decoded instruction asks for what its slot denotes**, or names no slot. -/
theorem names_of_decode (h : decodeInsn code pool labels offset = .ok i)
    (direct : NamesMember pool code offset) :
    (∃ index, slotAt? code offset = some index ∧ i.Names pool index) ∨
      slotAt? code offset = none ∧ internOperand i = pure 0 := by
  obtain ⟨op, format, -, hformat, hi⟩ := decodedAs_of_decode h
  -- the formats without a slot differ only in the instruction that they stand for
  have hnone : (match format with
      | .ldc | .ldcWide _ | .field | .call _ | .type | .multiANewArray | .invokeDynamic => False
      | _ => True) → slotAt? code offset = none := by
    intro hplain
    rw [slotAt?, operandAt?, hformat]
    cases format <;> first | rfl | exact hplain.elim
  have hslot : ∀ {k : UInt16}, u16At code (offset + 1) = .ok k → format.HasSlot →
      slotAt? code offset = some k := by
    intro k hk has
    refine slotAt?_of_operandAt? ?_
    rw [operandAt?, hformat]
    cases format with
    | ldcWide | field | call | type | multiANewArray =>
      simp only [hk]
      rfl
    | _ => cases has
  cases hi with
  | @ldc index value hindex hvalue =>
    refine .inl ⟨index.toUInt16, slotAt?_of_operandAt? ?_, names_of_loadable hvalue⟩
    rw [operandAt?, hformat]
    simp only [hindex]
    rfl
  | ldcWide hindex hvalue => exact .inl ⟨_, hslot hindex trivial, names_of_loadable hvalue⟩
  | @field index m hindex hm =>
    obtain ⟨owner, member, hget⟩ := direct.field hformat index hindex
    obtain ⟨_, hc, hresolve⟩ := bind_eq_ok.1 hm
    obtain rfl := Except.ok.inj (hget.symm.trans hc)
    have hkind : m.interface = false := (resolve_eq_ok.1 hresolve).2.2
    refine .inl ⟨index, hslot hindex trivial, .requested (.field m.toMember) rfl
      ⟨⟨owner, member, hget⟩, ?_⟩⟩
    rw [hm, ← hkind]
  | @call kind index m hindex hm =>
    obtain ⟨owner, member, hget⟩ := direct.method kind hformat index hindex
    refine .inl ⟨index, hslot hindex trivial, .requested (.method m) rfl ⟨?_, hm⟩⟩
    rintro ⟨owner', member', hfield⟩
    rcases hget with hget | hget
    · cases hget.symm.trans hfield
    · cases hget.symm.trans hfield
  | invokeDynamic =>
    obtain ⟨index, hindex, hkept⟩ := slotAt?_of_invokeDynamic h hformat
    exact .inl ⟨index, hindex, .kept hkept⟩
  | type hindex hname =>
    exact .inl ⟨_, hslot hindex trivial, .requested (.classRef _) rfl hname⟩
  | multiANewArray dimensions hindex hname =>
    exact .inl ⟨_, hslot hindex trivial, .requested (.classRef _) rfl hname⟩
  | _ => exact .inr ⟨hnone trivial, rfl⟩

/-- An instruction that names a slot has an opcode of its form. -/
theorem Insn.Names.opcodeFits (h : i.Names pool index)
    (hdecode : decodeInsn code pool labels offset = .ok i) : i.OpcodeFits := by
  refine opcodeFits_of_decode hdecode ?_
  cases i with
  | var =>
    cases h with
    | requested r hr => cases hr
    | kept hkept => cases hkept
  | _ => trivial

end Insns

/-! ## 2. Operands -/

section Operands

variable {p q : ConstantPool} {i : Insn} {index operand : UInt16}

/-- The operand of an instruction that names a slot is that slot, and nothing is added. -/
theorem Insn.Names.intern (h : i.Names p index) (wf : p.WellFormed) (canonical : p.IsCanonical) :
    internOperand i p = (.ok index, p) := by
  cases h with
  | requested r hr hat =>
    rw [internOperand_eq_intern hr]
    exact hat.intern wf canonical
  | kept hkept =>
    cases i with
    | ldc value =>
      cases value with
      | pooled =>
        cases hkept
        rfl
      | _ => cases hkept
    | invokeDynamic =>
      cases hkept
      rfl
    | _ => cases hkept

/-- An operand that is held after the pool grew is the slot that the instruction named before. -/
theorem Insn.Names.eq_of_held (h : i.Names p index) (wf : p.WellFormed) (canonical : p.IsCanonical)
    (wf' : q.WellFormed) (grown : p.GrowsTo q) (held : i.Held q operand) : operand = index := by
  cases h with
  | requested r hr hat =>
    have hindex := Request.lasting_holds r index p q grown (hat.holds wf canonical)
    have hsame := ((held.held r hr).intern wf').symm.trans (hindex.intern wf')
    exact Except.ok.inj (congrArg Prod.fst hsame)
  | kept hkept => exact held.kept index hkept

/-- **The slot that is written** for an instruction that names one is its operand. -/
theorem slotAt?_of_encode {code : Array UInt8} {offset : Nat} {wide : Bool} {target : Label → Nat}
    {bytes : Bytes} (h : i.encode offset operand wide target = .ok bytes)
    (hat : BytesAt code offset bytes) (form : i.OpcodeFits) (names : i.Names p index) :
    slotAt? code offset = some operand := by
  have hlooked := fun has => slotAt?_of_operandAt? (operandAt?_of_encode h hat form has)
  cases i with
  | ldc | field | call | type | multiANewArray => exact hlooked trivial
  | invokeDynamic slot name descriptor =>
    cases h
    have hoperand := u16At_of_bytesAt (bytesAt_append.1 (bytesAt_cons.1 hat).2).1
    rw [slotAt?, formatAt_eq hat rfl]
    simp only [hoperand]
    rfl
  | _ =>
    cases names with
    | requested r hr => cases hr
    | kept hkept => cases hkept

end Operands

/-! ## 3. Methods -/

/-- The operand of an element that is an instruction. -/
def Piece.operand? (piece : Piece) : Option UInt16 :=
  piece.node.insn?.map fun _ => piece.operand

/-- The operands of elements that were interned are those of their instructions. -/
theorem operands_of_internPieces {p : ConstantPool} {nodes : List Node} {pieces : List Piece}
    (h : List.Forall₂ (fun node piece => internPiece node p = (.ok piece, p)) nodes pieces) :
    List.Forall₂ (fun i operand => internOperand i p = (.ok operand, p))
      (nodes.filterMap Node.insn?) (pieces.filterMap Piece.operand?) := by
  induction h with
  | nil => exact .nil
  | @cons node piece nodes pieces hpiece _ ih =>
    cases node with
    | insn i =>
      obtain ⟨operand, t, hoperand, hpure⟩ := Step.bind_eq_ok.1 hpiece
      obtain ⟨rfl, rfl⟩ := Step.pure_eq_ok.1 hpure
      exact .cons hoperand ih
    | label =>
      cases hpiece
      exact ih
    | line =>
      cases hpiece
      exact ih

section Methods

variable {p : ConstantPool} {blank m : Method} {body : Bytes} {parts : CodeParts} {scan : CodeScan}

/-- **The operands of a decoded method** are interned without a change to the pool, each as the slot
    that its instruction was decoded with. -/
theorem internPieces_of_decode (wf : p.WellFormed) (canonical : p.IsCanonical)
    (hm : decodeMethod p blank body = .ok m) (hread : CodeParts.read p body = .ok parts)
    (hscan : scanCode parts.code = .ok scan)
    (direct : ∀ offset ∈ scan.starts.toList, NamesMember p parts.code offset) :
    ∃ pieces, m.nodes.toList.mapM internPiece p = (.ok pieces, p) ∧
      List.Forall₂ (fun offset operand =>
        ∀ index, slotAt? parts.code offset = some index → operand = index)
        scan.starts.toList (pieces.filterMap Piece.operand?) := by
  obtain ⟨parts', scan', labels, hread', hscan', hinsns⟩ := exists_insns_of_decode hm
  obtain rfl := Except.ok.inj (hread.symm.trans hread')
  obtain rfl := Except.ok.inj (hscan.symm.trans hscan')
  have hintern : ∀ offset i, NamesMember p parts.code offset →
      decodeInsn parts.code p labels offset = .ok i →
      ∃ operand, internOperand i p = (.ok operand, p) ∧
        ∀ index, slotAt? parts.code offset = some index → operand = index := by
    intro offset i direct hdecode
    rcases names_of_decode hdecode direct with ⟨index, hindex, names⟩ | ⟨hnone, hpure⟩
    · refine ⟨index, names.intern wf canonical, fun index' hindex' => ?_⟩
      exact Option.some.inj (hindex.symm.trans hindex')
    · refine ⟨0, by rw [hpure]; rfl, fun index' hindex' => ?_⟩
      cases hnone.symm.trans hindex'
  have hstarts := (List.forall₂_and_left _ _).2 ⟨direct, hinsns⟩
  obtain ⟨pieces, hpieces⟩ : ∃ pieces, List.Forall₂ (fun node piece =>
      internPiece node p = (.ok piece, p)) m.nodes.toList pieces := by
    refine exists_forall₂ fun node hnode => ?_
    cases node with
    | insn i =>
      have hi : i ∈ m.nodes.toList.filterMap Node.insn? := List.mem_filterMap.2 ⟨_, hnode, rfl⟩
      obtain ⟨offset, -, direct, hdecode⟩ := exists_left_of_forall₂ hstarts hi
      obtain ⟨operand, hoperand, -⟩ := hintern offset i direct hdecode
      exact ⟨_, Step.bind_eq_ok.2 ⟨operand, p, hoperand, rfl⟩⟩
    | label l => exact ⟨_, rfl⟩
    | line n => exact ⟨_, rfl⟩
  refine ⟨pieces, Step.mapM_of_unchanged hpieces,
    forall₂_comp hstarts (operands_of_internPieces hpieces) ?_⟩
  rintro offset i operand ⟨direct, hdecode⟩ hoperand
  obtain ⟨operand', hoperand', heq⟩ := hintern offset i direct hdecode
  rwa [Except.ok.inj (congrArg Prod.fst (hoperand.symm.trans hoperand'))]

/-- **A method that is assembled as it was decoded** names the same slots, one instruction after
    another. -/
theorem keptSlots_of_assemble (wf : p.WellFormed) (canonical : p.IsCanonical)
    (hm : decodeMethod p blank body = .ok m) (hread : CodeParts.read p body = .ok parts)
    (hscan : scanCode parts.code = .ok scan)
    (direct : ∀ offset ∈ scan.starts.toList, NamesMember p parts.code offset)
    {q : ConstantPool} {a : Assembled} {log log' : Log} (h : assemble m p log = ((.ok a, q), log')) :
    ∃ l code maxStack maxLocals handlers attributes, (layOut m p).1 = .ok l ∧ l.encode = .ok code ∧
      a.body = codeBody maxStack maxLocals code handlers attributes ∧
      List.Forall₂ (fun offset offset' =>
        ∀ index, slotAt? parts.code offset = some index → slotAt? code.toArray offset' = some index)
        scan.starts.toList l.insnOffsets := by
  obtain ⟨wfq, grown, parts', scan', l, code, maxStack, maxLocals, handlers, attributes, hread',
    hscan', hl, hcode, hbody, hplaces⟩ := heldAt_of_assemble hm wf h
  obtain rfl := Except.ok.inj (hread.symm.trans hread')
  obtain rfl := Except.ok.inj (hscan.symm.trans hscan')
  have hstarts := (List.forall₂_and_left _ _).2 ⟨direct, hplaces⟩
  refine ⟨l, code, maxStack, maxLocals, handlers, attributes, hl, hcode, hbody, hstarts.imp ?_⟩
  rintro offset offset' ⟨direct, labels, i, hdecode, operand, wide, bytes, held, hbytes, hat⟩ index
    hindex
  have names : i.Names p index := by
    rcases names_of_decode hdecode direct with ⟨index', hindex', names⟩ | ⟨hnone, -⟩
    · rwa [Option.some.inj (hindex.symm.trans hindex')]
    · cases hindex.symm.trans hnone
  rw [slotAt?_of_encode hbytes hat (names.opcodeFits hdecode) names,
    names.eq_of_held wf canonical wfq grown held]

end Methods

/-- **Slots are kept.** In a pool that was read and holds nothing twice, what a slot denotes is answered
    with that slot when it is requested, and nothing is added, however full the pool is. So a method
    that was decoded with the pool, and whose fields and methods are named by references of their
    kinds, has the operands it was decoded with: they are interned without a change to the pool, and
    written where the instructions are assembled. -/
theorem slots_kept_of_canonical {before after : Cursor} {p : ConstantPool}
    (hpool : Reader.pool before = .ok (p, after)) (canonical : p.IsCanonical) :
    (∀ (i : UInt16) (r : Request), r.IsAt p i → r.intern p = (.ok i, p)) ∧
      ∀ (blank m : Method) (body : Bytes) (parts : CodeParts) (scan : CodeScan),
        decodeMethod p blank body = .ok m → CodeParts.read p body = .ok parts →
        scanCode parts.code = .ok scan →
        (∀ offset ∈ scan.starts.toList, NamesMember p parts.code offset) →
        (∃ pieces, m.nodes.toList.mapM internPiece p = (.ok pieces, p) ∧
          List.Forall₂ (fun offset operand =>
            ∀ index, slotAt? parts.code offset = some index → operand = index)
            scan.starts.toList (pieces.filterMap Piece.operand?)) ∧
        ∀ (a : Assembled) (q : ConstantPool) (log log' : Log),
          assemble m p log = ((.ok a, q), log') →
          ∃ l code maxStack maxLocals handlers attributes, (layOut m p).1 = .ok l ∧
            l.encode = .ok code ∧
            a.body = codeBody maxStack maxLocals code handlers attributes ∧
            List.Forall₂ (fun offset offset' => ∀ index, slotAt? parts.code offset = some index →
              slotAt? code.toArray offset' = some index) scan.starts.toList l.insnOffsets := by
  have wf := gives_pool before p after hpool
  refine ⟨fun i r h => h.intern wf canonical, ?_⟩
  intro blank m body parts scan hm hread hscan direct
  exact ⟨internPieces_of_decode wf canonical hm hread hscan direct, fun a q log log' h =>
    keptSlots_of_assemble wf canonical hm hread hscan direct h⟩

/-! ### A method that calls itself -/

namespace selfCall

/-- A pool with a long and with the method `f` of a class `A`. -/
def pool : ConstantPool :=
  ((((((empty.push (.long 7)).push (.utf8 (Modified.encodeText "A"))).push (.classRef 3)).push
    (.utf8 (Modified.encodeText "f"))).push (.utf8 (Modified.encodeText "()V"))).push
    (.nameAndType 5 6)).push (.methodRef 4 7)

/-- The code of the method: it loads the long, drops it, and calls itself. -/
def code : Bytes :=
  [Opcode.ldc2, 0, 1, 0x58, Opcode.invokeStatic, 0, 8, 0xb1]

/-- Its code attribute. -/
def body : Bytes :=
  codeBody 2 0 code [] [0, 0]

/-- The parts of the code attribute. -/
def parts : CodeParts where
  maxStack := 2
  maxLocals := 0
  code := code.toArray
  handlers := []

/-- The scan of the code. -/
def scan : CodeScan :=
  ⟨#[0, 3, 4, 7], #[]⟩

/-- What is known of the method before its code is read. -/
def blank : Method where
  name := "f"
  descriptor := "()V"
  flags := staticFlag

/-- The call. -/
def site : CallSite :=
  ⟨⟨⟨"A", "f", "()V"⟩, false⟩, .static⟩

/-- The method that was read. -/
def method : Method :=
  { blank with
    nodes := #[.insn (.ldc (.long 7)), .insn (.simple 0x58), .insn (.call site),
      .insn (.simple 0xb1)]
    origin := some (parts.origin []) }

theorem wellFormed_pool : pool.WellFormed :=
  ((((((WellFormed.empty.push (by decide) (by decide)).push (by decide) (by decide)).push
    (by decide) (by decide)).push (by decide) (by decide)).push (by decide) (by decide)).push
    (by decide) (by decide)).push (by decide) (by decide)

theorem isCanonical_pool : pool.IsCanonical := by
  have htext : ∀ s, (Constant.utf8 (Modified.encodeText s)).TextIsWritten := by
    rintro s _ ⟨⟩
    exact ⟨s, rfl⟩
  exact ((((((IsCanonical.empty.push (by decide +kernel) (by rintro _ ⟨⟩)).push (by decide +kernel)
    (htext "A")).push (by decide +kernel) (by rintro _ ⟨⟩)).push (by decide +kernel)
    (htext "f")).push (by decide +kernel) (htext "()V")).push (by decide +kernel)
    (by rintro _ ⟨⟩)).push (by decide +kernel) (by rintro _ ⟨⟩)

theorem read_pool : ∃ before after, Reader.pool before = .ok (pool, after) := by
  rcases reads_pool wellFormed_pool [] [] with h | ⟨long, -⟩
  · exact ⟨_, _, h⟩
  · exact absurd long (by decide)

theorem memberRef_eq : pool.memberRef 8 = .ok site.toMemberRef :=
  memberRef_of_get rfl rfl (text_of_get rfl) rfl (text_of_get rfl) (text_of_get rfl)

theorem read_body : CodeParts.read pool body = .ok parts := by
  have hbytes : attributesBytes [] = .ok [0, 0] := rfl
  exact read_codeBody (by decide) (by decide) (List.forall_mem_nil _) hbytes rfl

theorem scan_eq : scanCode parts.code = .ok scan := by
  refine scanFrom_of_insn 3 [] rfl (by decide) (by decide) rfl ?_
  refine scanFrom_of_insn 1 [] rfl (by decide) (by decide) rfl ?_
  refine scanFrom_of_insn 3 [] rfl (by decide) (by decide) rfl ?_
  refine scanFrom_of_insn 1 [] rfl (by decide) (by decide) rfl ?_
  exact scanFrom_of_end (by decide)

theorem decodeMethod_eq : decodeMethod pool blank body = .ok method := by
  have hnodes : ∀ {n : Nat} {i : Insn},
      decodeInsn parts.code pool (labelTable (numberLabels [])) n = .ok i →
      nodesAt parts pool (labelTable (numberLabels [])) (lineTable []) n = .ok _ :=
    fun hi => nodesAt_of_decodeInsn List.nodup_nil hi
  refine decodeMethod_eq_ok.2 ⟨parts, scan, [], _, [], [], [], read_body, scan_eq, ?_,
    mapM_eq_ok.2 (.cons (hnodes rfl) (.cons (hnodes rfl)
      (.cons (hnodes (decodeInsn_static rfl rfl memberRef_eq)) (.cons (hnodes rfl) .nil)))),
    rfl, rfl, rfl, ?_⟩
  · exact labelledOffsets_eq_ok.2 ⟨by decide, by decide⟩
  · rw [at?_numberLabels List.nodup_nil]
    rfl

theorem namesMember : ∀ offset ∈ scan.starts.toList, NamesMember pool parts.code offset := by
  intro offset hoffset
  refine ⟨fun hfield => ?_, fun kind hcall index hindex => ?_⟩
  · simp only [scan, List.mem_cons, List.not_mem_nil, or_false] at hoffset
    rcases hoffset with rfl | rfl | rfl | rfl <;> cases hfield
  · simp only [scan, List.mem_cons, List.not_mem_nil, or_false] at hoffset
    rcases hoffset with rfl | rfl | rfl | rfl
    · cases hcall
    · cases hcall
    · obtain rfl : 8 = index := Except.ok.inj hindex
      exact ⟨4, 7, .inl rfl⟩
    · cases hcall

/-- The elements of the method. -/
def pieces : List Piece :=
  [{ node := .insn (.ldc (.long 7)), operand := 1 }, { node := .insn (.simple 0x58) },
    { node := .insn (.call site), operand := 8 }, { node := .insn (.simple 0xb1) }]

/-- Their layout. -/
def layout : Layout :=
  ⟨pieces, ∅, pieceOffsets pieces⟩

theorem isAt_call : (Request.method site.toMemberRef).IsAt pool 8 :=
  have hget : pool.get 8 = .ok (.methodRef 4 7) := rfl
  ⟨(fun ⟨_, _, h⟩ => nomatch hget.symm.trans h), memberRef_eq⟩

theorem mapM_internPiece : method.nodes.toList.mapM internPiece pool = (.ok pieces, pool) := by
  have hlong : internLong 7 pool = (.ok 1, pool) :=
    intern_of_isFirstSlot wellFormed_pool (isCanonical_pool.isFirstSlot rfl)
  have hcall : internMethod site.toMemberRef pool = (.ok 8, pool) :=
    isAt_call.intern wellFormed_pool isCanonical_pool
  exact Step.mapM_of_unchanged (.cons (Step.bind_eq_ok.2 ⟨1, pool, hlong, rfl⟩) (.cons rfl
    (.cons (Step.bind_eq_ok.2 ⟨8, pool, hcall, rfl⟩) (.cons rfl .nil))))

theorem layOut_eq : layOut method pool = (.ok layout, pool) :=
  layOut_of_no_jumps (by simp [method, Node.isMarker]) (by cbv) rfl mapM_internPiece
    (by simp [pieces]) (by decide)

/-- The code attribute that is written. -/
def assembled : Assembled where
  body := body
  dropped := []

theorem assemble_eq : assemble method pool #[] = ((.ok assembled, pool), #[]) := by
  have hdepth : maxStack method = .ok 2 := by cbv
  have hlocals : requiredLocals method = .ok 0 := by cbv
  exact assemble_eq_ok.2 ⟨layout, pool, code, [], pool, #[], [], pool, [], pool, [], pool,
    { kept := [] }, 2, 0, [0, 0], layOut_eq, rfl, rfl, rfl, rfl, rfl, rfl, hdepth, hlocals, rfl, rfl⟩

end selfCall

/-- The call is found through five entries behind a wide one, and keeps its slot when the method is
    assembled. -/
theorem slots_kept_of_canonical_selfCall :
    (∃ before after, Reader.pool before = .ok (selfCall.pool, after)) ∧
      selfCall.pool.IsCanonical ∧
      (Request.method selfCall.site.toMemberRef).intern selfCall.pool = (.ok 8, selfCall.pool) ∧
      decodeMethod selfCall.pool selfCall.blank selfCall.body = .ok selfCall.method ∧
      (∃ pieces, selfCall.method.nodes.toList.mapM internPiece selfCall.pool =
        (.ok pieces, selfCall.pool)) ∧
      assemble selfCall.method selfCall.pool #[] =
        ((.ok selfCall.assembled, selfCall.pool), #[]) ∧
      ∃ l code, (layOut selfCall.method selfCall.pool).1 = .ok l ∧ l.encode = .ok code ∧
        List.Forall₂ (fun offset offset' => ∀ index,
          slotAt? selfCall.parts.code offset = some index →
            slotAt? code.toArray offset' = some index) selfCall.scan.starts.toList l.insnOffsets := by
  obtain ⟨before, after, hpool⟩ := selfCall.read_pool
  obtain ⟨hintern, hmethods⟩ := slots_kept_of_canonical hpool selfCall.isCanonical_pool
  obtain ⟨⟨pieces, hpieces, -⟩, hassemble⟩ := hmethods _ _ _ _ _ selfCall.decodeMethod_eq
    selfCall.read_body selfCall.scan_eq selfCall.namesMember
  obtain ⟨l, code, _, _, _, _, hl, hcode, -, hslots⟩ := hassemble _ _ _ _ selfCall.assemble_eq
  exact ⟨⟨before, after, hpool⟩, selfCall.isCanonical_pool, hintern 8 _ selfCall.isAt_call,
    selfCall.decodeMethod_eq, ⟨pieces, hpieces⟩, selfCall.assemble_eq, l, code, hl, hcode, hslots⟩

end Rewire
