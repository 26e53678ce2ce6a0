import Mathlib
import Rewire.Proofs.ClassFile.Framed
import Rewire.Proofs.Frames.Collide
import Rewire.Proofs.Redirect.Layout

/-!
# Frames of redirected code

Redirection moves code, and the frames of the code that was read move along with its labels. This
file shows

* that labels keep their order (`Redirected.order`) and allocations stay (`Redirected.isSome_of_new`);
* that between two labels which land at one offset there were only watched calls, all replaced by
  empty stubs (`Redirected.emptyStubs_between`);
* that a method with one stack map table loses it only if two of its frames land at one offset that
  way (`emptyStubs_of_dropped`).
-/

namespace Rewire

open ConstantPool

/-! ## 1. Labels -/

/-- Whether the instruction at an offset of the code that was read is a watched call in whose place
    redirection leaves nothing. -/
def CodeParts.EmptyStubAt (parts : CodeParts) (pool : ConstantPool) (labels : LabelTable)
    (table : RedirectTable) (filter : CallFilter) (n : Nat) : Prop :=
  ∃ site, decodeInsn parts.code pool labels n = .ok (.call site) ∧
    filter.watches site.owner site.name = true ∧
    treat table filter (.insn (.call site)) = .ok (.stub site [])

namespace Redirected

variable {pool : ConstantPool} {blank m : Method} {body : Bytes} {parts : CodeParts}
  {scan : CodeScan} {o : CodeOrigin} {table : RedirectTable} {filter : CallFilter}
  {ts : List Treatment} {l : Layout} {label label' : Label} {n n' k : Nat}

/-- **Labels keep their order**: where one stays before the end, those before it stay. -/
theorem order (h : Redirected pool blank m body parts scan o table filter ts l)
    (hn : (label, n) ∈ o.labelOffsets) (hn' : (label', n') ∈ o.labelOffsets) (hlt : n < n')
    (hk : o.newOffset l n' = some k) : ∃ j ≤ k, o.newOffset l n = some j := by
  obtain ⟨i, hi, hnew⟩ := h.newOffset_of_label hn
  obtain ⟨i', hi', hnew'⟩ := h.newOffset_of_label hn'
  rw [hnew', Option.ite_none_right_eq_some] at hk
  obtain ⟨hbefore, hk⟩ := hk
  have hle : l.newOffset ts i ≤ l.newOffset ts i' :=
    h.treated.mono (Nat.le_of_lt (h.comesFrom.lt_of_lt (hi.symm ▸ hi'.symm ▸ hlt)))
  exact ⟨_, Option.some.inj hk ▸ hle, hnew.trans (if_pos (Nat.lt_of_le_of_lt hle hbefore))⟩

/-- **Where something was allocated**, an instruction stays. -/
theorem isSome_of_new (h : Redirected pool blank m body parts scan o table filter ts l)
    (hn : (label, n) ∈ o.labelOffsets) (hnew : parts.code[n]? = some Opcode.new) :
    (o.newOffset l n).isSome := by
  obtain ⟨k, hk, hmoved⟩ := h.newOffset_of_label hn
  have hstart : n ∈ scan.starts.toList :=
    hk ▸ mem_starts_of_lt (hk.symm ▸ (Array.getElem?_eq_some_iff.1 hnew).1)
  obtain ⟨j, i, hj, hold⟩ := h.comesFrom.exists_insn hstart
  have hdecode : decodeInsn parts.code pool (labelTable o.labelOffsets) n = .ok i :=
    hold ▸ h.comesFrom.nodeAt j _ hj
  have hcall : ∀ site, i ≠ .call site := by
    rintro site rfl
    obtain ⟨kind, hkind⟩ := formatAt_of_call hdecode
    have hop : formatAt parts.code n = orFail (.unsupportedOpcode Opcode.new) (Format.of? Opcode.new) :=
      bind_eq_ok.2 ⟨Opcode.new, orFail_eq_ok.2 hnew, rfl⟩
    cases hop.symm.trans hkind
  have hkj : k ≤ j := h.comesFrom.le_of_le hj (Nat.le_of_eq (hk.trans hold.symm))
  have hlt : l.newOffset ts k < l.codeLength := calc
    l.newOffset ts k ≤ l.newOffset ts j := h.treated.mono hkj
    _ < l.newOffset ts (j + 1) := h.treated.lt_succ_of_keep hj (treat_of_not_call hcall)
    _ ≤ l.newOffset ts m.nodes.toList.length := h.treated.mono (List.getElem?_eq_some_iff.1 hj).1
    _ = l.codeLength := h.treated.newOffset_length
  rw [hmoved, if_pos hlt]
  rfl

/-- **Between labels that land at one offset**, there were only calls that empty stubs replaced. -/
theorem emptyStubs_between (h : Redirected pool blank m body parts scan o table filter ts l)
    (hn : (label, n) ∈ o.labelOffsets) (hn' : (label', n') ∈ o.labelOffsets)
    (hk : o.newOffset l n = some k) (hk' : o.newOffset l n' = some k) :
    ∀ a ∈ scan.starts.toList, n ≤ a → a < n' →
      parts.EmptyStubAt pool (labelTable o.labelOffsets) table filter a := by
  intro a ha hle hlt
  obtain ⟨i, hi, hnew⟩ := h.newOffset_of_label hn
  obtain ⟨i', hi', hnew'⟩ := h.newOffset_of_label hn'
  obtain ⟨j, insn, hj, hold⟩ := h.comesFrom.exists_insn ha
  have hij : i ≤ j := h.comesFrom.le_of_le hj (by rwa [hi, hold])
  have hji' : j + 1 ≤ i' := h.comesFrom.lt_of_lt (by rwa [hold, hi'])
  have hsame : l.newOffset ts i = l.newOffset ts i' := by
    rw [hnew, Option.ite_none_right_eq_some] at hk
    rw [hnew', Option.ite_none_right_eq_some] at hk'
    exact Option.some.inj (hk.2.trans hk'.2.symm)
  -- New offsets grow from one label over the instruction to the other, and do not grow in all.
  have heq : l.newOffset ts j = l.newOffset ts (j + 1) := Nat.le_antisymm
    (h.treated.mono (Nat.le_succ j))
    (((h.treated.mono hji').trans (Nat.le_of_eq hsame.symm)).trans (h.treated.mono hij))
  obtain ⟨site, rfl, hwatched, htreat⟩ := h.treated.emptyStub_of_eq hj heq
  exact ⟨site, hold ▸ h.comesFrom.nodeAt j _ hj, hwatched, htreat⟩

/-- **Frames are relocated** unless two of them land at one offset, with nothing left of what was
    between them. -/
theorem exists_relocateFrames (h : Redirected pool blank m body parts scan o table filter ts l)
    (small : l.codeLength ≤ maxCodeLength) {frameTable : Bytes} {frames : List Frame}
    (hframes : readFrames frameTable = .ok frames)
    (hone : (o.attributes.filter fun a => a.1 = AttributeName.stackMap) =
      [(AttributeName.stackMap, frameTable)])
    (allocated : ∀ f ∈ frames, ∀ t ∈ f.locals.types ++ f.stack, ∀ site ∈ t.site?,
      parts.code[site]? = some Opcode.new)
    (apart : ∀ f ∈ frames, ∀ g ∈ frames, f.offset < g.offset →
      (∀ a ∈ scan.starts.toList, f.offset ≤ a → a < g.offset →
        parts.EmptyStubAt pool (labelTable o.labelOffsets) table filter a) →
      ∀ k, o.newOffset l f.offset = some k → o.newOffset l g.offset ≠ some k) :
    ∃ out, relocateFrames (o.newOffset l) frameTable = .ok out := by
  have hlabel : ∀ f ∈ frames, ∀ n ∈ f.offsets, ∃ label, (label, n) ∈ o.labelOffsets := by
    intro f hf n hn
    refine CodeOrigin.IsRead.label_of_frame ⟨pool, blank, body, m, h.decoded, h.origin⟩ ?_
    rw [lastFrameOffsets_of_single hframes hone]
    exact List.mem_flatMap.2 ⟨f, hf, hn⟩
  have hplace : ∀ f ∈ frames, ∃ label, (label, f.offset) ∈ o.labelOffsets := fun f hf =>
    hlabel f hf f.offset List.mem_cons_self
  have ascending := (shaped_of_readFrames hframes).2
  refine Rewire.exists_relocateFrames hframes (fun n k hk => ?_) (fun f hf t ht site hsite => ?_)
    (ascending.imp_of_mem fun hf hg hlt k hk => ?_)
    (ascending.imp_of_mem fun hf hg hlt k hk hk' => ?_)
  · obtain ⟨-, -, hlt⟩ := CodeOrigin.newOffset_eq_some hk
    exact (Nat.le_of_lt hlt).trans small
  · obtain ⟨label, hn⟩ := hlabel f hf site
      (List.mem_cons_of_mem _ (List.mem_filterMap.2 ⟨t, ht, hsite⟩))
    exact h.isSome_of_new hn (allocated f hf t ht site hsite)
  · obtain ⟨label, hn⟩ := hplace _ hf
    obtain ⟨label', hn'⟩ := hplace _ hg
    exact h.order hn hn' hlt hk
  · obtain ⟨label, hn⟩ := hplace _ hf
    obtain ⟨label', hn'⟩ := hplace _ hg
    exact apart _ hf _ hg hlt (h.emptyStubs_between hn hn' hk hk') k hk hk'

end Redirected

/-! ## 2. Methods -/

/-- **A method that loses its only stack map table** by redirection has two frames in it between which
    there were only calls that empty stubs replaced. Both land at one offset. -/
theorem emptyStubs_of_dropped {className : String} {pool p q : ConstantPool} {blank m : Method}
    {body frameTable : Bytes} {parts : CodeParts} {scan : CodeScan} {o : CodeOrigin}
    {frames : List Frame} {table : RedirectTable} {filter : CallFilter} {summary : RedirectSummary}
    {log log' : Log} {a : Assembled}
    (hread : CodeParts.read pool body = .ok parts) (hscan : scanCode parts.code = .ok scan)
    (h : decodeMethod pool blank body = .ok m) (ho : m.origin = some o)
    (hone : (o.attributes.filter fun a => a.1 = AttributeName.stackMap) =
      [(AttributeName.stackMap, frameTable)])
    (hframes : readFrames frameTable = .ok frames)
    (allocated : ∀ f ∈ frames, ∀ t ∈ f.locals.types ++ f.stack, ∀ site ∈ t.site?,
      parts.code[site]? = some Opcode.new)
    (hresult : (redirectCalls className table filter m).result = .ok summary)
    (hassemble : assemble (redirectCalls className table filter m).method p log =
      ((.ok a, q), log'))
    (dropped : AttributeName.stackMap ∈ a.dropped) :
    ∃ l p₁, layOut (redirectCalls className table filter m).method p = (.ok l, p₁) ∧
      ∃ f ∈ frames, ∃ g ∈ frames, f.offset < g.offset ∧
        (∃ k, o.newOffset l f.offset = some k ∧ o.newOffset l g.offset = some k) ∧
        ∀ n ∈ scan.starts.toList, f.offset ≤ n → n < g.offset →
          parts.EmptyStubAt pool (labelTable o.labelOffsets) table filter n := by
  obtain ⟨l, p₁, _, _, _, _, _, _, _, _, _, _, _, _, _, _, hl, -⟩ := assemble_eq_ok.1 hassemble
  obtain ⟨ts, treated⟩ := treated_of_layOut hresult hl
  have moved : Redirected pool blank m body parts scan o table filter ts l :=
    ⟨hread, hscan, h, ho, treated⟩
  refine ⟨l, p₁, hl, ?_⟩
  by_contra hnone
  obtain ⟨out, hout⟩ := moved.exists_relocateFrames (isOf_of_layOut hl).small hframes hone allocated
    fun f hf g hg hlt hbetween k hk hk' =>
      hnone ⟨f, hf, g, hg, hlt, ⟨k, hk, hk'⟩, hbetween⟩
  -- The table is relocated then, so it is carried over and not listed as dropped.
  have horigin := (sameTables_redirectCalls hresult).1.trans ho
  obtain ⟨b, hb, hname, hlost⟩ := (mem_dropped_iff hassemble horigin hl).1 dropped
  have hmem : b ∈ [(AttributeName.stackMap, frameTable)] :=
    hone ▸ List.mem_filter.2 ⟨hb, decide_eq_true hname⟩
  rw [List.mem_singleton.1 hmem, carriedAttribute] at hlost
  split at hlost
  · cases hlost
  · rw [if_pos rfl, hout] at hlost
    cases hlost

/-! ## A call between two frames

A condition skips a call without a replacement, while an allocation is on the stack. The call has a
frame before it and one behind it, and is replaced by nothing. -/

namespace framedCall

open skippedCall (pool)

/-- The code of the method. -/
def code : Bytes :=
  [Opcode.new, 0, 2, 0x03, Opcode.ifeq, 0, 6, 0xb8, 0, 13, 0x57, 0xb1]

/-- Its stack map table. -/
def frameTable : Bytes :=
  [0, 2, 71, 8, 0, 0, 66, 8, 0, 0]

/-- The frames before and behind the call. -/
def frames : List Frame :=
  [⟨7, .same, [.uninitialized 0]⟩, ⟨10, .same, [.uninitialized 0]⟩]

/-- Its code attribute. -/
def body : Bytes :=
  [0, 2, 0, 0, 0, 0, 0, 12] ++ code ++ [0, 0, 0, 1, 0, 8, 0, 0, 0, 10] ++ frameTable

/-- The parts of the code attribute. -/
def parts : CodeParts where
  maxStack := 2
  maxLocals := 0
  code := code.toArray
  handlers := []
  frameOffsets := [7, 0, 10, 0]
  others := [(AttributeName.stackMap, frameTable)]

/-- The scan of the code. -/
def scan : CodeScan :=
  ⟨#[0, 3, 4, 7, 10, 11], #[10]⟩

/-- The code that was read. -/
def origin : CodeOrigin :=
  parts.origin [0, 7, 10]

/-- The method that was read. -/
def method : Method where
  name := "f"
  descriptor := "()V"
  flags := staticFlag
  nodes := #[.label ⟨0⟩, .insn (.type Opcode.new "A"), .insn (.simple 0x03),
    .insn (.jump Opcode.ifeq ⟨2⟩), .label ⟨1⟩, glCall "draw" "()V", .label ⟨2⟩,
    .insn (.simple 0x57), .insn (.simple 0xb1)]
  nextLabel := 3
  origin := some origin

/-- The method without the call. -/
def redirected : Method :=
  { method with
    nodes := #[.label ⟨0⟩, .insn (.type Opcode.new "A"), .insn (.simple 0x03),
      .insn (.jump Opcode.ifeq ⟨2⟩), .label ⟨1⟩, .label ⟨2⟩, .insn (.simple 0x57),
      .insn (.simple 0xb1)]
    modified := true }

theorem redirect_eq :
    (redirectCalls "A" clearTable glFilter method).result = .ok skippedCall.summary ∧
      (redirectCalls "A" clearTable glFilter method).method = redirected := by
  constructor <;> cbv

theorem read_body : CodeParts.read pool body = .ok parts := by
  have htext : pool.text 8 = .ok AttributeName.stackMap := text_of_get rfl
  have hbytes : attributesBytes [⟨8, frameTable⟩] =
    .ok ([0, 1, 0, 8, 0, 0, 0, 10] ++ frameTable) := rfl
  show CodeParts.read pool (codeBody 2 0 code [] _) = _
  refine read_codeBody (by decide) (by decide) (List.forall_mem_nil _) hbytes ?_
  exact bind_eq_ok.2 ⟨_, bind_eq_ok.2 ⟨_, htext, rfl⟩, rfl⟩

theorem scan_eq : scanCode code.toArray = .ok scan := by
  refine scanFrom_of_insn 3 [] rfl (by decide) (by decide) rfl ?_
  refine scanFrom_of_insn 1 [] rfl (by decide) (by decide) rfl ?_
  refine scanFrom_of_insn 3 [10] rfl (by decide) (by decide) rfl ?_
  refine scanFrom_of_insn 3 [] rfl (by decide) (by decide) rfl ?_
  refine scanFrom_of_insn 1 [] rfl (by decide) (by decide) rfl ?_
  refine scanFrom_of_insn 1 [] rfl (by decide) (by decide) rfl ?_
  exact scanFrom_of_end (by decide)

theorem className_eq : pool.className 2 = .ok "A" :=
  bind_eq_ok.2 ⟨.classRef 1, rfl, text_of_get rfl⟩

theorem decodeMethod_eq :
    decodeMethod pool { name := "f", descriptor := "()V", flags := staticFlag } body =
      .ok method := by
  have nodup : [0, 7, 10].Nodup := by decide
  have hnodes : ∀ {n : Nat} {i : Insn},
      decodeInsn parts.code pool (labelTable (numberLabels [0, 7, 10])) n = .ok i →
      nodesAt parts pool (labelTable (numberLabels [0, 7, 10])) (lineTable []) n = .ok _ :=
    fun hi => nodesAt_of_decodeInsn nodup hi
  have hnew : decodeInsn parts.code pool (labelTable (numberLabels [0, 7, 10])) 0 =
      .ok (.type Opcode.new "A") :=
    decodeInsn_eq_ok.2 ⟨Opcode.new, .type, rfl, rfl, bind_eq_ok.2 ⟨2, rfl,
      bind_eq_ok.2 ⟨"A", during_eq_ok.2 className_eq, rfl⟩⟩⟩
  have hjump : decodeInsn parts.code pool (labelTable (numberLabels [0, 7, 10])) 4 =
      .ok (.jump Opcode.ifeq ⟨2⟩) :=
    decodeInsn_eq_ok.2 ⟨Opcode.ifeq, .jump, rfl, rfl, bind_eq_ok.2 ⟨6, rfl,
      bind_eq_ok.2 ⟨⟨2⟩, orFail_eq_ok.2 (at?_numberLabels nodup 10), rfl⟩⟩⟩
  refine decodeMethod_eq_ok.2 ⟨parts, scan, [0, 7, 10], _, [], [], [], read_body, scan_eq, ?_,
    mapM_eq_ok.2 (.cons (hnodes hnew) (.cons (hnodes rfl) (.cons (hnodes hjump)
      (.cons (hnodes (decodeInsn_static rfl rfl skippedCall.memberRef_draw)) (.cons (hnodes rfl)
      (.cons (hnodes rfl) .nil)))))), rfl, rfl, rfl, ?_⟩
  · exact labelledOffsets_eq_ok.2 ⟨by decide, by decide⟩
  · rw [at?_numberLabels nodup]
    rfl

/-- The places of the labels among the nodes without the call. -/
def positions : Std.HashMap Label Nat :=
  (((∅ : Std.HashMap Label Nat).insert ⟨0⟩ 0).insert ⟨1⟩ 4).insert ⟨2⟩ 5

/-- The elements of the method without the call. -/
def pieces : List Piece :=
  [{ node := .label ⟨0⟩ }, { node := .insn (.type Opcode.new "A"), operand := 2 },
    { node := .insn (.simple 0x03) }, { node := .insn (.jump Opcode.ifeq ⟨2⟩) },
    { node := .label ⟨1⟩ }, { node := .label ⟨2⟩ }, { node := .insn (.simple 0x57) },
    { node := .insn (.simple 0xb1) }]

/-- Their layout. -/
def layout : Layout :=
  ⟨pieces, positions, pieceOffsets pieces⟩

theorem mapM_internPiece :
    redirected.nodes.toList.mapM internPiece pool = (.ok pieces, pool) := by
  have hclass : internClass "A" pool = (.ok 2, pool) :=
    Step.bind_eq_ok.2 ⟨1, pool,
      intern_of_isFirstSlot skippedCall.wellFormed_pool ⟨rfl, by decide +kernel⟩,
      intern_of_isFirstSlot skippedCall.wellFormed_pool ⟨rfl, by decide +kernel⟩⟩
  show (.label ⟨0⟩ :: .insn (.type Opcode.new "A") :: _ : List Node).mapM internPiece pool = _
  rw [List.mapM_cons, List.mapM_cons]
  refine Step.bind_eq_ok.2 ⟨_, pool, rfl, Step.bind_eq_ok.2 ⟨_, pool, ?_, rfl⟩⟩
  exact Step.bind_eq_ok.2 ⟨_, pool, Step.bind_eq_ok.2 ⟨2, pool, hclass, rfl⟩, rfl⟩

theorem layOut_eq : layOut redirected pool = (.ok layout, pool) := by
  have hpositions : distinctPositions redirected.nodes = .ok positions := by cbv
  have hreferences : checkReferences redirected positions = .ok () := by cbv
  have hwiden : widenAll positions pieces = pieces := by cbv
  refine layOut_eq_ok.2 ⟨by simp [redirected, Node.isMarker], positions, pieces, hpositions,
    hreferences, mapM_internPiece, ?_, by decide⟩
  rw [Layout.ofPieces, hwiden]
  rfl

theorem encode_eq :
    layout.encode = .ok [Opcode.new, 0, 2, 0x03, Opcode.ifeq, 0, 3, 0x57, 0xb1] := by
  cbv

/-- Where the labels are now. -/
theorem newOffset_eq : origin.newOffset layout 0 = some 0 ∧ origin.newOffset layout 7 = some 7 ∧
    origin.newOffset layout 10 = some 7 := by
  have hmoved : ∀ {n new : Nat} {label : Label},
      (labelTable (numberLabels [0, 7, 10])).at? n = some label → new < layout.codeLength →
      layout.offsetOf? label = some new → origin.newOffset layout n = some new := by
    intro n new label hat hlt hnew
    exact Option.bind_eq_some_iff.2 ⟨label, hat, Option.bind_eq_some_iff.2 ⟨new, hnew, if_pos hlt⟩⟩
  have nodup : [0, 7, 10].Nodup := by decide
  exact ⟨hmoved (at?_numberLabels nodup 0) (by decide) (by cbv),
    hmoved (at?_numberLabels nodup 7) (by decide) (by cbv),
    hmoved (at?_numberLabels nodup 10) (by decide) (by cbv)⟩

/-- The frames collide there. -/
theorem relocateFrames_eq {newOffset : Nat → Option Nat}
    (h : newOffset 0 = some 0 ∧ newOffset 7 = some 7 ∧ newOffset 10 = some 7) :
    relocateFrames newOffset frameTable = fail (.framesCollide 10 7 7) := by
  obtain ⟨hsite, hbefore, hbehind⟩ := h
  have hstack : relocateTypes newOffset [.uninitialized 0] = .ok [.uninitialized 0] := by
    simp only [relocateTypes, List.mapM_cons, VerificationType.relocate, hsite]
    rfl
  have hfirst : FrameTable.add newOffset {} ⟨7, .same, [.uninitialized 0]⟩ =
      .ok { written := [[71, 8, 0, 0]], previous := some 7, carried := .nothing } := by
    unfold FrameTable.add
    simp only [hbefore]
    exact bind_eq_ok.2 ⟨7, rfl, bind_eq_ok.2 ⟨7, rfl, bind_eq_ok.2 ⟨_, hstack,
      bind_eq_ok.2 ⟨[71, 8, 0, 0], rfl, rfl⟩⟩⟩⟩
  have hsecond : FrameTable.add newOffset
      { written := [[71, 8, 0, 0]], previous := some 7, carried := .nothing }
      ⟨10, .same, [.uninitialized 0]⟩ = fail (.framesCollide 10 7 7) := by
    unfold FrameTable.add
    simp only [hbehind]
    rfl
  have hframes : frames.foldlM (FrameTable.add newOffset) {} = fail (.framesCollide 10 7 7) := by
    rw [frames, List.foldlM_cons, hfirst]
    show (FrameTable.add newOffset _ _ >>= _) = _
    rw [hsecond]
    rfl
  show (frames.foldlM (FrameTable.add newOffset) {} >>= _) = _
  rw [hframes]
  rfl

/-- The code attribute without the call. -/
def assembled : Assembled where
  body := codeBody 2 0 [Opcode.new, 0, 2, 0x03, Opcode.ifeq, 0, 3, 0x57, 0xb1] [] [0, 0]
  dropped := [AttributeName.stackMap]

/-- The table is lost. -/
theorem carryAttributes_eq : ∃ log, carryAttributes redirected layout { kept := [] } pool #[] =
    ((.ok { kept := [], dropped := [AttributeName.stackMap] }, pool), log) := by
  have hdrop : ∃ log, carryAttribute redirected false (origin.newOffset layout) { kept := [] }
      AttributeName.stackMap frameTable pool #[] =
        ((.ok { kept := [], dropped := [AttributeName.stackMap] }, pool), log) := by
    unfold carryAttribute
    rw [if_neg (by decide), if_pos rfl, relocateFrames_eq newOffset_eq]
    exact ⟨_, rfl⟩
  obtain ⟨log, hdrop⟩ := hdrop
  exact ⟨log, Assembly.bind_eq_ok.2 ⟨_, _, _, hdrop, rfl⟩⟩

theorem assemble_eq : ∃ log, assemble redirected pool #[] = ((.ok assembled, pool), log) := by
  have hdepth : maxStack redirected = .ok 2 := by cbv
  have hlocals : requiredLocals redirected = .ok 0 := by cbv
  obtain ⟨log, hcarry⟩ := carryAttributes_eq
  exact ⟨log, assemble_eq_ok.2 ⟨layout, pool, _, [], pool, #[], [], pool, [], pool, [], pool,
    { kept := [], dropped := [AttributeName.stackMap] }, 2, 0, [0, 0], layOut_eq, encode_eq, rfl, rfl,
    rfl, rfl, hcarry, hdepth, hlocals, rfl, rfl⟩⟩

theorem allocated : ∀ f ∈ frames, ∀ t ∈ f.locals.types ++ f.stack, ∀ site ∈ t.site?,
    parts.code[site]? = some Opcode.new := by
  intro f hf t ht site hsite
  have hstack : t = .uninitialized 0 := by
    simp only [frames, List.mem_cons, List.not_mem_nil, or_false] at hf
    rcases hf with rfl | rfl <;> exact List.mem_singleton.1 ht
  rw [hstack] at hsite
  cases hsite
  rfl

end framedCall

/-- The frames before and behind a call collide when the call is gone, and their table is lost. -/
theorem emptyStubs_of_dropped_framedCall :
    ∃ log, decodeMethod skippedCall.pool { name := "f", descriptor := "()V", flags := staticFlag }
        framedCall.body = .ok framedCall.method ∧
      (redirectCalls "A" clearTable glFilter framedCall.method).result = .ok skippedCall.summary ∧
      assemble (redirectCalls "A" clearTable glFilter framedCall.method).method skippedCall.pool #[] =
        ((.ok framedCall.assembled, skippedCall.pool), log) ∧
      AttributeName.stackMap ∈ framedCall.assembled.dropped ∧
      ∃ l p₁, layOut (redirectCalls "A" clearTable glFilter framedCall.method).method
          skippedCall.pool = (.ok l, p₁) ∧
        ∃ f ∈ framedCall.frames, ∃ g ∈ framedCall.frames, f.offset < g.offset ∧
          (∃ k, framedCall.origin.newOffset l f.offset = some k ∧
            framedCall.origin.newOffset l g.offset = some k) ∧
          ∀ n ∈ framedCall.scan.starts.toList, f.offset ≤ n → n < g.offset →
            framedCall.parts.EmptyStubAt skippedCall.pool
              (labelTable framedCall.origin.labelOffsets) clearTable glFilter n := by
  obtain ⟨hresult, hmethod⟩ := framedCall.redirect_eq
  obtain ⟨log, hassemble⟩ := framedCall.assemble_eq
  rw [← hmethod] at hassemble
  have hdropped : AttributeName.stackMap ∈ framedCall.assembled.dropped := List.mem_cons_self
  exact ⟨log, framedCall.decodeMethod_eq, hresult, hassemble, hdropped,
    emptyStubs_of_dropped framedCall.read_body framedCall.scan_eq framedCall.decodeMethod_eq rfl rfl
      rfl framedCall.allocated hresult hassemble hdropped⟩

end Rewire
