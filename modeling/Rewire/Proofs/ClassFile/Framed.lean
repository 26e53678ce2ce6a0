import Mathlib
import Rewire.Proofs.ClassFile.WriteBack
import Rewire.Proofs.Code.Framed
import Rewire.Proofs.Redirect.Depth

/-!
# Frames of redirected methods

A method that has a frame wherever it jumps to keeps that when its calls are redirected and it is
written back, except behind conditions that had to be made wide (`ClassFile.framed_of_redirect`).

* `framedBy_redirectCalls` -- redirection only takes calls away and puts in instructions that go on,
  so it jumps to no other labels;
* `ClassFile.getElem?_apply` -- what becomes of a method of a class that is written back, and that
  it loses no frames where they are required.
-/

namespace Rewire

open ConstantPool

/-! ## 1. Redirection -/

/-- **Redirection keeps a method framed.** -/
theorem framedBy_redirectCalls {className : String} {table : RedirectTable} {filter : CallFilter}
    {m : Method} {o : CodeOrigin} {atEnd : Prop} {summary : RedirectSummary}
    (framed : m.FramedBy o atEnd)
    (h : (redirectCalls className table filter m).result = .ok summary) :
    (redirectCalls className table filter m).method.FramedBy o atEnd := by
  obtain ⟨last, hlast, hends⟩ := framed.ends
  have hcall : ∀ site, last ≠ .call site := by
    rintro site rfl
    cases hends
  obtain ⟨horigin, hhandlers⟩ := sameTables_redirectCalls h
  have hinside : ∀ {label : Label}, m.HasInside label →
      (redirectCalls className table filter m).method.HasInside label := by
    rintro label ⟨before, after, hnodes, i, hi⟩
    obtain ⟨before', after', hnodes', hlast'⟩ := split_redirectCalls h hnodes hi hlast hcall
    exact ⟨before', after', hnodes', last, hlast'⟩
  refine ⟨horigin.trans framed.origin, fun i hi label hlabel => ?_, ?_, last,
    getLast?_insns_redirectCalls h hlast hcall, hends⟩
  · obtain ⟨j, hj, hmem⟩ := exists_target_redirectCalls h hi hlabel
    exact (framed.targets j hj label hmem).imp_right hinside
  · rw [hhandlers]
    exact fun handler hhandler => (framed.handlers handler hhandler).imp_right (.imp_left hinside)

/-! ## 2. Classes -/

theorem Assembled.FramedAs.growsTo {a : Assembled} {p q : ConstantPool} {l : Layout} {atEnd : Prop}
    (h : a.FramedAs p l atEnd) (hgrow : p.GrowsTo q) : a.FramedAs q l atEnd := by
  obtain ⟨maxStack, maxLocals, code, handlers, attributes, named, bytes, scan, hcode, hscan, hbytes,
    hnamed, hrest⟩ := h
  exact ⟨maxStack, maxLocals, code, handlers, attributes, named, bytes, scan, hcode, hscan, hbytes,
    lasting_areNamed _ _ p q hgrow hnamed, hrest⟩

/-- **A method that is written back** where frames are required: its entry is kept, or gets a body
    that has not lost its stack map table. -/
theorem ClassFile.getElem?_apply {c c' : ClassFile} {edited : ClassBody} {log log' : Log}
    {dropped : List DroppedAttributes} {k : Nat} {entry : MemberInfo} {m : Method}
    (wf : c.pool.WellFormed) (hversion : framesRequiredSince ≤ c.majorVersion)
    (h : c.apply edited log = (.ok (c', dropped), log')) (hentry : c.methods[k]? = some entry)
    (hm : edited.methods[k]? = some m) :
    ∃ entry' codeName, c.pool.GrowsTo c'.pool ∧ c'.methods[k]? = some entry' ∧
      c'.pool.text codeName = .ok AttributeName.code ∧
      (m.modified = false ∧ entry' = entry ∨
        ∃ a p q log log', p.WellFormed ∧ assemble m p log = ((.ok a, q), log') ∧
          q.GrowsTo c'.pool ∧ AttributeName.stackMap ∉ a.dropped ∧
          entry' = entry.setCode codeName a.body) := by
  obtain ⟨codeName, results, -, hpool, holds, heq, -, hran⟩ := ClassFile.ran_of_apply wf h
  have hzip : (c.methods.zip edited.methods)[k]? = some (entry, m) :=
    List.getElem?_zip_eq_some.2 ⟨hentry, hm⟩
  obtain ⟨r, hr, p, log₁, q, log₁', hp, -, hstep, hq⟩ := getElem?_of_forall₂ hran hzip
  have hmethods : c'.methods[k]? = some r.1 := by
    rw [show c'.methods = results.map Prod.fst from congrArg ClassFile.methods heq,
      List.getElem?_map, hr]
    rfl
  refine ⟨r.1, codeName, hpool, hmethods, holds.text, ?_⟩
  rcases applyMethod_eq_ok hstep with ⟨hkept, hsame, -⟩ | ⟨-, a, log₂, ha, hset, hframes⟩
  · exact .inl ⟨hkept, hsame⟩
  · exact .inr ⟨a, p, q, log₁, log₂, hp, ha, hq, hframes hversion, hset⟩

/-- **A redirected method is as framed as it was.** Let a class require frames, and let the code of a
    method have one wherever it jumps to and wherever it handles exceptions, and not go on behind its
    last instruction. When its calls are redirected and the class is written back, the entry stays
    as it was or gets a code attribute that has a frame wherever its code jumps to, except where a
    wide condition ends, and wherever it handles exceptions. The end of the code has no frame; if the
    method handled exceptions there, it still does. -/
theorem ClassFile.framed_of_redirect {data : Bytes} {c c' : ClassFile} {decoded edited : ClassBody}
    {log log' : Log} {dropped : List DroppedAttributes} {k : Nat} {entry : MemberInfo} {m : Method}
    {before after : List RawAttribute} {code : RawAttribute} {parts : CodeParts} {scan : CodeScan}
    {last : Insn} {className : String} {table : RedirectTable} {filter : CallFilter}
    {summary : RedirectSummary} (hread : ClassFile.read data = .ok c)
    (hversion : framesRequiredSince ≤ c.majorVersion) (hdecode : c.decode = .ok decoded)
    (hentry : c.methods[k]? = some entry) (hm : decoded.methods[k]? = some m)
    (first : FirstCode c.pool entry.attributes before code after)
    (hparts : CodeParts.read c.pool code.body = .ok parts) (hscan : scanCode parts.code = .ok scan)
    (framed : parts.Framed scan) (hlast : m.insns.getLast? = some last)
    (hends : last.fallsThrough = false) (hvar : ∀ i ∈ m.insns, i.VarFits)
    (hredirect : (redirectCalls className table filter m).result = .ok summary)
    (hedited : edited.methods[k]? = some (redirectCalls className table filter m).method)
    (happly : c.apply edited log = (.ok (c', dropped), log')) :
    ∃ entry' codeName, c'.methods[k]? = some entry' ∧
      c'.pool.text codeName = .ok AttributeName.code ∧
      ((redirectCalls className table filter m).method.modified = false ∧ entry' = entry ∧
          CodeParts.read c'.pool code.body = .ok parts ∨
        ∃ (a : Assembled) (l : Layout) (p q : ConstantPool),
          layOut (redirectCalls className table filter m).method p = (.ok l, q) ∧
          a.FramedAs c'.pool l parts.HandlesAtEnd ∧ entry' = entry.setCode codeName a.body) := by
  obtain ⟨name, -, hrest⟩ := bind_eq_ok.1 hdecode
  obtain ⟨methods, hmethods, hrest⟩ := bind_eq_ok.1 hrest
  obtain ⟨superName, -, hrest⟩ := bind_eq_ok.1 hrest
  cases hrest
  obtain ⟨m', hm', hmember⟩ := getElem?_of_forall₂ (mapM_eq_ok.1 hmethods) hentry
  cases hm.symm.trans hm'
  obtain ⟨_, _, -, -, hbody⟩ := (ClassFile.decodeMember_of_first first).1 hmember
  obtain ⟨o, hframed⟩ := framedBy_of_decode hbody hparts hscan framed hlast hends
  have hframed' := framedBy_redirectCalls hframed hredirect
  have form := (redirectedFrom_of_redirectCalls hredirect).opcodeFits
    (Method.opcodeFits_of_decode hbody hvar)
  have counted := entriesFit_redirectCalls hredirect (Method.entriesFit_of_decode hbody)
  obtain ⟨entry', codeName, hpool, hentry', hcode, ⟨hsame, heq⟩ |
      ⟨a, p, q, _, _, hp, ha, hq, hkept, heq⟩⟩ :=
    ClassFile.getElem?_apply (wellFormed_of_read hread) hversion happly hentry hedited
  · exact ⟨entry', codeName, hentry', hcode, .inl ⟨hsame, heq, hpool.readParts _ _ hparts⟩⟩
  · obtain ⟨l, p₁, hl, has⟩ := framed_of_assemble hp ha counted form hframed' hkept
    exact ⟨entry', codeName, hentry', hcode, .inr ⟨a, l, p, p₁, hl, has.growsTo hq, heq⟩⟩

/-! ## A branch over a call

A condition skips a call without a replacement. The call is replaced by nothing, so the frame where
the condition leads moves three bytes ahead. -/

namespace skippedCall

/-- The pool of a class with a method that calls `gl/A.draw` and has a stack map table. -/
def pool : ConstantPool :=
  (((((switchLoop.pool.push (.utf8 (Modified.encodeText AttributeName.stackMap))).push
    (.utf8 (Modified.encodeText "gl/A"))).push (.classRef 9)).push
    (.utf8 (Modified.encodeText "draw"))).push (.nameAndType 11 4)).push (.methodRef 10 12)

/-- The code of the method. -/
def code : Bytes :=
  [0x03, Opcode.ifeq, 0, 6, 0xb8, 0, 13, 0xb1]

/-- Its stack map table, with a frame at the last instruction. -/
def frames : Bytes :=
  [0, 1, 7]

/-- Its code attribute. -/
def body : Bytes :=
  [0, 1, 0, 0, 0, 0, 0, 8] ++ code ++ [0, 0, 0, 1, 0, 8, 0, 0, 0, 3] ++ frames

/-- The entry of the method. -/
def entry : MemberInfo :=
  ⟨staticFlag, 3, 4, [⟨5, body⟩]⟩

/-- The class with that method. -/
def classFile : ClassFile :=
  { switchLoop.classFile with pool, methods := [entry] }

/-- The code that was read. -/
def origin : CodeOrigin where
  maxStack := 1
  maxLocals := 0
  codeLength := 8
  labelOffsets := [(⟨0⟩, 7)]
  attributes := [(AttributeName.stackMap, frames)]

/-- The method that was read. -/
def method : Method where
  name := "f"
  descriptor := "()V"
  flags := staticFlag
  nodes := #[.insn (.simple 0x03), .insn (.jump Opcode.ifeq ⟨0⟩), glCall "draw" "()V", .label ⟨0⟩,
    .insn (.simple 0xb1)]
  nextLabel := 1
  origin := some origin

/-- The method without the call. -/
def redirected : Method :=
  { method with
    nodes := #[.insn (.simple 0x03), .insn (.jump Opcode.ifeq ⟨0⟩), .label ⟨0⟩, .insn (.simple 0xb1)]
    modified := true }

/-- The class with that method. -/
def edited : ClassBody where
  name := "A"
  superName := some "java/lang/Object"
  methods := [redirected]

/-- What is reported about the call. -/
def summary : RedirectSummary where
  stubbed := [{ place := ⟨"A", "f", "()V"⟩, call := ⟨"gl/A", "draw", "()V"⟩ }]

theorem redirect_eq : (redirectCalls "A" clearTable glFilter method).result = .ok summary ∧
    (redirectCalls "A" clearTable glFilter method).method = redirected := by
  constructor <;> cbv

theorem wellFormed_pool : pool.WellFormed :=
  (((((switchLoop.wellFormed_pool.push (by decide) (by decide)).push (by decide) (by decide)).push
    (by decide) (by decide)).push (by decide) (by decide)).push (by decide) (by decide)).push
    (by decide) (by decide)

theorem read_classFile : ∃ data, ClassFile.read data = .ok classFile := by
  obtain ⟨data, hdata, small⟩ : ∃ data, classFile.bytes = .ok data ∧
      data.length < Reader.positionLimit := ⟨_, rfl, by decide +kernel⟩
  exact ⟨data, ClassFile.read_bytes wellFormed_pool (Nat.zero_le _) hdata small⟩

/-- The parts of the code attribute. -/
def parts : CodeParts where
  maxStack := 1
  maxLocals := 0
  code := code.toArray
  handlers := []
  frameOffsets := [7]
  others := [(AttributeName.stackMap, frames)]

theorem read_body : CodeParts.read pool body = .ok parts := by
  have htext : pool.text 8 = .ok AttributeName.stackMap := text_of_get rfl
  have hbytes : attributesBytes [⟨8, frames⟩] = .ok ([0, 1, 0, 8, 0, 0, 0, 3] ++ frames) := rfl
  show CodeParts.read pool (codeBody 1 0 code [] _) = _
  refine read_codeBody (by decide) (by decide) (List.forall_mem_nil _) hbytes ?_
  exact bind_eq_ok.2 ⟨_, bind_eq_ok.2 ⟨_, htext, rfl⟩, rfl⟩

/-- The scan of the code. -/
def scan : CodeScan :=
  ⟨#[0, 1, 4, 7], #[7]⟩

theorem scan_eq : scanCode code.toArray = .ok scan := by
  refine scanFrom_of_insn 1 [] rfl (by decide) (by decide) rfl ?_
  refine scanFrom_of_insn 3 [7] rfl (by decide) (by decide) rfl ?_
  refine scanFrom_of_insn 3 [] rfl (by decide) (by decide) rfl ?_
  refine scanFrom_of_insn 1 [] rfl (by decide) (by decide) rfl ?_
  exact scanFrom_of_end (by decide)

theorem framed : parts.Framed scan where
  targets n hn := by
    have hseven : n = 7 := by simpa [scan] using hn
    rw [hseven]
    exact ⟨frames, [⟨7, .same, []⟩], List.mem_singleton.2 rfl, rfl, List.mem_singleton.2 rfl⟩
  handlers := List.forall_mem_nil _

/-- The method that is called. -/
theorem memberRef_draw : pool.memberRef 13 =
    .ok { owner := "gl/A", name := "draw", descriptor := "()V", interface := false } :=
  memberRef_of_get rfl rfl (text_of_get rfl) rfl (text_of_get rfl) (text_of_get rfl)

theorem decodeMethod_eq :
    decodeMethod pool { name := "f", descriptor := "()V", flags := staticFlag } body =
      .ok method := by
  have nodup : [7].Nodup := by decide
  have hnodes : ∀ {n : Nat} {i : Insn},
      decodeInsn parts.code pool (labelTable (numberLabels [7])) n = .ok i →
      nodesAt parts pool (labelTable (numberLabels [7])) (lineTable []) n = .ok _ :=
    fun hi => nodesAt_of_decodeInsn nodup hi
  have hjump : decodeInsn parts.code pool (labelTable (numberLabels [7])) 1 =
      .ok (.jump Opcode.ifeq ⟨0⟩) :=
    decodeInsn_eq_ok.2 ⟨Opcode.ifeq, .jump, rfl, rfl, bind_eq_ok.2 ⟨6, rfl,
      bind_eq_ok.2 ⟨⟨0⟩, orFail_eq_ok.2 (at?_numberLabels nodup 7), rfl⟩⟩⟩
  refine decodeMethod_eq_ok.2 ⟨parts, scan, [7], _, [], [], [], read_body, scan_eq, ?_,
    mapM_eq_ok.2 (.cons (hnodes rfl) (.cons (hnodes hjump)
      (.cons (hnodes (decodeInsn_static rfl rfl memberRef_draw)) (.cons (hnodes rfl) .nil)))),
    rfl, rfl, rfl, ?_⟩
  · exact labelledOffsets_eq_ok.2 ⟨by decide, by decide⟩
  · rw [at?_numberLabels nodup]
    rfl

theorem firstCode : FirstCode classFile.pool entry.attributes [] ⟨5, body⟩ [] :=
  ⟨rfl, fun _ h => (List.not_mem_nil h).elim, text_of_get rfl⟩

theorem decode_classFile : classFile.decode =
    .ok { name := "A", superName := some "java/lang/Object", methods := [method] } := by
  have hname : pool.className 2 = .ok "A" := bind_eq_ok.2 ⟨.classRef 1, rfl, text_of_get rfl⟩
  have hsuper : pool.className 7 = .ok "java/lang/Object" :=
    bind_eq_ok.2 ⟨.classRef 6, rfl, text_of_get rfl⟩
  have hmember : classFile.decodeMember "A" entry = .ok method :=
    (ClassFile.decodeMember_of_first firstCode).2
      ⟨"f", "()V", text_of_get rfl, text_of_get rfl, decodeMethod_eq⟩
  exact bind_eq_ok.2 ⟨"A", during_eq_ok.2 hname,
    bind_eq_ok.2 ⟨[method], mapM_eq_ok.2 (.cons hmember .nil),
      bind_eq_ok.2 ⟨some "java/lang/Object", during_eq_ok.2 (map_eq_ok.2 ⟨_, hsuper, rfl⟩), rfl⟩⟩⟩

/-- The place of the label among the nodes without the call. -/
def positions : Std.HashMap Label Nat :=
  (∅ : Std.HashMap Label Nat).insert ⟨0⟩ 2

/-- The elements of the method without the call. -/
def pieces : List Piece :=
  [{ node := .insn (.simple 0x03) }, { node := .insn (.jump Opcode.ifeq ⟨0⟩) },
    { node := .label ⟨0⟩ }, { node := .insn (.simple 0xb1) }]

/-- Their layout. -/
def layout : Layout :=
  ⟨pieces, positions, pieceOffsets pieces⟩

theorem getElem?_positions : positions[(⟨0⟩ : Label)]? = some 2 :=
  Std.HashMap.getElem?_insert_self

theorem offsetOf_eq : layout.offsetOf ⟨0⟩ = 4 := by
  rw [Layout.offsetOf, labelOffset, show layout.positions[(⟨0⟩ : Label)]? = some 2 from
    getElem?_positions]
  decide

theorem layOut_eq : layOut redirected pool = (.ok layout, pool) := by
  have hpositions : distinctPositions redirected.nodes = .ok positions := by
    have hlabel : placeNode ∅ (.label ⟨0⟩, 2) = .ok positions := by
      simp only [placeNode, Std.HashMap.contains_empty]
      rfl
    rw [distinctPositions_eq]
    exact bind_eq_ok.2 ⟨∅, rfl, bind_eq_ok.2 ⟨∅, rfl, bind_eq_ok.2 ⟨positions, hlabel, rfl⟩⟩⟩
  have hreferences : checkReferences redirected positions = .ok () := by
    unfold checkReferences
    rw [List.find?_eq_none.2]
    intro label hlabel
    rw [List.mem_singleton.1 (show label ∈ [⟨0⟩] from hlabel)]
    simp [positions]
  have hwiden : widenAll positions pieces = pieces := by
    have htarget : labelOffset positions (pieceOffsets pieces) ⟨0⟩ = 4 := offsetOf_eq
    rw [widenAll, dif_neg]
    rw [zip_pieceOffsets]
    generalize labelOffset positions (pieceOffsets pieces) = target at htarget
    simp only [pieces, placedFrom, List.any_cons, List.any_nil, Piece.overflows, htarget]
    decide
  refine layOut_eq_ok.2 ⟨by simp [redirected, Node.isMarker], positions, pieces, hpositions,
    hreferences, rfl, ?_, by decide⟩
  rw [Layout.ofPieces, hwiden]
  rfl

/-- The code without the call. -/
theorem encode_eq : layout.encode = .ok [0x03, Opcode.ifeq, 0, 3, 0xb1] := by
  have hjump : encodeJump Opcode.ifeq false (Insn.encode.delta 1 layout.offsetOf ⟨0⟩) =
      .ok [Opcode.ifeq, 0, 3] := by
    rw [Insn.encode.delta, offsetOf_eq]
    rfl
  exact bind_eq_ok.2 ⟨_, mapM_eq_ok.2 (.cons rfl (.cons hjump (.cons rfl (.cons rfl .nil)))), rfl⟩

/-- Where the frame is now. -/
theorem relocateFrames_eq {newOffset : Nat → Option Nat} (h : newOffset 7 = some 4) :
    relocateFrames newOffset frames = .ok [0, 1, 4] := by
  refine bind_eq_ok.2 ⟨[⟨7, .same, []⟩], rfl, bind_eq_ok.2
    ⟨{ written := [[4]], previous := some 4, carried := .nothing }, ?_, rfl⟩⟩
  have hadd : FrameTable.add newOffset {} ⟨7, .same, []⟩ =
      .ok { written := [[4]], previous := some 4, carried := .nothing } := by
    unfold FrameTable.add
    simp only [h]
    rfl
  exact bind_eq_ok.2 ⟨_, hadd, rfl⟩

theorem carryAttributes_eq (log : Log) : carryAttributes redirected layout { kept := [] } pool log =
    ((.ok { kept := [⟨8, [0, 1, 4]⟩] }, pool), log) := by
  have hname : namedAttribute AttributeName.stackMap [0, 1, 4] pool = (.ok ⟨8, [0, 1, 4]⟩, pool) :=
    Step.bind_eq_ok.2 ⟨8, pool, intern_of_isFirstSlot wellFormed_pool ⟨rfl, by decide +kernel⟩, rfl⟩
  have hkeep : carryAttribute.keep { kept := [] } AttributeName.stackMap [0, 1, 4] pool log =
      ((.ok { kept := [⟨8, [0, 1, 4]⟩] }, pool), log) :=
    Assembly.bind_eq_ok.2 ⟨_, pool, log, Assembly.liftStep_eq_ok.2 ⟨hname, rfl⟩, rfl⟩
  have hmoved : origin.newOffset layout 7 = some 4 := by
    have hplace : layout.offsetOf? ⟨0⟩ = some 4 :=
      layout.offsetOf?_eq.2 ⟨⟨2, getElem?_positions⟩, offsetOf_eq⟩
    have nodup : [7].Nodup := by decide
    refine Option.bind_eq_some_iff.2 ⟨⟨0⟩, at?_numberLabels nodup 7, ?_⟩
    exact Option.bind_eq_some_iff.2 ⟨4, hplace, rfl⟩
  have hcarry : carryAttribute redirected false (origin.newOffset layout) { kept := [] }
      AttributeName.stackMap frames pool log = ((.ok { kept := [⟨8, [0, 1, 4]⟩] }, pool), log) := by
    unfold carryAttribute
    rw [if_neg (by decide), if_pos rfl, relocateFrames_eq hmoved]
    exact hkeep
  exact Assembly.bind_eq_ok.2 ⟨_, _, _, hcarry, rfl⟩

theorem greatestDepth_eq : greatestDepth redirected = .ok 1 := by
  have hflow : flow positions (.jump Opcode.ifeq ⟨0⟩) 1 1 0 = .ok [⟨2, 0⟩, ⟨2, 0⟩] :=
    bind_eq_ok.2 ⟨[⟨2, 0⟩], mapM_eq_ok.2 (.cons (bind_eq_ok.2 ⟨2, orFail_eq_ok.2 getElem?_positions,
      rfl⟩) .nil), rfl⟩
  refine bind_eq_ok.2 ⟨[], rfl, bind_eq_ok.2 ⟨⟨#[some 0, some 1, some 0, some 0], 1⟩, ?_, rfl⟩⟩
  show walk redirected.nodes positions ⟨#[none, none, none, none], 0⟩ [⟨0, 0⟩] = _
  rw [walk]
  show walk redirected.nodes positions ⟨#[some 0, none, none, none], 1⟩ [⟨1, 1⟩] = _
  rw [walk]
  refine bind_eq_ok.2 ⟨⟨1, 0⟩, rfl, bind_eq_ok.2 ⟨_, hflow, ?_⟩⟩
  show walk redirected.nodes positions ⟨#[some 0, some 1, none, none], 1⟩ [⟨2, 0⟩, ⟨2, 0⟩] = _
  rw [walk]
  show walk redirected.nodes positions ⟨#[some 0, some 1, some 0, none], 1⟩ [⟨3, 0⟩, ⟨2, 0⟩] = _
  rw [walk]
  show walk redirected.nodes positions ⟨#[some 0, some 1, some 0, some 0], 1⟩ [⟨2, 0⟩] = _
  rw [walk, walk]
  rfl

/-- The code attribute without the call. -/
def assembled : Assembled where
  body := codeBody 1 0 [0x03, Opcode.ifeq, 0, 3, 0xb1] [] [0, 1, 0, 8, 0, 0, 0, 3, 0, 1, 4]
  dropped := []

theorem assemble_eq (log : Log) : assemble redirected pool log = ((.ok assembled, pool), log) := by
  have hdepth : maxStack redirected = .ok 1 := bind_eq_ok.2 ⟨1, greatestDepth_eq, rfl⟩
  have hlocals : requiredLocals redirected = .ok 0 := bind_eq_ok.2 ⟨_, Descriptor.parse_nothing, rfl⟩
  exact assemble_eq_ok.2 ⟨layout, pool, [0x03, Opcode.ifeq, 0, 3, 0xb1], [], pool, log, [], pool, [],
    pool, [], pool, { kept := [⟨8, [0, 1, 4]⟩] }, 1, 0, [0, 1, 0, 8, 0, 0, 0, 3, 0, 1, 4],
    layOut_eq, encode_eq, rfl, rfl, rfl, rfl, carryAttributes_eq log, hdepth, hlocals, rfl, rfl⟩

/-- The class without the call. -/
def written : ClassFile :=
  { classFile with methods := [entry.setCode 5 assembled.body], pool := pool }

theorem apply_eq (log : Log) : classFile.apply edited log = (.ok (written, []), log) := by
  have hname : internText AttributeName.code pool = (.ok 5, pool) :=
    intern_of_isFirstSlot wellFormed_pool ⟨rfl, by decide +kernel⟩
  exact ClassFile.apply_of_assemble rfl rfl hname rfl (assemble_eq log) rfl

theorem varFits : ∀ i ∈ method.insns, i.VarFits := by
  intro i hi
  rw [show method.insns = [.simple 0x03, .jump Opcode.ifeq ⟨0⟩, .call
    { owner := "gl/A", name := "draw", descriptor := "()V", interface := false, kind := .static },
    .simple 0xb1] from rfl] at hi
  simp only [List.mem_cons, List.not_mem_nil, or_false] at hi
  rcases hi with rfl | rfl | rfl | rfl <;> trivial

end skippedCall

/-- The frame behind a skipped call is still where the condition leads. -/
theorem ClassFile.framed_of_redirect_skippedCall : ∃ data decoded,
    ClassFile.read data = .ok skippedCall.classFile ∧
      skippedCall.classFile.decode = .ok decoded ∧
      (redirectCalls "A" clearTable glFilter skippedCall.method).result =
        .ok skippedCall.summary ∧
      skippedCall.classFile.apply skippedCall.edited #[] = (.ok (skippedCall.written, []), #[]) ∧
      ∃ entry' codeName, skippedCall.written.methods[0]? = some entry' ∧
        skippedCall.written.pool.text codeName = .ok AttributeName.code ∧
        ((redirectCalls "A" clearTable glFilter skippedCall.method).method.modified = false ∧
            entry' = skippedCall.entry ∧
            CodeParts.read skippedCall.written.pool skippedCall.body = .ok skippedCall.parts ∨
          ∃ (a : Assembled) (l : Layout) (p q : ConstantPool),
            layOut (redirectCalls "A" clearTable glFilter skippedCall.method).method p =
              (.ok l, q) ∧
            a.FramedAs skippedCall.written.pool l skippedCall.parts.HandlesAtEnd ∧
            entry' = skippedCall.entry.setCode codeName a.body) := by
  obtain ⟨data, hdata⟩ := skippedCall.read_classFile
  obtain ⟨hresult, hmethod⟩ := skippedCall.redirect_eq
  have hedited : skippedCall.edited.methods[0]? =
      some (redirectCalls "A" clearTable glFilter skippedCall.method).method :=
    congrArg some hmethod.symm
  have hentry : skippedCall.classFile.methods[0]? = some skippedCall.entry := rfl
  have happly := skippedCall.apply_eq #[]
  have framed := ClassFile.framed_of_redirect hdata (by decide) skippedCall.decode_classFile hentry
    rfl skippedCall.firstCode skippedCall.read_body skippedCall.scan_eq skippedCall.framed rfl rfl
    skippedCall.varFits hresult hedited happly
  exact ⟨data, _, hdata, skippedCall.decode_classFile, hresult, happly, framed⟩

end Rewire
