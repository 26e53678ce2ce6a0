import Mathlib
import Rewire.Proofs.ClassFile.WriteBack
import Rewire.Proofs.Code.Meaning

/-!
# What the operands of a class mean

A method of a class that was read keeps what its operands mean when it is assembled as it was
decoded, apart from surrogates without a partner (`ClassFile.operands_of_assemble`). A class that
loads such a surrogate shows that they do get lost.
-/

namespace Rewire

open ConstantPool

/-- **Assembling a method of a class as it was decoded** gives it a body whose operands lead to the
    same units, but for surrogates without a partner, each of which becomes U+FFFD. -/
theorem ClassFile.operands_of_assemble {data : Bytes} {c : ClassFile} {decoded : ClassBody}
    {entry : MemberInfo} {m : Method} {q : ConstantPool} {a : Assembled} {log log' : Log}
    (hread : ClassFile.read data = .ok c) (hdecode : c.decode = .ok decoded)
    (hentry : (entry, m) ∈ c.methods.zip decoded.methods) (hcode : m.hasCode = true)
    (h : assemble m c.pool log = ((.ok a, q), log')) :
    ∃ before code after, FirstCode c.pool entry.attributes before code after ∧
      a.MendsOperands m code.body c.pool c.pool q := by
  obtain ⟨name, -, hrest⟩ := bind_eq_ok.1 hdecode
  obtain ⟨methods, hmethods, hrest⟩ := bind_eq_ok.1 hrest
  obtain ⟨superName, -, hrest⟩ := bind_eq_ok.1 hrest
  cases hrest
  have hmember : c.decodeMember name entry = .ok m := List.forall₂_zip (mapM_eq_ok.1 hmethods) hentry
  obtain ⟨_, _, -, -, ⟨-, rfl⟩ | ⟨before, code, after, first, hm⟩⟩ :=
    ClassFile.decodeMember_eq_ok.1 hmember
  · cases hcode
  · exact ⟨before, code, after, first,
      mendsOperands_of_assemble hm (.refl c.pool) (wellFormed_of_read hread) h⟩

/-! ## A surrogate without a partner -/

namespace loneSurrogate

/-- The pool of a class with a string of one leading surrogate. -/
def pool : ConstantPool :=
  (switchLoop.pool.push (.utf8 [0xed, 0xa0, 0x80])).push (.string 8)

/-- The code attribute of a method that loads the string and drops it. -/
def body : Bytes :=
  [0, 1, 0, 0, 0, 0, 0, 4, Opcode.ldc, 9, Opcode.pop, 0xb1, 0, 0, 0, 0]

/-- The entry of that method. -/
def entry : MemberInfo :=
  ⟨staticFlag, 3, 4, [⟨5, body⟩]⟩

/-- The class with that method. -/
def classFile : ClassFile :=
  { switchLoop.classFile with pool, methods := [entry] }

/-- The method that was read. -/
def method : Method where
  name := "f"
  descriptor := "()V"
  flags := staticFlag
  nodes := #[.insn (.ldc (.string "\ufffd")), .insn (.simple Opcode.pop), .insn (.simple 0xb1)]
  origin := some { maxStack := 1, maxLocals := 0, codeLength := 4, labelOffsets := [], attributes := [] }

theorem wellFormed_pool : pool.WellFormed :=
  (switchLoop.wellFormed_pool.push (by decide) (by decide)).push (by decide) (by decide)

theorem read_classFile : ∃ data, ClassFile.read data = .ok classFile := by
  obtain ⟨data, hdata, small⟩ : ∃ data, classFile.bytes = .ok data ∧
      data.length < Reader.positionLimit := ⟨_, rfl, by decide⟩
  exact ⟨data, ClassFile.read_bytes wellFormed_pool (Nat.zero_le _) hdata small⟩

theorem text_eq : pool.text 8 = .ok "\ufffd" :=
  bind_eq_ok.2 ⟨.utf8 [0xed, 0xa0, 0x80], rfl, by cbv⟩

theorem decodeMethod_eq :
    decodeMethod pool { name := "f", descriptor := "()V", flags := staticFlag } body =
      .ok method := by
  have hscan : scanCode #[Opcode.ldc, 9, Opcode.pop, 0xb1] = .ok ⟨#[0, 2, 3], #[]⟩ := by
    refine scanFrom_of_insn 2 [] rfl (by decide) (by decide) rfl ?_
    refine scanFrom_of_insn 1 [] rfl (by decide) (by decide) rfl ?_
    refine scanFrom_of_insn 1 [] rfl (by decide) (by decide) rfl ?_
    exact scanFrom_of_end (by decide)
  refine decodeMethod_eq_ok.2 ⟨{
      maxStack := 1, maxLocals := 0, code := #[Opcode.ldc, 9, Opcode.pop, 0xb1], handlers := [] },
    ⟨#[0, 2, 3], #[]⟩, [], [[.insn (.ldc (.string "\ufffd"))], [.insn (.simple Opcode.pop)],
      [.insn (.simple 0xb1)]], [], [], [], rfl, hscan, ?_, ?_, rfl, rfl, rfl, ?_⟩
  · exact labelledOffsets_eq_ok.2 ⟨List.forall_mem_nil _, rfl⟩
  · have hload : decodeLoadable pool 9 false = .ok (.string "\ufffd") :=
      bind_eq_ok.2 ⟨.string 8, rfl, bind_eq_ok.2 ⟨_, text_eq, rfl⟩⟩
    have hldc : ∀ labels, decodeInsn #[Opcode.ldc, 9, Opcode.pop, 0xb1] pool labels 0 =
        .ok (.ldc (.string "\ufffd")) := fun _ =>
      decodeInsn_eq_ok.2 ⟨Opcode.ldc, .ldc, rfl, rfl, bind_eq_ok.2 ⟨9, rfl,
        bind_eq_ok.2 ⟨_, hload, rfl⟩⟩⟩
    exact mapM_eq_ok.2 (.cons (nodesAt_of_decodeInsn List.nodup_nil (hldc _)) (.cons
      (nodesAt_of_decodeInsn List.nodup_nil rfl) (.cons
      (nodesAt_of_decodeInsn List.nodup_nil rfl) .nil)))
  · rw [at?_numberLabels List.nodup_nil]
    rfl

theorem firstCode : FirstCode classFile.pool entry.attributes [] ⟨5, body⟩ [] :=
  ⟨rfl, fun _ h => (List.not_mem_nil h).elim, text_of_get rfl⟩

theorem decode_classFile : classFile.decode =
    .ok { name := "A", superName := some "java/lang/Object", methods := [method] } := by
  have hname : pool.className 2 = .ok "A" :=
    bind_eq_ok.2 ⟨.classRef 1, rfl, text_of_get rfl⟩
  have hsuper : pool.className 7 = .ok "java/lang/Object" :=
    bind_eq_ok.2 ⟨.classRef 6, rfl, text_of_get rfl⟩
  have hmember : classFile.decodeMember "A" entry = .ok method :=
    (ClassFile.decodeMember_of_first firstCode).2
      ⟨"f", "()V", text_of_get rfl, text_of_get rfl, decodeMethod_eq⟩
  exact bind_eq_ok.2 ⟨"A", during_eq_ok.2 hname,
    bind_eq_ok.2 ⟨[method], mapM_eq_ok.2 (.cons hmember .nil),
      bind_eq_ok.2 ⟨some "java/lang/Object", during_eq_ok.2 (map_eq_ok.2 ⟨_, hsuper, rfl⟩), rfl⟩⟩⟩

/-- The pool with the text that was read, and a string of it. -/
def grownPool : ConstantPool :=
  (pool.push (.utf8 (Modified.encodeText "\ufffd"))).push (.string 10)

theorem internString_eq : internString "\ufffd" pool = (.ok 11, grownPool) := by
  have fits : (Modified.encodeText "\ufffd").length ≤ maxTextLength := by decide
  have htext : internText "\ufffd" pool =
      (.ok 10, pool.push (.utf8 (Modified.encodeText "\ufffd"))) := by
    unfold internText
    rw [if_pos fits]
    exact intern_of_absent wellFormed_pool (by decide +kernel) (by decide)
  have hstring : intern (.string 10) (pool.push (.utf8 (Modified.encodeText "\ufffd"))) =
      (.ok 11, grownPool) :=
    intern_of_absent (wellFormed_pool.push (by decide) (Constant.textFits_utf8.2 fits))
      (by decide +kernel) (by decide)
  exact Step.bind_eq_ok.2 ⟨_, _, htext, hstring⟩

/-- The elements of the method. -/
def pieces : List Piece :=
  [{ node := .insn (.ldc (.string "\ufffd")), operand := 11 },
    { node := .insn (.simple Opcode.pop) }, { node := .insn (.simple 0xb1) }]

theorem layOut_eq : layOut method pool = (.ok ⟨pieces, ∅, pieceOffsets pieces⟩, grownPool) := by
  have hpieces : method.nodes.toList.mapM internPiece pool = (.ok pieces, grownPool) := by
    show (List.mapM internPiece [_, _, _] : PoolStep (List Piece)) pool = _
    rw [List.mapM_cons]
    refine Step.bind_eq_ok.2 ⟨_, _, Step.bind_eq_ok.2 ⟨_, _, internString_eq, rfl⟩, rfl⟩
  exact layOut_of_no_jumps (by simp [method, Node.isMarker]) rfl rfl hpieces (by simp [pieces])
    (by decide)

theorem greatestDepth_eq : greatestDepth method = .ok 1 := by
  refine bind_eq_ok.2 ⟨[], rfl, bind_eq_ok.2 ⟨⟨#[some 0, some 1, some 0], 1⟩, ?_, rfl⟩⟩
  show walk method.nodes ∅ ⟨#[none, none, none], 0⟩ [⟨0, 0⟩] = _
  rw [walk]
  show walk method.nodes ∅ ⟨#[some 0, none, none], 1⟩ [⟨1, 1⟩] = _
  rw [walk]
  show walk method.nodes ∅ ⟨#[some 0, some 1, none], 1⟩ [⟨2, 0⟩] = _
  rw [walk]
  show walk method.nodes ∅ ⟨#[some 0, some 1, some 0], 1⟩ [] = _
  rw [walk]

theorem assemble_eq : ∃ a, assemble method pool #[] = ((.ok a, grownPool), #[]) := by
  have hdepth : maxStack method = .ok 1 := bind_eq_ok.2 ⟨1, greatestDepth_eq, rfl⟩
  have hlocals : requiredLocals method = .ok 0 := bind_eq_ok.2 ⟨_, Descriptor.parse_nothing, rfl⟩
  exact ⟨_, assemble_eq_ok.2 ⟨_, grownPool, [Opcode.ldc, 11, Opcode.pop, 0xb1], [], grownPool, #[], [],
    grownPool, [], grownPool, [], grownPool, { kept := [] }, 1, 0, [0, 0], layOut_eq, rfl, rfl, rfl,
    rfl, rfl, rfl, hdepth, hlocals, rfl, rfl⟩⟩

end loneSurrogate

/-- A leading surrogate that is loaded is no longer one when the method is assembled as it was
    decoded. -/
theorem ClassFile.operands_of_assemble_loneSurrogate : ∃ data decoded a q,
    ClassFile.read data = .ok loneSurrogate.classFile ∧
      loneSurrogate.classFile.decode = .ok decoded ∧
      assemble loneSurrogate.method loneSurrogate.pool #[] = ((.ok a, q), #[]) ∧
      (∃ before code after,
        FirstCode loneSurrogate.pool loneSurrogate.entry.attributes before code after ∧
        a.MendsOperands loneSurrogate.method code.body loneSurrogate.pool loneSurrogate.pool q) ∧
      loneSurrogate.pool.reachedUnits 9 = .ok [[0xd800]] ∧
      q.reachedUnits 11 = .ok [[0xfffd]] := by
  obtain ⟨data, hdata⟩ := loneSurrogate.read_classFile
  obtain ⟨a, ha⟩ := loneSurrogate.assemble_eq
  have hdecode := loneSurrogate.decode_classFile
  exact ⟨data, _, a, loneSurrogate.grownPool, hdata, hdecode, ha,
    ClassFile.operands_of_assemble hdata hdecode List.mem_cons_self rfl ha, rfl, rfl⟩

end Rewire
