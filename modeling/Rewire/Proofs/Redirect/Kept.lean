import Mathlib
import Rewire.Proofs.Redirect.Frames

/-!
# Attributes that redirection keeps

An attribute of the code that was read is kept as it is if the code is as long as it was and all its
labels are where they were. It may mention other offsets too. This file shows

* that what moves then stands between changes that make up for each other (`compensated_of_ne`);
* that the instructions which redirection leaves untouched are where they were if an attribute is kept,
  unless changes before and behind them make up for each other (`stays_of_kept`).

That can happen: calls that take three bytes more and three bytes less, with no label between them,
move what is between them, and the attribute is kept (`shiftedCall`).
-/

namespace Rewire

open ConstantPool

/-! ## 1. Room -/

/-- The room from an offset to the next. -/
def room (offset : Nat → Nat) (k : Nat) : Nat :=
  offset (k + 1) - offset k

/-- Whether something before a position changed its room and something behind it made up for that,
    with no label between them: one takes less room than it did, the other one more. -/
def Compensated (old new : Nat → Nat) (nodes : List Node) (k : Nat) : Prop :=
  ∃ i < k, ∃ j ≥ k, (∀ a label, i < a → a ≤ j → nodes[a]? ≠ some (.label label)) ∧
    (room new i < room old i ∧ room old j < room new j ∨
      room old i < room new i ∧ room new j < room old j)

section Room

variable {f g : Nat → Nat} {a k stop : Nat}

/-- What gets smaller on the way gets smaller in one step. -/
theorem exists_step_down {d : Nat → Int} (hak : a ≤ k) (h : d k < d a) :
    ∃ i, a ≤ i ∧ i < k ∧ d (i + 1) < d i := by
  induction k, hak using Nat.le_induction with
  | base => exact absurd h (Int.lt_irrefl _)
  | succ k hak ih =>
    by_cases hstep : d (k + 1) < d k
    · exact ⟨k, hak, Nat.lt_succ_self k, hstep⟩
    · obtain ⟨i, hai, hik, hi⟩ := ih (Int.lt_of_le_of_lt (Int.not_lt.1 hstep) h)
      exact ⟨i, hai, Nat.lt_succ_of_lt hik, hi⟩

/-- Where an offset is smaller, less room was taken before and more is taken behind, and the offsets
    differ from the one to the other. -/
theorem exists_rooms_of_lt (hf : Monotone f) (hg : Monotone g) (first : f 0 = g 0)
    (last : f stop = g stop) (hstop : k ≤ stop) (hlt : f k < g k) :
    ∃ i < k, ∃ j ≥ k, (∀ a, i < a → a ≤ j → f a ≠ g a) ∧
      room f i < room g i ∧ room g j < room f j := by
  -- The offsets are equal last at `before` and again at `behind`.
  let before := Nat.findGreatest (fun a => f a = g a) k
  have hbefore : f before = g before := Nat.findGreatest_spec (P := fun a => f a = g a)
    (Nat.zero_le k) first
  have hbehind : ∃ b, k ≤ b ∧ f b = g b := ⟨stop, hstop, last⟩
  have hstep {i : Nat} : f i ≤ f (i + 1) ∧ g i ≤ g (i + 1) :=
    ⟨hf (Nat.le_succ i), hg (Nat.le_succ i)⟩
  have hdown : ∃ i, before ≤ i ∧ i < k ∧ (f (i + 1) : Int) - g (i + 1) < f i - g i :=
    exists_step_down (d := fun a => (f a : Int) - g a) (Nat.findGreatest_le k)
      (show (f k : Int) - g k < f before - g before by omega)
  have hup : ∃ j, k ≤ j ∧ j < Nat.find hbehind ∧ (g (j + 1) : Int) - f (j + 1) < g j - f j := by
    obtain ⟨hle, heq⟩ := Nat.find_spec hbehind
    exact exists_step_down (d := fun a => (g a : Int) - f a) hle
      (show (g (Nat.find hbehind) : Int) - f (Nat.find hbehind) < g k - f k by omega)
  obtain ⟨i, hai, hik, hi⟩ := hdown
  obtain ⟨j, hkj, hjb, hj⟩ := hup
  refine ⟨i, hik, j, hkj, fun a hia haj heq => ?_, ?_, ?_⟩
  · rcases Nat.lt_or_ge k a with hka | hak
    · exact Nat.find_min hbehind (Nat.lt_of_le_of_lt haj hjb) ⟨Nat.le_of_lt hka, heq⟩
    · exact Nat.findGreatest_is_greatest (Nat.lt_of_le_of_lt hai hia) hak heq
  · have := hstep (i := i)
    unfold room
    omega
  · have := hstep (i := j)
    unfold room
    omega

/-- **A position whose offset changes** stands between changes that make up for each other, if the
    offsets of labels and of the end do not change. -/
theorem compensated_of_ne {old new : Nat → Nat} {nodes : List Node} (hold : Monotone old)
    (hnew : Monotone new) (first : new 0 = old 0) (last : new nodes.length = old nodes.length)
    (labels : ∀ a label, nodes[a]? = some (.label label) → new a = old a) (hk : k ≤ nodes.length)
    (hne : new k ≠ old k) : Compensated old new nodes k := by
  rcases Nat.lt_or_gt_of_ne hne with hlt | hgt
  · obtain ⟨i, hi, j, hj, hbetween, hrooms⟩ := exists_rooms_of_lt hnew hold first last hk hlt
    exact ⟨i, hi, j, hj, fun a label hia haj hat => hbetween a hia haj (labels a label hat),
      .inl hrooms⟩
  · obtain ⟨i, hi, j, hj, hbetween, hrooms⟩ :=
      exists_rooms_of_lt hold hnew first.symm last.symm hk hgt
    exact ⟨i, hi, j, hj, fun a label hia haj hat => hbetween a hia haj (labels a label hat).symm,
      .inr hrooms⟩

end Room

/-! ## 2. Methods -/

namespace Redirected

variable {pool : ConstantPool} {blank m : Method} {body : Bytes} {parts : CodeParts}
  {scan : CodeScan} {o : CodeOrigin} {table : RedirectTable} {filter : CallFilter}
  {ts : List Treatment} {l : Layout} {label : Label} {k : Nat}

/-- A label of code whose labels stay is where it was. -/
theorem newOffset_eq_of_preserved
    (h : Redirected pool blank m body parts scan o table filter ts l)
    (preserved : o.isPreserved l = true) (hk : m.nodes.toList[k]? = some (.label label)) :
    l.newOffset ts k = oldOffset scan.starts.toList parts.code.size m.nodes.toList k := by
  have hat := h.comesFrom.nodeAt k _ hk
  obtain ⟨offsets, hlabels, nodup, -⟩ := labelOffsets_of_decode h.decoded h.origin
  have hmem : (label, oldOffset scan.starts.toList parts.code.size m.nodes.toList k) ∈
      o.labelOffsets := by
    rw [hlabels] at hat ⊢
    exact mem_of_at? nodup hat
  have hall := List.all_eq_true.1 (Bool.and_eq_true_iff.1 preserved).2 _ hmem
  exact Option.some.inj ((h.treated.offsetOf?_label hk).symm.trans (of_decide_eq_true hall))

/-- **Code whose length and labels stay** is where it was, unless changes make up for each other. -/
theorem stays_or_compensated (h : Redirected pool blank m body parts scan o table filter ts l)
    (preserved : o.isPreserved l = true) (hk : k ≤ m.nodes.toList.length) :
    l.newOffset ts k = oldOffset scan.starts.toList parts.code.size m.nodes.toList k ∨
      Compensated (oldOffset scan.starts.toList parts.code.size m.nodes.toList) (l.newOffset ts)
        m.nodes.toList k := by
  obtain ⟨o', ho', -, hlength⟩ := exists_origin_of_decode h.decoded h.read
  cases h.origin.symm.trans ho'
  refine or_iff_not_imp_left.2 fun hne => compensated_of_ne (fun _ _ => h.comesFrom.mono)
    (fun _ _ => h.treated.mono) ?_ ?_ (fun _ _ => h.newOffset_eq_of_preserved preserved) hk hne
  · rw [h.treated.newOffset_zero, h.comesFrom.oldOffset_zero]
  · rw [h.treated.newOffset_length, h.comesFrom.oldOffset_length, ← hlength]
    exact of_decide_eq_true (Bool.and_eq_true_iff.1 preserved).1

end Redirected

/-- Whether code is that of an assembled body. -/
def Assembled.HasCode (a : Assembled) (code : Bytes) : Prop :=
  ∃ maxStack maxLocals rest,
    a.body = be16 maxStack ++ be16 maxLocals ++ be32 (UInt32.ofNat code.length) ++ code ++ rest

/-- Whether an instruction is laid out at an offset, and its bytes are there in the code. -/
def Layout.Writes (l : Layout) (code : Bytes) (i : Insn) (offset : Nat) : Prop :=
  ∃ p bytes, p.node = .insn i ∧ (p, offset) ∈ l.placed ∧
    i.encode offset p.operand p.wide l.offsetOf = .ok bytes ∧ BytesAt code.toArray offset bytes

/-- An instruction that stays is written at its new offset. -/
theorem Treated.writes_of_keep {table : RedirectTable} {filter : CallFilter} {nodes : List Node}
    {ts : List Treatment} {l : Layout} {code : Bytes} {k : Nat} {i : Insn}
    (h : Treated table filter nodes ts l) (counted : l.EntriesFit) (hcode : l.encode = .ok code)
    (hk : nodes[k]? = some (.insn i))
    (htreat : treat table filter (.insn i) = .ok (.keep (.insn i))) :
    l.Writes code i (l.newOffset ts k) := by
  obtain ⟨p, hnode, hplaced⟩ := h.placed_of_keep hk htreat
  obtain ⟨bytes, hbytes, hat⟩ := l.bytesAt_of_placed hcode h.consistent counted hplaced
  unfold Piece.encode at hbytes
  simp only [hnode] at hbytes
  exact ⟨p, bytes, hnode, hplaced, hbytes, hat⟩

/-- **Instructions stay where an attribute is kept.** Let a method be decoded, redirected and
    assembled, and let an attribute other than a stack map table be kept. Every instruction that
    redirection leaves untouched is written at the offset it was read from, unless something before it
    and something behind it, with no label between them, changed their room in opposite directions. -/
theorem stays_of_kept {className name : String} {pool p q : ConstantPool} {blank m : Method}
    {body kept : Bytes} {parts : CodeParts} {scan : CodeScan} {o : CodeOrigin}
    {table : RedirectTable} {filter : CallFilter} {summary : RedirectSummary}
    {log log' : Log} {a : Assembled}
    (hread : CodeParts.read pool body = .ok parts) (hscan : scanCode parts.code = .ok scan)
    (h : decodeMethod pool blank body = .ok m) (ho : m.origin = some o)
    (hresult : (redirectCalls className table filter m).result = .ok summary)
    (hassemble : assemble (redirectCalls className table filter m).method p log =
      ((.ok a, q), log'))
    (hkept : (name, kept) ∈ o.attributes) (hname : name ≠ AttributeName.stackMap)
    (undropped : name ∉ a.dropped) :
    ∃ l p₁ ts code, layOut (redirectCalls className table filter m).method p = (.ok l, p₁) ∧
      Treated table filter m.nodes.toList ts l ∧ l.encode = .ok code ∧ a.HasCode code ∧
      ∀ k i, m.nodes.toList[k]? = some (.insn i) →
        treat table filter (.insn i) = .ok (.keep (.insn i)) →
        l.Writes code i (l.newOffset ts k) ∧
          (l.newOffset ts k = oldOffset scan.starts.toList parts.code.size m.nodes.toList k ∨
            Compensated (oldOffset scan.starts.toList parts.code.size m.nodes.toList)
              (l.newOffset ts) m.nodes.toList k) := by
  obtain ⟨l, p₁, code, entries, _, _, _, _, _, _, _, _, _, stack, slots, bytes, hl, hcode, -, -, -, -,
    -, -, -, -, ha⟩ := assemble_eq_ok.1 hassemble
  obtain ⟨ts, treated⟩ := treated_of_layOut hresult hl
  have moved : Redirected pool blank m body parts scan o table filter ts l :=
    ⟨hread, hscan, h, ho, treated⟩
  have preserved : o.isPreserved l = true := by
    by_contra hchanged
    refine undropped ((mem_dropped_iff hassemble ((sameTables_redirectCalls hresult).1.trans ho) hl).2
      ⟨_, hkept, rfl, ?_⟩)
    rw [carriedAttribute, if_neg hchanged, if_neg hname]
  have fits := entriesFit_redirectCalls hresult (Method.entriesFit_of_decode h)
  have counted : l.EntriesFit := fun _ hpiece _ hi => fits _ ((isOf_of_layOut hl).mem_insns hpiece hi)
  have hbody : a.HasCode code := by
    rw [ha, Assembled.HasCode, l.length_of_encode hcode treated.consistent counted]
    exact ⟨_, _, _, List.append_assoc _ (tableBytes entries) bytes⟩
  refine ⟨l, p₁, ts, code, hl, treated, hcode, hbody, fun k i hk htreat =>
    ⟨treated.writes_of_keep counted hcode hk htreat, ?_⟩⟩
  exact moved.stays_or_compensated preserved (Nat.le_of_lt (List.getElem?_eq_some_iff.1 hk).1)

/-! ## An instruction between two calls

A call without a replacement becomes nothing, and one behind it six instructions. The code is as long
as it was, and there are no labels, so its annotations are kept. But what is between the calls is
three bytes ahead. -/

namespace shiftedCall

/-- The name of the attribute. -/
def annotations : String :=
  "RuntimeVisibleTypeAnnotations"

/-- The pool of a class whose method also calls `gl/A.hint` and has annotations. -/
def pool : ConstantPool :=
  ((((skippedCall.pool.push (.utf8 (Modified.encodeText annotations))).push
    (.utf8 (Modified.encodeText "hint"))).push (.utf8 (Modified.encodeText "(IIIIII)V"))).push
    (.nameAndType 15 16)).push (.methodRef 10 17)

/-- The code of the method. -/
def code : Bytes :=
  List.replicate 6 0x03 ++ [0xb8, 0, 13, 0x00, 0xb8, 0, 18, 0xb1]

/-- Its code attribute. -/
def body : Bytes :=
  [0, 6, 0, 0, 0, 0, 0, 14] ++ code ++ [0, 0, 0, 1, 0, 14, 0, 0, 0, 2, 0, 0]

/-- The parts of the code attribute. -/
def parts : CodeParts where
  maxStack := 6
  maxLocals := 0
  code := code.toArray
  handlers := []
  others := [(annotations, [0, 0])]

/-- The scan of the code. -/
def scan : CodeScan :=
  ⟨#[0, 1, 2, 3, 4, 5, 6, 9, 10, 13], #[]⟩

/-- The method that was read. -/
def method : Method where
  name := "f"
  descriptor := "()V"
  flags := staticFlag
  nodes := #[.insn (.simple 0x03), .insn (.simple 0x03), .insn (.simple 0x03), .insn (.simple 0x03),
    .insn (.simple 0x03), .insn (.simple 0x03), glCall "draw" "()V", .insn (.simple 0x00),
    glCall "hint" "(IIIIII)V", .insn (.simple 0xb1)]
  origin := some (parts.origin [])

/-- The code without the calls. -/
def moved : Bytes :=
  List.replicate 6 0x03 ++ 0x00 :: List.replicate 6 0x57 ++ [0xb1]

/-- The method without the calls. -/
def redirected : Method :=
  { method with
    nodes := (moved.map fun op => Node.insn (.simple op)).toArray
    modified := true }

/-- What is reported about the calls. -/
def summary : RedirectSummary where
  stubbed := [{ place := ⟨"A", "f", "()V"⟩, call := ⟨"gl/A", "draw", "()V"⟩ },
    { place := ⟨"A", "f", "()V"⟩, call := ⟨"gl/A", "hint", "(IIIIII)V"⟩ }]

theorem redirect_eq : (redirectCalls "A" clearTable glFilter method).result = .ok summary ∧
    (redirectCalls "A" clearTable glFilter method).method = redirected := by
  constructor <;> cbv

theorem wellFormed_pool : pool.WellFormed :=
  ((((skippedCall.wellFormed_pool.push (by decide) (by decide)).push (by decide) (by decide)).push
    (by decide) (by decide)).push (by decide) (by decide)).push (by decide) (by decide)

theorem read_body : CodeParts.read pool body = .ok parts := by
  have htext : pool.text 14 = .ok annotations := text_of_get rfl
  have hbytes : attributesBytes [⟨14, [0, 0]⟩] = .ok [0, 1, 0, 14, 0, 0, 0, 2, 0, 0] := rfl
  show CodeParts.read pool (codeBody 6 0 code [] _) = _
  refine read_codeBody (by decide) (by decide) (List.forall_mem_nil _) hbytes ?_
  exact bind_eq_ok.2 ⟨_, bind_eq_ok.2 ⟨_, htext, rfl⟩, rfl⟩

theorem scan_eq : scanCode code.toArray = .ok scan := by
  refine scanFrom_of_insn 1 [] rfl (by decide) (by decide) rfl ?_
  refine scanFrom_of_insn 1 [] rfl (by decide) (by decide) rfl ?_
  refine scanFrom_of_insn 1 [] rfl (by decide) (by decide) rfl ?_
  refine scanFrom_of_insn 1 [] rfl (by decide) (by decide) rfl ?_
  refine scanFrom_of_insn 1 [] rfl (by decide) (by decide) rfl ?_
  refine scanFrom_of_insn 1 [] rfl (by decide) (by decide) rfl ?_
  refine scanFrom_of_insn 3 [] rfl (by decide) (by decide) rfl ?_
  refine scanFrom_of_insn 1 [] rfl (by decide) (by decide) rfl ?_
  refine scanFrom_of_insn 3 [] rfl (by decide) (by decide) rfl ?_
  refine scanFrom_of_insn 1 [] rfl (by decide) (by decide) rfl ?_
  exact scanFrom_of_end (by decide)

theorem decodeMethod_eq :
    decodeMethod pool { name := "f", descriptor := "()V", flags := staticFlag } body =
      .ok method := by
  have hnodes : ∀ {n : Nat} {i : Insn},
      decodeInsn parts.code pool (labelTable (numberLabels [])) n = .ok i →
      nodesAt parts pool (labelTable (numberLabels [])) (lineTable []) n = .ok _ :=
    fun hi => nodesAt_of_decodeInsn .nil hi
  have hdraw : pool.memberRef 13 =
      .ok { owner := "gl/A", name := "draw", descriptor := "()V", interface := false } :=
    memberRef_of_get rfl rfl (text_of_get rfl) rfl (text_of_get rfl) (text_of_get rfl)
  have hhint : pool.memberRef 18 =
      .ok { owner := "gl/A", name := "hint", descriptor := "(IIIIII)V", interface := false } :=
    memberRef_of_get rfl rfl (text_of_get rfl) rfl (text_of_get rfl) (text_of_get rfl)
  refine decodeMethod_eq_ok.2 ⟨parts, scan, [], _, [], [], [], read_body, scan_eq, ?_,
    mapM_eq_ok.2 (.cons (hnodes rfl) (.cons (hnodes rfl) (.cons (hnodes rfl) (.cons (hnodes rfl)
      (.cons (hnodes rfl) (.cons (hnodes rfl) (.cons (hnodes (decodeInsn_static rfl rfl hdraw))
      (.cons (hnodes rfl) (.cons (hnodes (decodeInsn_static rfl rfl hhint)) (.cons (hnodes rfl)
      .nil)))))))))), rfl, rfl, rfl, ?_⟩
  · exact labelledOffsets_eq_ok.2 ⟨by decide, by decide⟩
  · rw [at?_numberLabels .nil]
    rfl

/-- The elements of the method without the calls. -/
def pieces : List Piece :=
  moved.map fun op => { node := .insn (.simple op) }

/-- Their layout. -/
def layout : Layout :=
  ⟨pieces, ∅, pieceOffsets pieces⟩

theorem layOut_eq : layOut redirected pool = (.ok layout, pool) := by
  have hwiden : widenAll ∅ pieces = pieces := by cbv
  refine layOut_eq_ok.2 ⟨by simp [redirected, moved, Node.isMarker], ∅, pieces, rfl, rfl, rfl, ?_,
    by decide⟩
  rw [Layout.ofPieces, hwiden]
  rfl

theorem encode_eq : layout.encode = .ok moved := by
  cbv

/-- The code attribute without the calls. -/
def assembled : Assembled where
  body := codeBody 6 0 moved [] [0, 1, 0, 14, 0, 0, 0, 2, 0, 0]
  dropped := []

theorem carryAttributes_eq : carryAttributes redirected layout { kept := [] } pool #[] =
    ((.ok { kept := [⟨14, [0, 0]⟩] }, pool), #[]) := by
  have hname : namedAttribute annotations [0, 0] pool = (.ok ⟨14, [0, 0]⟩, pool) :=
    Step.bind_eq_ok.2 ⟨14, pool, intern_of_isFirstSlot wellFormed_pool ⟨rfl, by decide +kernel⟩, rfl⟩
  have hkeep : carryAttribute.keep { kept := [] } annotations [0, 0] pool #[] =
      ((.ok { kept := [⟨14, [0, 0]⟩] }, pool), #[]) :=
    Assembly.bind_eq_ok.2 ⟨_, pool, #[], Assembly.liftStep_eq_ok.2 ⟨hname, rfl⟩, rfl⟩
  have hcarry : carryAttribute redirected true ((parts.origin []).newOffset layout) { kept := [] }
      annotations [0, 0] pool #[] = ((.ok { kept := [⟨14, [0, 0]⟩] }, pool), #[]) := hkeep
  exact Assembly.bind_eq_ok.2 ⟨_, _, _, hcarry, rfl⟩

theorem assemble_eq : assemble redirected pool #[] = ((.ok assembled, pool), #[]) := by
  have hdepth : maxStack redirected = .ok 6 := by cbv
  have hlocals : requiredLocals redirected = .ok 0 := by cbv
  exact assemble_eq_ok.2 ⟨layout, pool, moved, [], pool, #[], [], pool, [], pool, [], pool,
    { kept := [⟨14, [0, 0]⟩] }, 6, 0, [0, 1, 0, 14, 0, 0, 0, 2, 0, 0], layOut_eq, encode_eq, rfl, rfl,
    rfl, rfl, carryAttributes_eq, hdepth, hlocals, rfl, rfl⟩

/-- The instruction between the calls was read three bytes behind where it is written. -/
theorem between_moves :
    decodeInsn code.toArray pool (labelTable (numberLabels [])) 9 = .ok (.simple 0x00) ∧
      layout.Writes moved (.simple 0x00) 6 := by
  have hplaced : ({ node := .insn (.simple 0x00) }, 6) ∈ layout.placed :=
    List.mem_of_getElem? (i := 6) rfl
  exact ⟨rfl, _, [0x00], rfl, hplaced, rfl, moved.drop 7, rfl⟩

end shiftedCall

/-- The annotations are kept although the instruction between the calls moves: what is lost before it
    is added behind it. -/
theorem stays_of_kept_shiftedCall :
    decodeMethod shiftedCall.pool { name := "f", descriptor := "()V", flags := staticFlag }
        shiftedCall.body = .ok shiftedCall.method ∧
      (redirectCalls "A" clearTable glFilter shiftedCall.method).result = .ok shiftedCall.summary ∧
      assemble (redirectCalls "A" clearTable glFilter shiftedCall.method).method shiftedCall.pool #[] =
        ((.ok shiftedCall.assembled, shiftedCall.pool), #[]) ∧
      shiftedCall.annotations ∉ shiftedCall.assembled.dropped ∧
      decodeInsn shiftedCall.code.toArray shiftedCall.pool (labelTable (numberLabels [])) 9 =
        .ok (.simple 0x00) ∧
      shiftedCall.layout.Writes shiftedCall.moved (.simple 0x00) 6 ∧
      ∃ l p₁ ts code,
        layOut (redirectCalls "A" clearTable glFilter shiftedCall.method).method shiftedCall.pool =
          (.ok l, p₁) ∧
        Treated clearTable glFilter shiftedCall.method.nodes.toList ts l ∧ l.encode = .ok code ∧
        shiftedCall.assembled.HasCode code ∧
        ∀ k i, shiftedCall.method.nodes.toList[k]? = some (.insn i) →
          treat clearTable glFilter (.insn i) = .ok (.keep (.insn i)) →
          l.Writes code i (l.newOffset ts k) ∧
            (l.newOffset ts k = oldOffset shiftedCall.scan.starts.toList
                shiftedCall.parts.code.size shiftedCall.method.nodes.toList k ∨
              Compensated (oldOffset shiftedCall.scan.starts.toList shiftedCall.parts.code.size
                shiftedCall.method.nodes.toList) (l.newOffset ts)
                shiftedCall.method.nodes.toList k) := by
  obtain ⟨hresult, hmethod⟩ := shiftedCall.redirect_eq
  have hassemble := shiftedCall.assemble_eq
  rw [← hmethod] at hassemble
  have undropped : shiftedCall.annotations ∉ shiftedCall.assembled.dropped := List.not_mem_nil
  obtain ⟨hread, hwritten⟩ := shiftedCall.between_moves
  exact ⟨shiftedCall.decodeMethod_eq, hresult, hassemble, undropped, hread, hwritten,
    stays_of_kept shiftedCall.read_body shiftedCall.scan_eq shiftedCall.decodeMethod_eq rfl hresult
      hassemble (List.mem_singleton.2 rfl) (by decide) undropped⟩

end Rewire
