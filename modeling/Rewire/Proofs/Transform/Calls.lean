import Mathlib
import Rewire.Proofs.ClassFile.Framed
import Rewire.Proofs.Code.Calls
import Rewire.Proofs.Rule.Apply
import Rewire.Transform.Transformer

/-!
# What transformation leaves

No watched call is left in a class that was transformed, apart from constructors and the replacements
themselves. This file shows

* what rules and redirection do to every method of a class (`Transformer.patched_of_applyRules`,
  `Transformer.redirected_of_redirectClass`);
* that what is decoded again, from a body that was written or from one that was kept, calls only what
  the edited methods call (`MemberInfo.WrittenAs.permits`, `ClassFile.permits_of_apply`);
* when the code attributes of a class are replaced (`MemberInfo.codeIsFound_of_text`): one whose name
  reads `Code` in other bytes is not;
* that the output of a transformer is the input or has no other watched calls
  (`Transformer.permits_of_transform`), if the code attributes are replaced.
-/

namespace Rewire

open ConstantPool

/-! ## 1. Rules and redirection -/

/-- Redirection of patched methods. -/
theorem Method.PatchedFrom.redirected {table : RedirectTable} {filter : CallFilter}
    {m patched m' : Method} (h : m.PatchedFrom patched)
    (h' : patched.RedirectedFrom table filter m') :
    m.RedirectedFrom table filter m' := by
  refine ⟨fun hmodified => ?_, h'.permits, fun form => h'.opcodeFits (h.opcodeFits form)⟩
  have heq := h'.same hmodified
  rw [heq] at hmodified ⊢
  exact h.same hmodified

namespace Transformer

variable {σ : Type} {t : Transformer σ} {name : String} {log log' : Log} {s s' : σ}

/-- **The rules for a class** patch its methods. -/
theorem patched_of_applyRules {c c' : ClassBody} (rules : ∀ r ∈ t.rules, r.OpcodesFit)
    (h : t.applyRules name c (log, s) = (.ok c', (log', s'))) :
    List.Forall₂ Method.PatchedFrom c.methods c'.methods :=
  PatchRule.patched_of_applyAll (fun r hr => rules r (List.mem_filter.1 hr).1)
    (Step.during_eq_ok.1 h)

theorem redirectedFrom_of_redirectMethod {className : String} {m m' : Method}
    {summary : RedirectSummary}
    (h : t.redirectMethod className m log = (.ok (m', summary), log')) :
    m.RedirectedFrom t.table t.callFilter m' := by
  unfold redirectMethod at h
  split at h
  · rename_i hcode
    obtain ⟨heq, -⟩ := Step.pure_eq_ok.1 h
    cases heq
    have hnodes : m.nodes = #[] := by
      simp only [Method.hasCode, Bool.not_eq_true', Bool.or_eq_false_iff, Bool.not_eq_false',
        Array.isEmpty_iff] at hcode
      exact hcode.2
    refine ⟨fun _ => rfl, fun site hsite => ?_, fun form => form⟩
    rw [Method.insns, hnodes] at hsite
    cases hsite
  · obtain ⟨_, _, -, h⟩ := Step.bind_eq_ok.1 h
    obtain ⟨s, _, hresult, h⟩ := Step.bind_eq_ok.1 h
    obtain ⟨heq, -⟩ := Step.pure_eq_ok.1 h
    cases heq
    exact redirectedFrom_of_redirectCalls (Step.lift_eq_ok.1 hresult).1

/-- **Redirection of a class** redirects every method. -/
theorem redirected_of_redirectClass {c c' : ClassBody} {summary : RedirectSummary}
    (h : t.redirectClass c log = (.ok (c', summary), log')) :
    List.Forall₂ (Method.RedirectedFrom t.table t.callFilter) c.methods c'.methods := by
  obtain ⟨results, _, hresults, h⟩ := Step.bind_eq_ok.1 h
  obtain ⟨heq, -⟩ := Step.pure_eq_ok.1 h
  cases heq
  rw [List.forall₂_map_right_iff]
  refine (Step.forall₂_of_mapM hresults).imp fun m r ⟨_, _, hr⟩ => ?_
  exact redirectedFrom_of_redirectMethod hr

end Transformer

/-! ## 2. Classes that are written back -/

section WriteBack

variable {table : RedirectTable} {filter : CallFilter}

/-- The instructions of a decoded method have opcodes of their forms, where those with large slots
    do. -/
theorem opcodeFits_of_decodeMember {c : ClassFile} {owner : String} {entry : MemberInfo} {m : Method}
    (h : c.decodeMember owner entry = .ok m) (hvar : ∀ i ∈ m.insns, i.VarFits) :
    ∀ i ∈ m.insns, i.OpcodeFits := by
  obtain ⟨_, _, -, -, ⟨-, rfl⟩ | ⟨_, a, _, -, hm⟩⟩ := ClassFile.decodeMember_eq_ok.1 h
  · exact fun i hi => (List.not_mem_nil hi).elim
  · exact Method.opcodeFits_of_decode hm hvar

/-- **A method that is decoded again** calls only what may stay, whether it was written or kept. -/
theorem MemberInfo.WrittenAs.permits {c c' : ClassFile} {codeName : UInt16} {m m' again : Method}
    {entry entry' : MemberInfo} {l : Layout} {owner owner' : String}
    (h : entry.WrittenAs c.pool c'.pool codeName m' entry' l) (hpool : c.pool.GrowsTo c'.pool)
    (holds : c'.pool.HoldsText AttributeName.code codeName)
    (hbefore : c.decodeMember owner entry = .ok m) (found : entry.CodeIsFound c.pool)
    (fits : entry'.AttributesFit) (hvar : ∀ i ∈ m.insns, i.VarFits)
    (redirected : m.RedirectedFrom table filter m')
    (hagain : c'.decodeMember owner' entry' = .ok again) {site : CallSite}
    (hsite : .call site ∈ again.insns) (hwatched : filter.watches site.owner site.name = true) :
    table.Permits site := by
  refine redirected.permits site ?_ hwatched
  cases hmodified : m'.modified with
  | false =>
    rw [h.kept hmodified] at hagain
    cases hagain.symm.trans (ClassFile.decodeMember_growsTo hpool owner' hbefore)
    rwa [redirected.same hmodified]
  | true =>
    obtain ⟨a, blank, laid, hof, few, hm⟩ :=
      h.exists_decodeMethod hpool holds hbefore hmodified found fits hagain
    have form := redirected.opcodeFits (opcodeFits_of_decodeMember hbefore hvar)
    exact laid.calls_of_decode (hof.entriesFit laid.consistent few) form hof hm hsite

/-- **A class of redirected methods** that is written back and decoded again has no other watched
    calls. -/
theorem ClassFile.permits_of_apply {c c' : ClassFile} {decoded edited again : ClassBody}
    {log log' : Log} {dropped : List DroppedAttributes} (wf : c.pool.WellFormed)
    (hdecode : c.decode = .ok decoded) (found : ∀ entry ∈ c.methods, entry.CodeIsFound c.pool)
    (hvar : ∀ m ∈ decoded.methods, ∀ i ∈ m.insns, i.VarFits)
    (redirected : List.Forall₂ (Method.RedirectedFrom table filter) decoded.methods edited.methods)
    (h : c.apply edited log = (.ok (c', dropped), log'))
    (fits : ∀ entry ∈ c'.methods, entry.AttributesFit) (hagain : c'.decode = .ok again) :
    ∀ m ∈ again.methods, ∀ site, .call site ∈ m.insns →
      filter.watches site.owner site.name = true → table.Permits site := by
  intro m hm site hsite hwatched
  obtain ⟨codeName, -, hpool, holds, -, -, hwritten⟩ := ClassFile.apply_eq_ok wf h
  obtain ⟨name, -, hrest⟩ := bind_eq_ok.1 hdecode
  obtain ⟨methods, hmethods, hrest⟩ := bind_eq_ok.1 hrest
  obtain ⟨superName, -, hrest⟩ := bind_eq_ok.1 hrest
  cases hrest
  obtain ⟨name', -, hrest⟩ := bind_eq_ok.1 hagain
  obtain ⟨methods', hmethods', hrest⟩ := bind_eq_ok.1 hrest
  obtain ⟨superName', -, hrest⟩ := bind_eq_ok.1 hrest
  cases hrest
  obtain ⟨es, hentries, hbefore, -, hwritten', hes⟩ :=
    EntryEdit.exists_of_forall₂ (mapM_eq_ok.1 hmethods) redirected hwritten
  rw [hwritten', mapM_eq_ok, List.forall₂_map_left_iff] at hmethods'
  obtain ⟨e, he, hagain⟩ := exists_left_of_forall₂ hmethods' hm
  refine (hes e he).writtenAs.permits hpool holds (hes e he).decoded ?_ ?_ ?_ (hes e he).edit hagain
    hsite hwatched
  · exact found _ (hentries ▸ List.mem_map_of_mem he)
  · exact fits _ (hwritten' ▸ List.mem_map_of_mem he)
  · exact hvar _ (hbefore ▸ List.mem_map_of_mem he)

end WriteBack

/-! ## 3. Classes that are read

A code attribute is found by what its name reads, and replaced by the slot that is given to the text
`Code`. Both agree where the name is spelled as the program spells it. -/

/-- If the name `Code` is only in one slot, spelled as the program spells it, all code attributes are
    found again. -/
theorem MemberInfo.codeIsFound_of_text {pool : ConstantPool} {i : UInt16}
    (written : pool.get i = .ok (.utf8 (Modified.encodeText AttributeName.code)))
    (small : pool.size ≤ maxSlots)
    (only : ∀ j, pool.text j = .ok AttributeName.code → j = i) (entry : MemberInfo) :
    entry.CodeIsFound pool := by
  intro before a after first
  rw [only a.name first.code]
  obtain ⟨j, hj⟩ := exists_isFirstSlot small (get_eq_ok.1 written)
  rwa [only j (text_of_get hj.get)] at hj

/-- The attributes of a class that is written fit. -/
theorem ClassFile.attributesFit_of_bytes {c : ClassFile} {data : Bytes} (h : c.bytes = .ok data) :
    ∀ entry ∈ c.methods, entry.AttributesFit := by
  obtain ⟨fields, -, h⟩ := bind_eq_ok.1 h
  obtain ⟨methods, hmethods, -⟩ := bind_eq_ok.1 h
  obtain ⟨count, -, hmethods⟩ := bind_eq_ok.1 hmethods
  obtain ⟨chunks, hchunks, -⟩ := bind_eq_ok.1 hmethods
  intro entry hentry
  obtain ⟨bytes, -, hbytes⟩ := exists_left_of_forall₂ (mapM_eq_ok.1 hchunks).flip hentry
  obtain ⟨attributes, hattributes, -⟩ := bind_eq_ok.1 hbytes
  exact (attributesBytes_eq_ok hattributes).2.1

/-- Whether a class that can be read refers to watched owners is seen from its pool. -/
theorem referencesNamespace_of_read {data : Bytes} {c : ClassFile} (h : ClassFile.read data = .ok c)
    (namespaces : List String) :
    referencesNamespace data namespaces =
      .ok (c.pool.constants.any
        (Constant.textStartsWith (namespaces.map fun s => s.toUTF8.toList))) := by
  obtain ⟨⟨c, cursor⟩, hread, h⟩ := bind_eq_ok.1 h
  cases h
  obtain ⟨head, after, hhead, hrest⟩ := Reader.bind_eq_ok.1 hread
  iterate 9 obtain ⟨_, _, -, hrest⟩ := Reader.bind_eq_ok.1 hrest
  obtain ⟨hclass, -⟩ := Reader.pure_eq_ok.1 hrest
  rw [← hclass]
  exact bind_eq_ok.2 ⟨head, bind_eq_ok.2 ⟨(head, after), hhead, rfl⟩, rfl⟩

/-! ## 4. Transformed classes -/

namespace Transformer

variable {σ : Type} {t : Transformer σ} {name : String} {data : Bytes} {log log' : Log} {s s' : σ}
  {out : Transformed} {c : ClassFile} {decoded : ClassBody}

/-- Transforming takes these steps: reading and decoding, rules, redirection, and, if a method was
    modified, writing back. -/
theorem transformClass_eq_ok
    (h : t.transformClass name data (log, s) = (.ok out, (log', s'))) :
    ∃ c decoded patched edited summary log₁ log₂ log₃, ClassFile.read data = .ok c ∧
      c.decode = .ok decoded ∧ t.applyRules name decoded (log, s) = (.ok patched, (log₁, s')) ∧
      t.redirectIfWatched name data patched log₁ = (.ok (edited, summary), log₂) ∧
      (edited.methods.any Method.modified = false ∧ out.modified = false ∧ out.bytes = data ∨
        ∃ c' dropped, c.apply edited log₂ = (.ok (c', dropped), log₃) ∧ out.modified = true ∧
          c'.bytes = .ok out.bytes) := by
  obtain ⟨c, _, sread, h⟩ := Step.bind_eq_ok.1 h
  obtain ⟨hread, rfl⟩ := Step.lift_eq_ok.1 sread
  obtain ⟨decoded, _, sdecode, h⟩ := Step.bind_eq_ok.1 h
  obtain ⟨hdecode, rfl⟩ := Step.lift_eq_ok.1 sdecode
  obtain ⟨patched, ⟨log₁, s₁⟩, hpatched, h⟩ := Step.bind_eq_ok.1 h
  obtain ⟨⟨edited, summary⟩, ⟨log₂, s₂⟩, sedited, h⟩ := Step.bind_eq_ok.1 h
  obtain ⟨hedited, rfl⟩ := Generating.lift_eq_ok.1 sedited
  simp only at h
  split at h
  · rename_i hnone
    obtain ⟨rfl, heq⟩ := Step.pure_eq_ok.1 h
    cases heq
    exact ⟨c, decoded, patched, edited, summary, log₁, _, log', during_eq_ok.1 hread,
      during_eq_ok.1 hdecode, hpatched, hedited, .inl ⟨by simpa using hnone, rfl, rfl⟩⟩
  · obtain ⟨⟨c', dropped⟩, ⟨log₃, _⟩, sapply, h⟩ := Step.bind_eq_ok.1 h
    obtain ⟨happly, rfl⟩ := Generating.lift_eq_ok.1 sapply
    obtain ⟨bytes, _, sbytes, h⟩ := Step.bind_eq_ok.1 h
    obtain ⟨hbytes, rfl⟩ := Step.lift_eq_ok.1 sbytes
    obtain ⟨rfl, heq⟩ := Step.pure_eq_ok.1 h
    cases heq
    exact ⟨c, decoded, patched, edited, summary, log₁, log₂, _, during_eq_ok.1 hread,
      during_eq_ok.1 hdecode, hpatched, hedited,
      .inr ⟨c', dropped, Step.during_eq_ok.1 happly, rfl, hbytes⟩⟩

/-- A class that is not left alone and refers to a watched owner is redirected. -/
theorem redirected_of_redirectIfWatched {edited : ClassBody} {summary : RedirectSummary}
    (hname : t.classFilter.excludes name = false)
    (hfound : referencesNamespace data t.namespaces = .ok true)
    (h : t.redirectIfWatched name data decoded log = (.ok (edited, summary), log')) :
    List.Forall₂ (Method.RedirectedFrom t.table t.callFilter) decoded.methods edited.methods := by
  unfold redirectIfWatched at h
  rw [hname, if_neg Bool.false_ne_true] at h
  obtain ⟨found, _, slift, h⟩ := Step.bind_eq_ok.1 h
  obtain ⟨hlift, rfl⟩ := Step.lift_eq_ok.1 slift
  cases hfound.symm.trans hlift
  exact redirected_of_redirectClass (Step.during_eq_ok.1 h)

/-- Methods of which none was modified call only what may stay. -/
theorem permits_of_unmodified {table : RedirectTable} {filter : CallFilter}
    {methods edited : List Method}
    (redirected : List.Forall₂ (Method.RedirectedFrom table filter) methods edited)
    (hnone : edited.any Method.modified = false) :
    ∀ m ∈ methods, ∀ site, .call site ∈ m.insns →
      filter.watches site.owner site.name = true → table.Permits site := by
  intro m hm site hsite hwatched
  obtain ⟨m', hm', hfrom⟩ := exists_left_of_forall₂ redirected.flip hm
  have hsame := hfrom.same (List.any_eq_false.1 hnone m' hm' |> Bool.eq_false_iff.2)
  rw [← hsame] at hsite
  exact hfrom.permits site hsite hwatched

/-- **No watched call is left.** Let the rules of a transformer inject only instructions whose
    opcodes belong to their forms, and let a class be read and decoded, with wide prefixes only where
    they may stand, that is not left alone and refers to a watched owner. If each of its code
    attributes is named by the slot that the program gives that name, what a transformer makes of it
    calls no other watched methods than constructors and replacements. If the class is not modified,
    it comes out as it went in. -/
theorem permits_of_transform (rules : ∀ r ∈ t.rules, r.OpcodesFit)
    (hread : ClassFile.read data = .ok c) (hdecode : c.decode = .ok decoded)
    (found : ∀ entry ∈ c.methods, entry.CodeIsFound c.pool)
    (hvar : ∀ m ∈ decoded.methods, ∀ i ∈ m.insns, i.VarFits)
    (hname : t.classFilter.excludes name = false)
    (hfound : referencesNamespace data t.namespaces = .ok true)
    (h : t.transformClass name data (log, s) = (.ok out, (log', s'))) :
    (out.modified = false → out.bytes = data) ∧
      ∀ c' again, ClassFile.read out.bytes = .ok c' → c'.decode = .ok again →
        ∀ m ∈ again.methods, ∀ site, .call site ∈ m.insns →
          t.callFilter.watches site.owner site.name = true → t.table.Permits site := by
  obtain ⟨c₀, decoded₀, patched, edited, summary, log₁, log₂, log₃, hread₀, hdecode₀, hpatched,
    hedited, hout⟩ := transformClass_eq_ok h
  cases hread.symm.trans hread₀
  cases hdecode.symm.trans hdecode₀
  have redirected := forall₂_comp (patched_of_applyRules rules hpatched)
    (redirected_of_redirectIfWatched hname hfound hedited) fun _ _ _ => Method.PatchedFrom.redirected
  rcases hout with ⟨hnone, -, hbytes⟩ | ⟨c', dropped, happly, hmodified, hbytes⟩
  · refine ⟨fun _ => hbytes, fun c' again hread' hdecode' => ?_⟩
    rw [hbytes, hread] at hread'
    cases hread'
    cases hdecode.symm.trans hdecode'
    exact permits_of_unmodified redirected hnone
  · refine ⟨fun hm => ?_, fun c'' again hread' hdecode' => ?_⟩
    · rw [hmodified] at hm
      cases hm
    · have wf := ClassFile.wellFormed_of_read hread
      obtain ⟨codeName, wf', -, -, heq, -⟩ := ClassFile.apply_eq_ok wf happly
      have hinterfaces : c'.interfaces = c.interfaces := by rw [heq]
      have few : c'.interfaces.length ≤ 0xffff := hinterfaces ▸ ClassFile.interfaces_of_read hread
      cases ClassFile.read_bytes_eq_ok wf' few hbytes hread'
      exact ClassFile.permits_of_apply wf hdecode found hvar redirected happly
        (ClassFile.attributesFit_of_bytes hbytes) hdecode'

end Transformer

/-! ## A call that is skipped

The rest of the file transforms the class whose condition skips a call. A rule inserts the call once
more, behind itself. -/

namespace skippedCall

/-- The call again. The state is the number of runs. -/
def drawAgain : Generator Nat := fun n =>
  ([.call { owner := "gl/A", name := "draw", descriptor := "()V", interface := false
            kind := .static }], n + 1)

/-- A rule that inserts the call behind itself. -/
def callAgain : PatchRule (Generator Nat) where
  id := "AGAIN"
  name := "call again"
  description := "Inserts the call behind itself"
  className := "A"
  methodName := "f"
  pattern := [.opcode Opcode.invokeStatic]
  action := .inject drawAgain

/-- A transformer that watches `gl/A`, with the rule. -/
def transformer : Transformer Nat where
  table := clearTable
  classFilter := {}
  callFilter := glFilter
  rules := [callAgain]

/-- The method with two calls. -/
def patched : Method :=
  { method with
    nodes := #[.insn (.simple 0x03), .insn (.jump Opcode.ifeq ⟨0⟩), glCall "draw" "()V",
      glCall "draw" "()V", .label ⟨0⟩, .insn (.simple 0xb1)]
    modified := true }

/-- The class with a method. -/
def bodyWith (m : Method) : ClassBody where
  name := "A"
  superName := some "java/lang/Object"
  methods := [m]

theorem codeIsFound : entry.CodeIsFound pool := by
  intro before a after first
  rw [firstCode.unique first]
  exact ⟨rfl, by decide +kernel⟩

theorem matches_eq : method.matches [.opcode Opcode.invokeStatic] = [⟨2, 2, 4⟩] := by
  cbv

theorem inject_eq :
    method.inject [.opcode Opcode.invokeStatic] (drawAgain.output 0) = (true, patched) := by
  have hsome : method.matches [.opcode Opcode.invokeStatic] ≠ [] := by
    rw [matches_eq]
    exact List.cons_ne_nil _ _
  have hinjects := Method.injects_inject (drawAgain.output 0) hsome
  have hnodes : (method.inject [.opcode Opcode.invokeStatic] (drawAgain.output 0)).2.nodes =
      patched.nodes := by
    rw [← Array.toList_inj, hinjects.nodes, matches_eq]
    rfl
  refine Prod.ext ?_ ?_
  · rw [Method.inject, matches_eq]
    rfl
  · rw [hinjects.same, hnodes]
    rfl

/-- What the rule does, as a patching. -/
def patching : Patching where
  body := bodyWith patched
  notices := [.ruleApplied "AGAIN" ⟨"A", "f", "()V"⟩]
  result := .ok ()

theorem run_patchAll :
    StateT.run (PatchRule.patchAll [callAgain] (bodyWith method)) 0 = (patching, 1) := by
  have hedited : callAgain.edited 0 0 method = (true, patched) := by
    show method.inject _ (fun k => drawAgain.output 0 (0 + k)) = _
    simp only [Nat.zero_add]
    exact inject_eq
  have hall : callAgain.editedAll 0 0 (bodyWith method).methods = [(true, patched)] := by
    show callAgain.edited 0 0 method :: [] = _
    rw [hedited]
  have hpatched : callAgain.patched 0 (bodyWith method) = patching := by
    rw [PatchRule.patched, hall]
    rfl
  have hfound : ((bodyWith method).methods.flatMap callAgain.occurrences).length = 1 := by
    cbv
  rw [PatchRule.run_patchAll_of_ok (by rw [hpatched]; rfl) rfl, hfound, hpatched]
  rfl

/-- The notice about each of the calls. -/
def notice : Notice :=
  .callUnimplemented ⟨"gl/A", "draw", "()V"⟩ ⟨"A", "f", "()V"⟩

/-- The notices about the rule and the calls. -/
def notices : Log :=
  #[.ruleApplied "AGAIN" ⟨"A", "f", "()V"⟩, notice, notice]

/-- What is reported about the calls. -/
def twice : List StubbedCall :=
  summary.stubbed ++ summary.stubbed

theorem rulesFor_eq : transformer.rulesFor "A" = [callAgain] := by
  have hfor : ∀ r ∈ [callAgain], r.isFor "A" = true := by
    intro r hr
    rw [List.mem_singleton.1 hr]
    decide +kernel
  exact List.filter_eq_self.2 hfor

theorem applyRules_eq : transformer.applyRules "A" (bodyWith method) (#[], 0) =
    (.ok (bodyWith patched), (#[.ruleApplied "AGAIN" ⟨"A", "f", "()V"⟩], 1)) := by
  rw [Transformer.applyRules, rulesFor_eq, Step.run_during, PatchRule.applyAll,
    Generating.run_ofPatching, run_patchAll]
  rfl

theorem redirectMethod_eq (log : Log) : transformer.redirectMethod "A" patched log =
    (.ok (redirected, { stubbed := twice }), (log.push notice).push notice) := by
  have hresult : (redirectCalls "A" clearTable glFilter patched).result =
      .ok { stubbed := twice } := by cbv
  have hmethod : (redirectCalls "A" clearTable glFilter patched).method = redirected := by cbv
  have hnotices : (redirectCalls "A" clearTable glFilter patched).notices = [notice, notice] := by
    cbv
  refine Step.bind_eq_ok.2 ⟨(), (log.push notice).push notice, ?_, Step.bind_eq_ok.2
    ⟨{ stubbed := twice }, (log.push notice).push notice, Step.lift_eq_ok.2 ⟨hresult, rfl⟩, ?_⟩⟩
  · show (redirectCalls "A" clearTable glFilter patched).notices.forM Logged.note log = _
    rw [hnotices]
    rfl
  · rw [← hmethod]
    rfl

theorem references {data : Bytes} (h : ClassFile.read data = .ok classFile) :
    referencesNamespace data transformer.namespaces = .ok true := by
  rw [referencesNamespace_of_read h]
  decide +kernel

theorem transformClass_eq {data : Bytes} (h : ClassFile.read data = .ok classFile) :
    ∃ bytes, written.bytes = .ok bytes ∧ transformer.transformClass "A" data (#[], 0) =
      (.ok { bytes, modified := true, stubbed := twice, rules := ["AGAIN"] }, (notices, 1)) := by
  have hclass : transformer.redirectClass (bodyWith patched)
      #[.ruleApplied "AGAIN" ⟨"A", "f", "()V"⟩] = (.ok (edited, { stubbed := twice }), notices) := by
    refine Step.bind_eq_ok.2 ⟨[(redirected, { stubbed := twice })], notices, ?_, rfl⟩
    rw [show (bodyWith patched).methods = [patched] from rfl, List.mapM_cons]
    exact Step.bind_eq_ok.2 ⟨_, notices, redirectMethod_eq _, rfl⟩
  obtain ⟨bytes, hbytes⟩ : ∃ bytes, written.bytes = .ok bytes := ⟨_, rfl⟩
  refine ⟨bytes, hbytes, Step.bind_eq_ok.2 ⟨classFile, _, Step.lift_eq_ok.2 ⟨during_eq_ok.2 h, rfl⟩,
    Step.bind_eq_ok.2 ⟨_, _, Step.lift_eq_ok.2 ⟨during_eq_ok.2 decode_classFile, rfl⟩,
    Step.bind_eq_ok.2 ⟨_, _, applyRules_eq, Step.bind_eq_ok.2 ⟨(edited, { stubbed := twice }),
      (notices, 1), Generating.lift_eq_ok.2 ⟨?_, rfl⟩, ?_⟩⟩⟩⟩⟩
  · exact Step.bind_eq_ok.2 ⟨true, _, Step.lift_eq_ok.2 ⟨references h, rfl⟩,
      Step.during_eq_ok.2 hclass⟩
  · exact Step.bind_eq_ok.2 ⟨(written, []), (notices, 1),
      Generating.lift_eq_ok.2 ⟨Step.during_eq_ok.2 (apply_eq notices), rfl⟩,
      Step.bind_eq_ok.2 ⟨bytes, _, Step.lift_eq_ok.2 ⟨hbytes, rfl⟩, by rw [rulesFor_eq]; rfl⟩⟩

end skippedCall

/-- The call that is skipped and the one that a rule inserts are gone from the class that comes
    out. -/
theorem Transformer.permits_of_transform_skippedCall : ∃ data decoded bytes,
    ClassFile.read data = .ok skippedCall.classFile ∧
      skippedCall.classFile.decode = .ok decoded ∧
      referencesNamespace data skippedCall.transformer.namespaces = .ok true ∧
      (∃ r ∈ skippedCall.transformer.rules, r.action = .inject skippedCall.drawAgain ∧
        r.isFor "A" = true ∧ r.OpcodesFit) ∧
      skippedCall.transformer.transformClass "A" data (#[], 0) =
        (.ok { bytes, modified := true, stubbed := skippedCall.twice, rules := ["AGAIN"] },
          (skippedCall.notices, 1)) ∧
      ∀ c' again, ClassFile.read bytes = .ok c' → c'.decode = .ok again →
        ∀ m ∈ again.methods, ∀ site, .call site ∈ m.insns →
          glFilter.watches site.owner site.name = true → clearTable.Permits site := by
  obtain ⟨data, hdata⟩ := skippedCall.read_classFile
  obtain ⟨bytes, -, htransform⟩ := skippedCall.transformClass_eq hdata
  have hfound := skippedCall.references hdata
  have hfits : skippedCall.callAgain.OpcodesFit := by
    intro generator hgenerator s i hi
    cases hgenerator
    rw [List.mem_singleton.1 hi]
    trivial
  have found : ∀ entry ∈ skippedCall.classFile.methods,
      entry.CodeIsFound skippedCall.classFile.pool := by
    intro entry hentry
    rw [List.mem_singleton.1 hentry]
    exact skippedCall.codeIsFound
  have hvar : ∀ m ∈ [skippedCall.method], ∀ i ∈ m.insns, i.VarFits := by
    intro m hm
    rw [List.mem_singleton.1 hm]
    exact skippedCall.varFits
  have hpermits := Transformer.permits_of_transform (t := skippedCall.transformer)
    (List.forall_mem_singleton.2 hfits) hdata skippedCall.decode_classFile found hvar
    (by decide +kernel) hfound htransform
  exact ⟨data, _, bytes, hdata, skippedCall.decode_classFile, hfound,
    ⟨_, List.mem_singleton_self _, rfl, by decide +kernel, hfits⟩, htransform, hpermits.2⟩

end Rewire
