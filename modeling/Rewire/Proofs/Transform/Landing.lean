import Mathlib
import Rewire.Proofs.Code.Decoded
import Rewire.Proofs.ClassFile.Framed
import Rewire.Proofs.Transform.Calls
import Rewire.Proofs.Transform.History

/-!
# Where control lands after edits

Jumps and handlers of decoded code lead to labels before instructions. An edit keeps that as long as
an instruction is left behind the labels: a removal that takes the last instruction away keeps the
labels before it that are referred to, and these then stand at the end of the code. This file shows

* which edits leave an instruction at the end (`Edit.KeepsEnd`), and where labels are then
  (`Method.hasInside_remove`, `Method.hasInside_redirectCalls`);
* the invariant of such edits (`Method.Lands`), that a decoded method begins with it
  (`Method.lands_of_decode`) and that each edit keeps it (`Method.Lands.perform`);
* that the code assembled at the end of such a history jumps to instructions only
  (`History.lands_of_assemble`), unless it ends in a wide condition, which jumps around itself.
-/

namespace Rewire

/-! ## 1. Labels before instructions -/

namespace Method

variable {m : Method} {label : Label} {pattern : List Predicate}

/-- A label stands before an instruction if both are found in this order. -/
theorem hasInside_of_sublist {i : Insn}
    (h : List.Sublist [.label label, .insn i] m.nodes.toList) : m.HasInside label := by
  obtain ⟨first, rest, hnodes, hlabel, hrest⟩ := List.cons_sublist_iff.1 h
  obtain ⟨before, between, rfl⟩ := List.append_of_mem hlabel
  refine ⟨before, between ++ rest, ?_, i, List.mem_append_right _ (List.singleton_sublist.1 hrest)⟩
  rw [hnodes, List.append_assoc, List.cons_append]

theorem HasInside.sublist (h : m.HasInside label) :
    ∃ i, List.Sublist [.label label, .insn i] m.nodes.toList := by
  obtain ⟨before, after, hnodes, i, hi⟩ := h
  refine ⟨i, ?_⟩
  rw [hnodes]
  exact ((List.singleton_sublist.2 hi).cons_cons _).trans (List.sublist_append_right _ _)

/-- More nodes leave a label before an instruction. -/
theorem HasInside.mono {m' : Method} (h : m.HasInside label)
    (hsub : List.Sublist m.nodes.toList m'.nodes.toList) : m'.HasInside label := by
  obtain ⟨i, hi⟩ := h.sublist
  exact hasInside_of_sublist (hi.trans hsub)

theorem HasInside.positions (h : m.HasInside label) : ∃ (j k : Nat) (i : Insn), j < k ∧
    m.nodes[j]? = some (.label label) ∧ m.nodes[k]? = some (.insn i) := by
  obtain ⟨before, after, hnodes, i, hi⟩ := h
  obtain ⟨k, hk, hi⟩ := List.mem_iff_getElem.1 hi
  refine ⟨before.length, before.length + (k + 1), i, by omega, ?_, ?_⟩
  · rw [← Array.getElem?_toList, hnodes, List.getElem?_append_right (Nat.le_refl _), Nat.sub_self]
    rfl
  · rw [← Array.getElem?_toList, hnodes, List.getElem?_append_right (by omega),
      Nat.add_sub_cancel_left, List.getElem?_cons_succ, List.getElem?_eq_getElem hk, hi]

end Method

/-! ## 2. Removal -/

namespace Method

variable {m : Method} {pattern : List Predicate}

/-- Where all occurrences end before the code does, an instruction outside them is at or after each
    instruction. -/
theorem exists_uncovered {k : Nat} {i : Insn}
    (ends : ∀ found ∈ m.matches pattern, found.stop < m.nodes.size)
    (hk : m.nodes[k]? = some (.insn i)) : ∃ (k' : Nat) (i' : Insn), k ≤ k' ∧
      m.nodes[k']? = some (.insn i') ∧ ∀ found ∈ m.matches pattern, k' ∉ found.nodes := by
  by_cases hfree : ∀ found ∈ m.matches pattern, k ∉ found.nodes
  · exact ⟨k, i, Nat.le_refl k, hk, hfree⟩
  · -- the occurrence that covers it is followed by another instruction
    push Not at hfree
    obtain ⟨found, hfound, hcovers⟩ := hfree
    have hlt : k < found.stop := by
      have hrange := List.mem_range'_1.1 hcovers
      omega
    have hstop := ends found hfound
    have heq := stop_of_mem_matches hfound
    obtain ⟨j, hj⟩ := exists_insn_of_skipMarkers_lt (heq ▸ hstop)
    rw [← heq] at hj
    obtain ⟨k', i', hle, hk', hfree⟩ := exists_uncovered ends hj
    exact ⟨k', i', by omega, hk', hfree⟩
termination_by m.nodes.size - k
decreasing_by omega

/-- **A label that is referred to stays before an instruction** when occurrences are removed that
    end before the code does. -/
theorem hasInside_remove {label : Label}
    (ends : ∀ found ∈ m.matches pattern, found.stop < m.nodes.size) (inside : m.HasInside label)
    (hreferred : (∃ i ∈ (m.remove pattern).2.insns, label ∈ i.targets) ∨
      ∃ h ∈ (m.remove pattern).2.handlers, label = h.handler) :
    (m.remove pattern).2.HasInside label := by
  by_cases hnone : (m.matches pattern).isEmpty
  · rw [Method.remove, if_pos hnone]
    exact inside
  obtain ⟨j, k, i, hjk, hj, hk⟩ := inside.positions
  obtain ⟨k', i', hkk', hk', hfree⟩ := exists_uncovered ends hk
  obtain ⟨mark, hlabel, -⟩ := exists_mark (m.matches pattern) hj
  obtain ⟨gone, hinsn, hcovered⟩ := exists_mark (m.matches pattern) hk'
  have hkept : gone = false := by
    rw [← Bool.not_eq_true]
    intro htrue
    obtain ⟨f, hf, hmem⟩ := hcovered htrue
    exact hfree f hf hmem
  have hpair := pair_sublist (Nat.lt_of_lt_of_le hjk hkk') hlabel hinsn
  refine hasInside_of_sublist (i := i') ?_
  rw [Method.remove, if_neg hnone] at hreferred ⊢
  simp only [mem_insns_iff, List.mem_map, List.mem_filter] at hreferred ⊢
  generalize m.nodes.toList.zip
    (coveredBy m.nodes.size (m.matches pattern)).toList = marked at hpair hreferred ⊢
  refine List.Sublist.trans ?_ ((hpair.filter _).map Prod.fst)
  rw [List.filter_cons_of_pos, List.filter_cons_of_pos]
  · exact List.Sublist.refl _
  · rw [hkept]
    rfl
  · rw [Bool.or_eq_true, Std.HashSet.contains_ofList, List.contains_iff_mem]
    right
    simp only [referencedLabels, List.mem_append, List.mem_flatMap]
    left
    rcases hreferred with ⟨i₀, ⟨⟨node, gone₀⟩, ⟨hentry, hstays⟩, hnode⟩, hlabel⟩ | hhandler
    · cases hnode
      exact .inl ⟨.insn i₀, List.mem_map.2 ⟨_, List.mem_filter.2 ⟨hentry, hstays⟩, rfl⟩, hlabel⟩
    · obtain ⟨h, hh, rfl⟩ := hhandler
      exact .inr ⟨h, List.mem_filter.2 hh, by simp⟩

end Method

/-! ## 3. Redirection -/

/-- Where the last instruction is not replaced by nothing, some instruction is left of it. -/
theorem exists_insn_of_treat {table : RedirectTable} {filter : CallFilter} {last : Insn}
    {t : Treatment} (ht : treat table filter (.insn last) = .ok t)
    (hstub : ∀ site, last = .call site → treat table filter (.insn last) ≠ .ok (.stub site [])) :
    ∃ i, .insn i ∈ t.nodes := by
  have hof := isOf_of_treat ht
  generalize hnode : Node.insn last = node at hof
  cases hof with
  | keep node hkeep => exact ⟨last, List.mem_singleton.2 hnode⟩
  | redirect site static howner => exact ⟨_, List.mem_singleton.2 rfl⟩
  | @stub site insns hinsns =>
    cases hnode
    cases insns with
    | nil => exact absurd ht (hstub site rfl)
    | cons i rest => exact ⟨i, List.mem_cons_self⟩

/-- **Labels stay before an instruction** when calls are redirected and the last instruction is not
    replaced by nothing. -/
theorem Method.hasInside_redirectCalls {className : String} {table : RedirectTable}
    {filter : CallFilter} {m : Method} {summary : RedirectSummary} {label : Label}
    (h : (redirectCalls className table filter m).result = .ok summary)
    (hstub : ∀ site, m.insns.getLast? = some (.call site) →
      treat table filter (.insn (.call site)) ≠ .ok (.stub site []))
    (inside : m.HasInside label) :
    (redirectCalls className table filter m).method.HasInside label := by
  obtain ⟨ts, hall, hmethod⟩ := treats_of_redirectCalls h
  obtain ⟨before, after, hnodes, i, hi⟩ := inside
  obtain ⟨last, hlast⟩ : ∃ last, m.insns.getLast? = some last := by
    have hmem : i ∈ m.insns := by
      rw [Method.mem_insns_iff, hnodes]
      exact List.mem_append_right _ (List.mem_cons_of_mem _ hi)
    exact Option.ne_none_iff_exists'.1 fun hnone =>
      List.ne_nil_of_mem hmem (List.getLast?_eq_none_iff.1 hnone)
  obtain ⟨pre, post, hafter⟩ := List.append_of_mem (last_mem_of_split hnodes hi hlast)
  rw [hnodes] at hall
  obtain ⟨ts₁, t, ts₂, rfl, -, ht, hrest⟩ := forall₂_split hall
  cases ht
  rw [hafter] at hrest
  obtain ⟨ts₃, t', ts₄, rfl, -, ht', -⟩ := forall₂_split hrest
  obtain ⟨j, hj⟩ := exists_insn_of_treat ht' fun site hsite => by
    cases hsite
    exact hstub site hlast
  refine ⟨ts₁.flatMap Treatment.nodes, (ts₃ ++ t' :: ts₄).flatMap Treatment.nodes, ?_, j, ?_⟩
  · rw [hmethod]
    simp [Treatment.nodes]
  · exact List.mem_flatMap.2 ⟨t', List.mem_append_right _ List.mem_cons_self, hj⟩

/-! ## 4. Edits -/

/-- Whether an edit leaves an instruction at the end of a method and adds no jumps. -/
def Edit.KeepsEnd (m : Method) : Edit → Prop
  | inject _ generate => ∀ n, ∀ i ∈ generate n, i.targets = [] ∧ i.OpcodeFits
  | remove pattern => ∀ found ∈ m.matches pattern, found.stop < m.nodes.size
  | redirect _ table filter => ∀ site, m.insns.getLast? = some (.call site) →
      treat table filter (.insn (.call site)) ≠ .ok (.stub site [])
  | takeLabel => True

/-- Whether all jumps and handlers of a method lead to labels before instructions. -/
structure Method.Lands (m : Method) : Prop where
  form : ∀ i ∈ m.insns, i.OpcodeFits
  counted : m.EntriesFit
  targets : ∀ i ∈ m.insns, ∀ label ∈ i.targets, m.HasInside label
  handlers : ∀ h ∈ m.handlers, m.HasInside h.handler

/-- An instruction without targets is no switch. -/
theorem Insn.entriesFit_of_no_targets {i : Insn} (h : i.targets = []) : i.EntriesFit := by
  cases i with
  | tableSwitch => cases h
  | lookupSwitch => cases h
  | _ => exact Nat.zero_lt_succ _

namespace Method.Lands

variable {m : Method}

theorem inject (lands : m.Lands) {pattern : List Predicate} {generate : Nat → List Insn}
    (plain : ∀ n, ∀ i ∈ generate n, i.targets = [] ∧ i.OpcodeFits) :
    (m.inject pattern generate).2.Lands := by
  refine ⟨fun i hi => ?_, fun i hi => ?_, fun i hi label hlabel => ?_, fun h hh => ?_⟩
  · rcases Method.mem_insns_inject hi with hold | ⟨n, hnew⟩
    · exact lands.form i hold
    · exact (plain n i hnew).2
  · rcases Method.mem_insns_inject hi with hold | ⟨n, hnew⟩
    · exact lands.counted i hold
    · exact Insn.entriesFit_of_no_targets (plain n i hnew).1
  · rcases Method.mem_insns_inject hi with hold | ⟨n, hnew⟩
    · exact (lands.targets i hold label hlabel).mono Method.sublist_inject
    · rw [(plain n i hnew).1] at hlabel
      cases hlabel
  · rw [Method.handlers_inject] at hh
    exact (lands.handlers h hh).mono Method.sublist_inject

theorem remove (lands : m.Lands) {pattern : List Predicate}
    (ends : ∀ found ∈ m.matches pattern, found.stop < m.nodes.size) :
    (m.remove pattern).2.Lands := by
  have hold : (m.remove pattern).2.insns ⊆ m.insns := (Method.sublist_remove.filterMap _).subset
  refine ⟨fun i hi => lands.form i (hold hi), fun i hi => lands.counted i (hold hi),
    fun i hi label hlabel => ?_, fun h hh => ?_⟩
  · exact Method.hasInside_remove ends (lands.targets i (hold hi) label hlabel)
      (.inl ⟨i, hi, hlabel⟩)
  · exact Method.hasInside_remove ends (lands.handlers h (Method.handlers_remove_subset hh))
      (.inr ⟨h, hh, rfl⟩)

theorem redirectCalls (lands : m.Lands) {className : String} {table : RedirectTable}
    {filter : CallFilter} {summary : RedirectSummary}
    (h : (redirectCalls className table filter m).result = .ok summary)
    (hstub : ∀ site, m.insns.getLast? = some (.call site) →
      treat table filter (.insn (.call site)) ≠ .ok (.stub site [])) :
    (Rewire.redirectCalls className table filter m).method.Lands := by
  have hhandlers : (Rewire.redirectCalls className table filter m).method.handlers = m.handlers := by
    obtain ⟨ts, -, hmethod⟩ := redirectCalls_eq_ok h
    rw [hmethod]
  refine ⟨(redirectedFrom_of_redirectCalls h).opcodeFits lands.form,
    entriesFit_redirectCalls h lands.counted, fun i hi label hlabel => ?_,
    fun handler hhandler => ?_⟩
  · obtain ⟨j, hj, hmem⟩ := exists_target_redirectCalls h hi hlabel
    exact Method.hasInside_redirectCalls h hstub (lands.targets j hj label hmem)
  · rw [hhandlers] at hhandler
    exact Method.hasInside_redirectCalls h hstub (lands.handlers handler hhandler)

/-- **An edit that leaves an instruction at the end** keeps labels before instructions. -/
theorem perform {s t : EditState} (lands : s.method.Lands) {e : Edit} (keeps : e.KeepsEnd s.method)
    (done : e.perform s = .ok t) : t.method.Lands := by
  cases e with
  | inject pattern generate =>
    cases done
    exact lands.inject keeps
  | remove pattern =>
    cases done
    exact lands.remove keeps
  | redirect className table filter =>
    obtain ⟨summary, hresult, rfl⟩ := map_eq_ok.1 done
    exact lands.redirectCalls hresult keeps
  | takeLabel =>
    obtain ⟨⟨l, m⟩, hfresh, done⟩ := bind_eq_ok.1 done
    cases done
    obtain ⟨next, -, -, rfl⟩ := Method.eq_of_freshLabel hfresh
    exact ⟨lands.form, lands.counted, lands.targets, lands.handlers⟩

end Method.Lands

/-- **A history of such edits** keeps labels before instructions. -/
theorem History.lands {s t : EditState} (run : History Edit.KeepsEnd s t) (lands : s.method.Lands) :
    t.method.Lands := by
  induction run with
  | start => exact lands
  | edit _ keeps done ih => exact ih.perform keeps done

/-- **A decoded method jumps to instructions**, as the code that is scanned jumps into itself. -/
theorem Method.lands_of_decode {pool : ConstantPool} {blank m : Method} {body : Bytes}
    (h : decodeMethod pool blank body = .ok m) (form : ∀ i ∈ m.insns, i.VarFits)
    (handlers : ∀ h ∈ m.handlers, m.HasInside h.handler) : m.Lands := by
  refine ⟨Method.opcodeFits_of_decode h form, Method.entriesFit_of_decode h,
    fun i hi label hlabel => ?_, handlers⟩
  obtain ⟨parts, scan, _, _, _, _, _, hread, hscan, -⟩ := decodeMethod_eq_ok.1 h
  obtain ⟨o, ho, -⟩ := exists_origin_of_decode h hread
  obtain ⟨n, -, hlt, hmem⟩ := exists_target_of_decode h hread hscan ho hi hlabel
  exact insn_after_label h ho hmem hlt

/-! ## 5. Code that is written -/

/-- Whether the code of an assembled body is scanned as instructions, and its jumps, switches and
    handlers lead to offsets of instructions, all of them before its end. -/
def Assembled.Lands (a : Assembled) : Prop :=
  ∃ maxStack maxLocals code handlers attributes scan,
    a.body = codeBody maxStack maxLocals code handlers attributes ∧
    scanCode code.toArray = .ok scan ∧
    (∀ n ∈ scan.targets.toList, n ∈ scan.starts.toList) ∧
    (∀ h ∈ handlers, h.handler ∈ scan.starts.toList) ∧
    ∀ n ∈ scan.starts.toList, n < code.length

/-- **A method whose labels are before instructions** is written as code that jumps to
    instructions, if the code does not end in a wide condition. -/
theorem Method.Lands.assemble {m : Method} {p q : ConstantPool} {log log' : Log} {a : Assembled}
    (lands : m.Lands) (wf : p.WellFormed) (h : Rewire.assemble m p log = ((.ok a, q), log')) :
    ∃ l p₁, layOut m p = (.ok l, p₁) ∧ (¬ l.EndsInWideCondition → a.Lands) := by
  obtain ⟨l, p₁, hl, -, -, laid, maxStack, maxLocals, code, raws, lines, locals, localTypes, others,
    bytes, hcode, denote, -, -, -, -, -, hbody⟩ := isOf_of_assemble wf h
  have counted : l.EntriesFit := laid.entriesFit lands.counted
  rw [l.codeBody_eq hcode laid.consistent counted] at hbody
  refine ⟨l, p₁, hl, fun hend => ?_⟩
  obtain ⟨scan, hscan, hstarts, htargets, hstart⟩ :=
    laid.scan_of_inside counted lands.form lands.targets hend hcode
  refine ⟨maxStack, maxLocals, code, raws, bytes, scan, hbody, hscan, ?_, fun raw hraw => ?_, ?_⟩
  · rw [hstarts, htargets]
    exact hstart
  · obtain ⟨mapped, hmapped, hdenotes⟩ := exists_left_of_forall₂ denote.flip hraw
    obtain ⟨handler, hhandler, rfl⟩ := List.mem_map.1 hmapped
    have hoffset : l.offsetOf handler.handler = raw.handler := congrArg Label.id hdenotes.handler
    rw [hstarts, ← hoffset]
    exact laid.start_of_inside (lands.handlers handler (List.mem_filter.1 hhandler).1)
  · rw [hstarts, l.length_of_encode hcode laid.consistent counted]
    exact fun n hn => laid.lt_of_start counted lands.form hcode hn

/-- **No edit that leaves an instruction at the end leaves a transfer outside the code.** Let a
    decoded method handle exceptions at labels before instructions, and let its wide prefixes stand
    where they may. After a history of injections that add no jumps, removals of occurrences that an
    instruction follows, and redirections that do not replace the last instruction by nothing,
    whatever assembling gives jumps and handles exceptions at offsets of instructions, unless it ends
    in a wide condition. -/
theorem History.lands_of_assemble {pool p q : ConstantPool} {blank m : Method} {body : Bytes}
    {s : EditState} {log log' : Log} {a : Assembled} (h : decodeMethod pool blank body = .ok m)
    (form : ∀ i ∈ m.insns, i.VarFits) (handlers : ∀ h ∈ m.handlers, m.HasInside h.handler)
    (run : History Edit.KeepsEnd { method := m } s) (wf : p.WellFormed)
    (done : assemble s.method p log = ((.ok a, q), log')) :
    ∃ l p₁, layOut s.method p = (.ok l, p₁) ∧ (¬ l.EndsInWideCondition → a.Lands) :=
  (run.lands (Method.lands_of_decode h form handlers)).assemble wf done

/-- Removing the call leaves the label behind it, as the condition leads there. -/
theorem skippedCall.remove_eq : (method.remove [.opcode Opcode.invokeStatic]).2 = redirected := by
  unfold Method.remove
  rw [matches_eq]
  simp [method, redirected, glCall, coveredBy, Match.nodes, Match.labels, referencedLabels,
    Node.targets, Insn.targets, List.range']

/-- The call is removed and the calls that are left are redirected: the condition that skipped the
    call leads to the return. -/
theorem History.lands_of_assemble_skippedCall :
    decodeMethod skippedCall.pool { name := "f", descriptor := "()V", flags := staticFlag }
        skippedCall.body = .ok skippedCall.method ∧
      History Edit.KeepsEnd { method := skippedCall.method } { method := skippedCall.redirected } ∧
      assemble skippedCall.redirected skippedCall.pool #[] =
        ((.ok skippedCall.assembled, skippedCall.pool), #[]) ∧
      skippedCall.assembled.Lands := by
  have remove : (Edit.remove [.opcode Opcode.invokeStatic]).perform
      { method := skippedCall.method } = .ok { method := skippedCall.redirected } := by
    rw [Edit.perform, skippedCall.remove_eq]
  have redirect : (Edit.redirect "A" clearTable glFilter).perform
      { method := skippedCall.redirected } = .ok { method := skippedCall.redirected } := by cbv
  have run : History Edit.KeepsEnd { method := skippedCall.method }
      { method := skippedCall.redirected } := by
    refine .edit (.edit (.start _) ?_ remove) ?_ redirect
    · show ∀ found ∈ skippedCall.method.matches [.opcode Opcode.invokeStatic], _
      rw [skippedCall.matches_eq]
      exact List.forall_mem_singleton.2 (by decide)
    · exact fun site hlast => by cases hlast
  have hends : ¬ skippedCall.layout.EndsInWideCondition := by
    obtain ⟨-, -, laid⟩ := laidOut_of_layOut skippedCall.wellFormed_pool skippedCall.layOut_eq
    exact laid.not_endsInWideCondition rfl rfl
  obtain ⟨l, p₁, hl, hlands⟩ := History.lands_of_assemble skippedCall.decodeMethod_eq
    skippedCall.varFits (List.forall_mem_nil _) run skippedCall.wellFormed_pool
    (skippedCall.assemble_eq #[])
  cases hl.symm.trans skippedCall.layOut_eq
  exact ⟨skippedCall.decodeMethod_eq, run, skippedCall.assemble_eq #[], hlands hends⟩

end Rewire
