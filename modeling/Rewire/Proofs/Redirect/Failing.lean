import Mathlib
import Rewire.Proofs.Redirect.Rewrites

/-!
# What a failing redirection leaves

Redirection takes the nodes out of a method before it goes through them, and puts the new ones in at
the end. Where it fails on the way, the method stays behind without nodes. This file shows

* at which calls redirection fails, and with what (`CallSite.FailsWith`, `treat_eq_error`);
* that it fails at the first of them, after it treated the nodes before (`treatAll_eq_some`);
* that the rest of the method stays, except for its flag (`Method.LosesNodes`,
  `losesNodes_of_redirectCalls`).
-/

namespace Rewire

/-- Redirection fails at a call: the call is caught, there is no replacement to send it to, and its
    descriptor cannot be read. -/
structure CallSite.FailsWith (table : RedirectTable) (filter : CallFilter) (site : CallSite)
    (f : Failure) : Prop where
  caught : filter.catches site = true
  absent : site.isStatic = true → table.owner? site.name site.descriptor = none
  unreadable : ∃ reason, Descriptor.parse site.descriptor = .error reason ∧
    f = reason.within (.stubbing site.owner site.name site.descriptor)

section Failing

variable {table : RedirectTable} {filter : CallFilter} {node : Node} {site : CallSite} {f : Failure}

/-! ## 1. One node -/

/-- A stub is missing exactly where the descriptor cannot be read. -/
theorem stubFor_eq_error :
    stubFor site = .error f ↔ Descriptor.parse site.descriptor = .error f := by
  unfold stubFor
  constructor
  · intro h
    rcases bind_eq_error.1 h with hparse | ⟨d, -, h⟩
    · exact hparse
    · cases h
  · exact fun hparse => bind_eq_error.2 (.inl hparse)

/-- **A node that cannot be treated** is a call at which redirection fails. -/
theorem treat_eq_error : treat table filter node = .error f ↔
    ∃ site, node = .insn (.call site) ∧ site.FailsWith table filter f := by
  constructor
  · intro h
    cases hcaught : node.caught? filter with
    | none =>
      rw [treat_of_not_caught hcaught] at h
      cases h
    | some site =>
      obtain ⟨rfl, hcatches⟩ := caught?_eq_some.1 hcaught
      cases howner : replacementOwner? table site with
      | some owner =>
        rw [treat_of_entry hcatches howner] at h
        cases h
      | none =>
        rw [treat_of_no_entry hcatches howner] at h
        cases hstub : stubFor site with
        | ok insns =>
          rw [hstub] at h
          cases h
        | error reason =>
          rw [hstub] at h
          refine ⟨site, rfl, hcatches, replacementOwner?_eq_none.1 howner, reason,
            stubFor_eq_error.1 hstub, ?_⟩
          exact (Except.error.inj h).symm
  · rintro ⟨site, rfl, hcatches, habsent, reason, hparse, rfl⟩
    rw [treat_of_no_entry hcatches (replacementOwner?_eq_none.2 habsent),
      stubFor_eq_error.2 hparse]
    rfl

/-! ## 2. The nodes of a method -/

/-- **Redirection fails at the first node that cannot be treated**, after it treated those before. -/
theorem treatAll_eq_some {done treatments : List Treatment} {nodes : List Node}
    (h : treatAll table filter done nodes = (treatments, some f)) :
    ∃ before node after ts, nodes = before ++ node :: after ∧ treatments = done.reverse ++ ts ∧
      List.Forall₂ (fun node t => treat table filter node = .ok t) before ts ∧
      treat table filter node = .error f := by
  induction nodes generalizing done with
  | nil => cases h
  | cons node rest ih =>
    unfold treatAll at h
    split at h
    · rename_i t ht
      obtain ⟨before, stop, after, ts, rfl, rfl, hbefore, hstop⟩ := ih h
      refine ⟨node :: before, stop, after, t :: ts, rfl, ?_, .cons ht hbefore, hstop⟩
      rw [List.reverse_cons, List.append_assoc]
      rfl
    · rename_i failure hfails
      cases h
      exact ⟨[], node, rest, [], rfl, (List.append_nil _).symm, .nil, hfails⟩

/-! ## 3. Methods -/

/-- **A redirection that fails** treated the nodes before a call at which it fails. -/
theorem redirectCalls_eq_error {className : String} {m : Method}
    (h : (redirectCalls className table filter m).result = .error f) :
    ∃ before site after ts, m.nodes.toList = before ++ .insn (.call site) :: after ∧
      site.FailsWith table filter f ∧
      List.Forall₂ (fun node t => treat table filter node = .ok t) before ts ∧
      (redirectCalls className table filter m).method =
        { m with nodes := #[], modified := m.modified || ts.any Treatment.changes } := by
  unfold redirectCalls at h ⊢
  rcases htreat : treatAll table filter [] m.nodes.toList with ⟨treatments, _ | failure⟩
  · rw [htreat] at h
    cases h
  · rw [htreat] at h
    cases Except.error.inj h
    obtain ⟨before, node, after, ts, hnodes, hts, hbefore, hfails⟩ := treatAll_eq_some htreat
    rw [List.reverse_nil, List.nil_append] at hts
    subst hts
    obtain ⟨site, rfl, hsite⟩ := treat_eq_error.1 hfails
    exact ⟨before, site, after, treatments, hnodes, hsite, hbefore, rfl⟩

/-- A call at which redirection fails makes it fail, here or before. -/
theorem exists_error_of_failsWith {className : String} {m : Method} (hsite : .call site ∈ m.insns)
    (hfails : site.FailsWith table filter f) :
    ∃ f, (redirectCalls className table filter m).result = .error f := by
  rw [exists_error_iff]
  rintro ⟨summary, hresult⟩
  obtain ⟨ts, htreat, -⟩ := treats_of_redirectCalls hresult
  obtain ⟨t, -, ht⟩ := exists_left_of_forall₂ htreat.flip (Method.mem_insns_iff.1 hsite)
  cases ht.symm.trans (treat_eq_error.2 ⟨site, rfl, hfails⟩)

/-- Without nodes, no label may be referred to. -/
theorem Method.labelsPlaced_of_no_nodes {m : Method} (h : m.nodes = #[]) :
    m.LabelsPlaced ↔ m.handlers = [] ∧ m.allLocals = [] := by
  have hplaced : m.placedLabels = [] := by rw [Method.placedLabels, h]; rfl
  constructor
  · intro hlabels
    refine ⟨List.eq_nil_iff_forall_not_mem.2 fun region hregion => ?_,
      List.eq_nil_iff_forall_not_mem.2 fun r hr => ?_⟩
    · have hstart := hlabels region.start (mem_references_of_handler hregion (by simp))
      rw [hplaced] at hstart
      cases hstart
    · have hstart := hlabels r.start (mem_references_of_record hr (by simp))
      rw [hplaced] at hstart
      cases hstart
  · rintro ⟨hhandlers, hlocals⟩ l hl
    rw [Method.references, h, hhandlers, hlocals] at hl
    cases hl

/-- What is left of a method in which redirection fails with `f`: `m'`. -/
structure Method.LosesNodes (table : RedirectTable) (filter : CallFilter) (m m' : Method)
    (f : Failure) : Prop where
  /-- Nothing changes but the nodes, which are gone, and the flag. -/
  same : m' = { m with nodes := #[], modified := m'.modified }
  /-- There were nodes, so the method is not what it was. -/
  differs : m' ≠ m
  /-- No label is placed any more, though regions and records still refer to theirs. -/
  dangles : m'.LabelsPlaced ↔ m.handlers = [] ∧ m.allLocals = []
  /-- Redirection fails at a call, after it rewrote the nodes before. The flag is set if it was, or if
      that changed them. -/
  stops : ∃ before site after pieces, m.nodes.toList = before ++ .insn (.call site) :: after ∧
    site.FailsWith table filter f ∧ List.Forall₂ (Node.Rewritten table filter) before pieces ∧
    (m'.modified = true ↔ m.modified = true ∨ pieces.flatten ≠ before)

/-- **A failing redirection** leaves the name, the exception regions, the local variables and all
    else of a method, but no node, and the flag may be set. It fails exactly if a watched call, not
    of a constructor, has no replacement and a descriptor that cannot be read. -/
theorem losesNodes_of_redirectCalls (className : String) (table : RedirectTable)
    (filter : CallFilter) (m : Method) :
    ((∃ f, (redirectCalls className table filter m).result = .error f) ↔
        ∃ site f, .call site ∈ m.insns ∧ site.FailsWith table filter f) ∧
      ∀ f, (redirectCalls className table filter m).result = .error f →
        m.LosesNodes table filter (redirectCalls className table filter m).method f := by
  refine ⟨⟨?_, ?_⟩, ?_⟩
  · rintro ⟨f, h⟩
    obtain ⟨before, site, after, -, hnodes, hsite, -⟩ := redirectCalls_eq_error h
    refine ⟨site, f, Method.mem_insns_iff.2 ?_, hsite⟩
    rw [hnodes]
    exact List.mem_append_right _ List.mem_cons_self
  · rintro ⟨site, f, hsite, hfails⟩
    exact exists_error_of_failsWith hsite hfails
  · intro f h
    obtain ⟨before, site, after, ts, hnodes, hsite, htreat, hmethod⟩ := redirectCalls_eq_error h
    rw [hmethod]
    refine ⟨rfl, fun hsame => ?_, Method.labelsPlaced_of_no_nodes rfl, before, site, after,
      ts.map Treatment.nodes, hnodes, hsite,
      List.forall₂_map_right_iff.2 (htreat.imp fun _ _ => rewritten_of_treat), ?_⟩
    · rw [← congrArg Method.nodes hsame] at hnodes
      exact List.append_ne_nil_of_right_ne_nil _ (List.cons_ne_nil _ _) hnodes.symm
    · rw [Bool.or_eq_true, any_changes_of_treated htreat, List.flatMap_def]

end Failing

/-! ## 4. A call that cannot be read

A method whose second call has a descriptor with a type that does not exist. The first one goes to its
replacement before redirection fails. -/

def unreadableCall : Method where
  name := "f"
  descriptor := "(I)V"
  flags := staticFlag
  nodes := #[.label ⟨0⟩, .line 3, .insn (.var 0x15 0), glCall "clear" "(I)V", glCall "draw" "(Q)V",
    .label ⟨1⟩, .insn (.simple 0xb1)]
  handlers := [{ start := ⟨0⟩, stop := ⟨1⟩, handler := ⟨1⟩, catchType := none }]
  locals := [{ slot := 0, name := "color", descriptor := "I", start := ⟨0⟩, stop := ⟨1⟩ }]

namespace unreadableCall

/-- What is left of the method. -/
def emptied : Method :=
  { unreadableCall with nodes := #[], modified := true }

def failure : Failure :=
  ⟨[.stubbing "gl/A" "draw" "(Q)V", .readingMethodDescriptor "(Q)V"], .unrecognizedType⟩

end unreadableCall

/-- The nodes are gone, the region and the record are not, and the flag is set for the first call. -/
theorem losesNodes_of_redirectCalls_unreadableCall :
    (redirectCalls "A" clearTable glFilter unreadableCall).result =
        .error unreadableCall.failure ∧
      (redirectCalls "A" clearTable glFilter unreadableCall).method = unreadableCall.emptied ∧
      unreadableCall.LosesNodes clearTable glFilter unreadableCall.emptied
        unreadableCall.failure := by
  have hresult : (redirectCalls "A" clearTable glFilter unreadableCall).result =
      .error unreadableCall.failure := by
    cbv
  have hmethod : (redirectCalls "A" clearTable glFilter unreadableCall).method =
      unreadableCall.emptied := by
    cbv
  refine ⟨hresult, hmethod, ?_⟩
  rw [← hmethod]
  exact (losesNodes_of_redirectCalls "A" clearTable glFilter unreadableCall).2 _ hresult

end Rewire
