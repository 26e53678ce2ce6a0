import Mathlib
import Rewire.Proofs.Redirect.Calls
import Rewire.Proofs.Redirect.Depth

/-!
# What redirection rewrites

Redirection rewrites the watched calls of a method, apart from those of constructors, and nothing
else. Where it succeeds, it finds nothing to do a second time. This file shows

* what becomes of a node (`Node.Rewritten`, `rewritten_of_treat`);
* that the summary accounts for each of these calls (`summary_of_treated`);
* that treatments change something exactly where the nodes differ (`any_changes_of_treated`): a stub
  makes the calls fewer, and a replacement stands in the place of a call;
* that redirection leaves alone what it left (`Node.Settled`, `settled_of_treat`), even where the
  owner of a replacement is watched itself;
* all of it together (`Method.Rewrites`, `rewrites_of_redirectCalls`).
-/

namespace Rewire

/-! ## 1. One node -/

/-- Whether a node is a call. -/
def Node.isCall : Node → Bool
  | .insn (.call _) => true
  | _ => false

/-- What redirection makes of a node. -/
inductive Node.Rewritten (table : RedirectTable) (filter : CallFilter) : Node → List Node → Prop where
  /-- A static call with an entry goes to the owner of the entry, which is no interface. -/
  | redirected (site : CallSite) {owner : String} (caught : filter.catches site = true)
      (static : site.isStatic = true)
      (entry : table.owner? site.name site.descriptor = some owner) :
      Rewritten table filter (.insn (.call site))
        [.insn (.call { site with owner, interface := false })]
  /-- Any other call that is caught gives way to its stub. -/
  | stubbed (site : CallSite) {insns : List Insn} (caught : filter.catches site = true)
      (absent : site.isStatic = true → table.owner? site.name site.descriptor = none)
      (stub : stubFor site = .ok insns) :
      Rewritten table filter (.insn (.call site)) (insns.map .insn)
  | kept (node : Node) (h : node.caught? filter = none) : Rewritten table filter node [node]

@[simp] theorem Treatment.stubbed?_stub (site : CallSite) (insns : List Insn) :
    (Treatment.stub site insns).stubbed? = some site :=
  rfl

section Node

variable {table : RedirectTable} {filter : CallFilter} {node : Node} {t : Treatment}
  {site : CallSite}

/-- **A node is rewritten as it is treated.** -/
theorem rewritten_of_treat (h : treat table filter node = .ok t) :
    node.Rewritten table filter t.nodes := by
  obtain ⟨hcaught, rfl⟩ | ⟨site, rfl, hcatches, ⟨owner, howner, rfl⟩ | ⟨hnone, insns, hstub, rfl⟩⟩ :=
    treat_cases h
  · exact .kept node hcaught
  · obtain ⟨hstatic, hentry⟩ := replacementOwner?_eq_some.1 howner
    exact .redirected site hcatches hstatic hentry
  · exact .stubbed site hcatches (replacementOwner?_eq_none.1 hnone) hstub

/-- A stub contains no calls. -/
theorem isCall_of_stubFor {insns : List Insn} (h : stubFor site = .ok insns) :
    ∀ left ∈ insns.map Node.insn, left.isCall = false := by
  intro left hleft
  obtain ⟨i, hi, rfl⟩ := List.mem_map.1 hleft
  obtain ⟨op, rfl, -⟩ := isSimple_of_stubFor h i hi
  rfl

/-! ## 2. What is left of a node -/

/-- Whether redirection leaves a node alone: it may count it as redirected, but does not change it. -/
def Node.Settled (table : RedirectTable) (filter : CallFilter) (node : Node) : Prop :=
  ∃ t, treat table filter node = .ok t ∧ t.changes = false ∧ t.stubbed? = none

theorem settled_of_not_caught (h : node.caught? filter = none) : node.Settled table filter :=
  ⟨_, treat_of_not_caught h, rfl, rfl⟩

/-- A call that was redirected has the entry of the call before. -/
theorem settled_redirected {owner : String} (h : replacementOwner? table site = some owner) :
    (Node.insn (.call { site with owner, interface := false })).Settled table filter := by
  cases hcatches : filter.catches { site with owner, interface := false } with
  | true =>
    have howner : replacementOwner? table { site with owner, interface := false } = some owner := h
    exact ⟨_, treat_of_entry hcatches howner, decide_eq_false (not_not_intro rfl), rfl⟩
  | false =>
    refine settled_of_not_caught ?_
    rw [caught?_call, hcatches]
    rfl

/-- **Redirection leaves alone what it left.** -/
theorem settled_of_treat (h : treat table filter node = .ok t) :
    ∀ left ∈ t.nodes, left.Settled table filter := by
  intro left hleft
  obtain ⟨hcaught, rfl⟩ | ⟨site, rfl, -, ⟨owner, howner, rfl⟩ | ⟨-, insns, hstub, rfl⟩⟩ :=
    treat_cases h
  · rw [List.mem_singleton.1 hleft]
    exact settled_of_not_caught hcaught
  · rw [List.mem_singleton.1 hleft]
    exact settled_redirected howner
  · obtain ⟨i, hi, rfl⟩ := List.mem_map.1 hleft
    obtain ⟨op, rfl, -⟩ := isSimple_of_stubFor hstub i hi
    exact settled_of_not_caught rfl

end Node

/-! ## 3. Whole methods -/

/-- The calls among nodes that redirection rewrites, in order. -/
def CallFilter.caught (filter : CallFilter) (nodes : List Node) : List CallSite :=
  nodes.filterMap (Node.caught? filter)

section Treated

variable {table : RedirectTable} {filter : CallFilter} {nodes : List Node} {ts : List Treatment}

/-- **The summary accounts for every call that is caught**: those without an entry become stubs, in
    their order, and the others are redirected. -/
theorem summary_of_treated
    (h : List.Forall₂ (fun node t => treat table filter node = .ok t) nodes ts) :
    ts.filterMap Treatment.stubbed? =
        (filter.caught nodes).filter (fun site => (replacementOwner? table site).isNone) ∧
      ts.countP Treatment.isRedirect + (ts.filterMap Treatment.stubbed?).length =
        (filter.caught nodes).length := by
  induction h with
  | nil => exact ⟨rfl, rfl⟩
  | @cons node t rest ts htreat _ ih =>
    obtain ⟨hstubs, hcount⟩ := ih
    unfold CallFilter.caught at hstubs hcount ⊢
    obtain ⟨hcaught, rfl⟩ | ⟨site, rfl, hcatches, ⟨owner, howner, rfl⟩ | ⟨hnone, insns, -, rfl⟩⟩ :=
      treat_cases htreat
    · rw [List.filterMap_cons_none rfl, List.filterMap_cons_none hcaught,
        List.countP_cons_of_neg Bool.false_ne_true]
      exact ⟨hstubs, hcount⟩
    · have hcaught : (Node.insn (.call site)).caught? filter = some site := if_pos hcatches
      rw [List.filterMap_cons_none rfl, List.filterMap_cons_some hcaught,
        List.filter_cons_of_neg (by rw [howner]; exact Bool.false_ne_true), List.countP_cons_of_pos rfl,
        List.length_cons]
      exact ⟨hstubs, by omega⟩
    · have hcaught : (Node.insn (.call site)).caught? filter = some site := if_pos hcatches
      rw [List.filterMap_cons_some (Treatment.stubbed?_stub site insns),
        List.filterMap_cons_some hcaught, List.filter_cons_of_pos (by rw [hnone]; rfl),
        List.countP_cons_of_neg Bool.false_ne_true, hstubs,
        List.length_cons, List.length_cons, ← hstubs]
      exact ⟨rfl, by omega⟩

/-- The calls that are left and those that became stubs are as many as there were. -/
theorem countP_isCall_of_treated
    (h : List.Forall₂ (fun node t => treat table filter node = .ok t) nodes ts) :
    (ts.flatMap Treatment.nodes).countP Node.isCall + (ts.filterMap Treatment.stubbed?).length =
      nodes.countP Node.isCall := by
  induction h with
  | nil => rfl
  | @cons node t rest ts htreat _ ih =>
    rw [List.flatMap_cons, List.countP_append, List.countP_cons]
    obtain ⟨-, rfl⟩ | ⟨site, rfl, -, ⟨owner, -, rfl⟩ | ⟨-, insns, hstub, rfl⟩⟩ := treat_cases htreat
    · rw [List.filterMap_cons_none rfl, Treatment.nodes, List.countP_singleton]
      omega
    · rw [List.filterMap_cons_none rfl, Treatment.nodes, List.countP_singleton]
      simp only [Node.isCall, if_true]
      omega
    · have hnone : (insns.map Node.insn).countP Node.isCall = 0 :=
        List.countP_eq_zero.2 fun left hleft =>
          Bool.eq_false_iff.1 (isCall_of_stubFor hstub left hleft)
      rw [List.filterMap_cons_some (Treatment.stubbed?_stub site insns), Treatment.nodes, hnone,
        List.length_cons]
      simp only [Node.isCall, if_true]
      omega

/-- Treatments without stubs that leave the nodes change nothing. -/
theorem any_changes_of_no_stubs
    (h : List.Forall₂ (fun node t => treat table filter node = .ok t) nodes ts)
    (hstubs : ts.filterMap Treatment.stubbed? = []) (hsame : ts.flatMap Treatment.nodes = nodes) :
    ts.any Treatment.changes = false := by
  induction h with
  | nil => rfl
  | @cons node t rest ts htreat _ ih =>
    rw [List.any_cons, Bool.or_eq_false_iff]
    rw [List.flatMap_cons] at hsame
    obtain ⟨-, rfl⟩ | ⟨site, rfl, -, ⟨owner, -, rfl⟩ | ⟨-, insns, -, rfl⟩⟩ := treat_cases htreat
    · exact ⟨rfl, ih hstubs (List.cons.inj hsame).2⟩
    · obtain ⟨hsite, hrest⟩ := List.cons.inj hsame
      refine ⟨decide_eq_false (not_not_intro ?_), ih hstubs hrest⟩
      exact (Insn.call.inj (Node.insn.inj hsite)).symm
    · rw [List.filterMap_cons_some (Treatment.stubbed?_stub site insns)] at hstubs
      cases hstubs

/-- **Treatments change something** exactly where the nodes differ. -/
theorem any_changes_of_treated
    (h : List.Forall₂ (fun node t => treat table filter node = .ok t) nodes ts) :
    ts.any Treatment.changes = true ↔ ts.flatMap Treatment.nodes ≠ nodes := by
  rw [← Bool.not_eq_false, not_iff_not]
  constructor
  · exact nodes_of_unchanged (h.imp fun _ _ => isOf_of_treat)
  · intro hsame
    -- with a stub there would be fewer calls
    have hcount := countP_isCall_of_treated h
    rw [hsame] at hcount
    exact any_changes_of_no_stubs h (List.eq_nil_of_length_eq_zero (by omega)) hsame

/-- **Redirection leaves a method** whose nodes it leaves alone. -/
theorem redirectCalls_of_settled {m : Method} (h : ∀ node ∈ m.nodes.toList, node.Settled table filter)
    (className : String) :
    ∃ summary, (redirectCalls className table filter m).result = .ok summary ∧
      summary.stubbed = [] ∧ (redirectCalls className table filter m).method = m := by
  obtain ⟨ts, hmap, hts⟩ := exists_mapM h
  have htreat := mapM_eq_ok.1 hmap
  have hchanges : ts.any Treatment.changes = false := by
    refine List.any_eq_false.2 fun t ht => ?_
    obtain ⟨node, -, hsame, -⟩ := exists_left_of_forall₂ hts ht
    exact Bool.eq_false_iff.1 hsame
  have hstubs : ts.filterMap Treatment.stubbed? = [] := by
    refine List.filterMap_eq_nil_iff.2 fun t ht => ?_
    obtain ⟨node, -, -, hstub⟩ := exists_left_of_forall₂ hts ht
    exact hstub
  have hnodes := nodes_of_unchanged (htreat.imp fun _ _ => isOf_of_treat) hchanges
  unfold redirectCalls
  rw [treatAll_of_treated htreat, List.reverse_nil, List.nil_append]
  refine ⟨_, rfl, ?_, ?_⟩
  · simp only [hstubs, List.map_nil]
  · simp only [hnodes, hchanges, Bool.or_false, Array.toArray_toList]

/-- What a redirection of a method of the class named `className` leaves, where it succeeds. -/
structure Method.Rewrites (className : String) (table : RedirectTable) (filter : CallFilter)
    (m m' : Method) (summary : RedirectSummary) : Prop where
  /-- Nothing changes but the nodes and the flag. -/
  same : m' = { m with nodes := m'.nodes, modified := m'.modified }
  /-- The nodes are rewritten one by one, in their order. -/
  nodes : ∃ pieces, List.Forall₂ (Node.Rewritten table filter) m.nodes.toList pieces ∧
    m'.nodes.toList = pieces.flatten
  /-- The calls that gave way to stubs, in their order. -/
  stubbed : summary.stubbed =
    ((filter.caught m.nodes.toList).filter fun site => (replacementOwner? table site).isNone).map
      fun site =>
        { place := { owner := className, name := m.name, descriptor := m.descriptor }
          call := site.toMember }
  counted : summary.redirected + summary.stubbed.length = (filter.caught m.nodes.toList).length
  /-- The flag is set exactly if the nodes differ. -/
  modified : m'.modified = true ↔ m.modified = true ∨ m'.nodes ≠ m.nodes
  /-- A further redirection, of a class of any name, replaces nothing and leaves the method. -/
  again : ∀ className', ∃ summary', (redirectCalls className' table filter m').result = .ok summary' ∧
    summary'.stubbed = [] ∧ (redirectCalls className' table filter m').method = m'

/-- **Redirection rewrites exactly the watched calls**, apart from those of constructors, and
    redirecting once more changes nothing. -/
theorem rewrites_of_redirectCalls {className : String} {m : Method} {summary : RedirectSummary}
    (h : (redirectCalls className table filter m).result = .ok summary) :
    m.Rewrites className table filter (redirectCalls className table filter m).method summary := by
  obtain ⟨ts, htreat, hmethod⟩ := treats_of_redirectCalls h
  have hsummary : summary =
      { redirected := ts.countP Treatment.isRedirect
        stubbed := (ts.filterMap Treatment.stubbed?).map fun site =>
          { place := { owner := className, name := m.name, descriptor := m.descriptor }
            call := site.toMember } } := by
    unfold redirectCalls at h
    rw [treatAll_of_treated htreat] at h
    exact (Except.ok.inj h).symm
  obtain ⟨hstubs, hcount⟩ := summary_of_treated htreat
  rw [hmethod]
  exact {
    same := rfl
    nodes := ⟨ts.map Treatment.nodes,
      List.forall₂_map_right_iff.2 (htreat.imp fun _ _ => rewritten_of_treat), List.flatMap_def⟩
    stubbed := by rw [hsummary, hstubs]
    counted := by
      rw [hsummary]
      simp only [List.length_map]
      exact hcount
    modified := by
      rw [Bool.or_eq_true, any_changes_of_treated htreat, Ne, Ne, ← Array.toList_inj]
    again := fun className' => redirectCalls_of_settled (fun left hleft => by
      obtain ⟨t, ht, hleft⟩ := List.mem_flatMap.1 (by simpa using hleft)
      obtain ⟨node, -, hnode⟩ := exists_left_of_forall₂ htreat ht
      exact settled_of_treat hnode left hleft) className' }

end Treated

/-- A filter that watches the owner of the replacement too. -/
def glPackageFilter : CallFilter := { watchedOwners := ["gl/"] }

/-- The replacement of `clear` is watched itself, and stays when the loop is redirected again. -/
theorem rewrites_of_redirectCalls_glLoop :
    glPackageFilter.watches "gl/B" "clear" = true ∧
      (redirectCalls "A" clearTable glPackageFilter glLoop).result = .ok glSummary ∧
      glLoop.Rewrites "A" clearTable glPackageFilter
        (redirectCalls "A" clearTable glPackageFilter glLoop).method glSummary := by
  have hresult : (redirectCalls "A" clearTable glPackageFilter glLoop).result = .ok glSummary := by
    cbv
  exact ⟨by decide, hresult, rewrites_of_redirectCalls hresult⟩

end Rewire
