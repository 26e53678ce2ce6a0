import Mathlib
import Rewire.Code.WellFormed
import Rewire.Proofs.Code.Jumps
import Rewire.Redirect.Calls

/-!
# What redirection leaves

After redirection a method calls no watched method any more, apart from constructors and the
replacements themselves. This file shows

* which calls are rewritten (`CallFilter.catches`) and how a node is treated (`treat_cases`);
* which watched calls may stay (`RedirectTable.Permits`), and that no others are left by the
  treatment of a node (`Treatment.IsOf.permits`);
* that treatments which change nothing leave the node (`Treatment.IsOf.nodes_eq`), and that new
  instructions are calls or parts of stubs (`Treatment.IsOf.insn_cases`);
* what a method is after redirection (`treats_of_redirectCalls`, `redirectCalls_eq_ok`), which
  instructions and which labels it has (`mem_insns_redirectCalls`);
* that nodes which are no calls stay where they are among the others
  (`split_of_treated`), so a method that ends in another instruction still ends in it
  (`getLast?_insns_redirectCalls`) and has its labels before it (`split_redirectCalls`).
-/

namespace Rewire

/-- Whether a watched call may stay: it calls a constructor, or a replacement from the table. -/
def RedirectTable.Permits (table : RedirectTable) (site : CallSite) : Prop :=
  site.name = constructorName ∨
    site.isStatic = true ∧ site.interface = false ∧
      table.owner? site.name site.descriptor = some site.owner

/-! ## 1. One node -/

/-- Whether redirection rewrites a call: it is watched, and not of a constructor. -/
def CallFilter.catches (filter : CallFilter) (site : CallSite) : Bool :=
  filter.watches site.owner site.name && site.name != constructorName

/-- The call at a node, if redirection rewrites it. -/
def Node.caught? (filter : CallFilter) : Node → Option CallSite
  | .insn (.call site) => if filter.catches site then some site else none
  | _ => none

/-- What may have become of a node. -/
inductive Treatment.IsOf (table : RedirectTable) (filter : CallFilter) : Node → Treatment → Prop where
  | keep (node : Node) (h : ∀ site, node = .insn (.call site) →
      filter.watches site.owner site.name = true → table.Permits site) :
      IsOf table filter node (.keep node)
  | redirect (site : CallSite) {owner : String} (static : site.isStatic = true)
      (h : table.owner? site.name site.descriptor = some owner) :
      IsOf table filter (.insn (.call site))
        (.redirect site { site with owner, interface := false })
  | stub (site : CallSite) {insns : List Insn} (h : stubFor site = .ok insns) :
      IsOf table filter (.insn (.call site)) (.stub site insns)

section Treatment

variable {table : RedirectTable} {filter : CallFilter} {node : Node} {t : Treatment}
  {site : CallSite}

theorem replacementOwner?_eq_some {owner : String} :
    replacementOwner? table site = some owner ↔
      site.isStatic = true ∧ table.owner? site.name site.descriptor = some owner := by
  unfold replacementOwner?
  split
  · rename_i hstatic
    exact (and_iff_right hstatic).symm
  · rename_i hstatic
    exact iff_of_false (fun h => by cases h) fun h => hstatic h.1

theorem replacementOwner?_eq_none : replacementOwner? table site = none ↔
    (site.isStatic = true → table.owner? site.name site.descriptor = none) := by
  unfold replacementOwner?
  split
  · rename_i hstatic
    exact ⟨fun h _ => h, fun h => h hstatic⟩
  · rename_i hstatic
    exact iff_of_true rfl fun h => absurd h hstatic

theorem caught?_call : (Node.insn (.call site)).caught? filter =
    if filter.catches site = true then some site else none :=
  rfl

/-- What is caught is a call. -/
theorem caught?_eq_some :
    node.caught? filter = some site ↔ node = .insn (.call site) ∧ filter.catches site = true := by
  constructor
  · intro h
    unfold Node.caught? at h
    split at h
    · split at h
      · rename_i hcatches
        cases h
        exact ⟨rfl, hcatches⟩
      · cases h
    · cases h
  · rintro ⟨rfl, hcatches⟩
    rw [caught?_call, if_pos hcatches]

theorem treat_call : treat table filter (.insn (.call site)) =
    if filter.watches site.owner site.name = true then treatWatched table site
    else .ok (.keep (.insn (.call site))) :=
  rfl

/-- A watched call that is not caught is that of a constructor. -/
theorem name_of_not_caught (h : (Node.insn (.call site)).caught? filter = none)
    (hwatched : filter.watches site.owner site.name = true) : site.name = constructorName := by
  by_contra hname
  rw [caught?_call, if_pos (by rw [CallFilter.catches, hwatched, bne_iff_ne.2 hname]; rfl)] at h
  cases h

/-- What is not caught is kept. -/
theorem treat_of_not_caught (h : node.caught? filter = none) :
    treat table filter node = .ok (.keep node) := by
  cases node with
  | insn i =>
    cases i with
    | call site =>
      rw [treat_call]
      split
      · rename_i hwatched
        rw [treatWatched, if_pos (name_of_not_caught h hwatched)]
      · rfl
    | _ => rfl
  | _ => rfl

theorem treat_of_caught (h : filter.catches site = true) :
    treat table filter (.insn (.call site)) = treatWatched table site := by
  obtain ⟨hwatched, -⟩ := Bool.and_eq_true_iff.1 h
  rw [treat_call, if_pos hwatched]

/-- A call that is caught goes to the owner of its entry. -/
theorem treat_of_entry {owner : String} (h : filter.catches site = true)
    (howner : replacementOwner? table site = some owner) :
    treat table filter (.insn (.call site)) =
      .ok (.redirect site { site with owner, interface := false }) := by
  obtain ⟨-, hname⟩ := Bool.and_eq_true_iff.1 h
  rw [treat_of_caught h, treatWatched, if_neg (bne_iff_ne.1 hname), howner]

/-- A call that is caught gives way to a stub if it has no entry. -/
theorem treat_of_no_entry (h : filter.catches site = true)
    (hnone : replacementOwner? table site = none) :
    treat table filter (.insn (.call site)) =
      (during (.stubbing site.owner site.name site.descriptor) (stubFor site)).map
        (Treatment.stub site) := by
  obtain ⟨-, hname⟩ := Bool.and_eq_true_iff.1 h
  rw [treat_of_caught h, treatWatched, if_neg (bne_iff_ne.1 hname), hnone]
  cases stubFor site <;> rfl

/-- **How a node is treated**, with all that decides it. -/
theorem treat_cases (h : treat table filter node = .ok t) :
    (node.caught? filter = none ∧ t = .keep node) ∨
      ∃ site, node = .insn (.call site) ∧ filter.catches site = true ∧
        ((∃ owner, replacementOwner? table site = some owner ∧
            t = .redirect site { site with owner, interface := false }) ∨
          replacementOwner? table site = none ∧
            ∃ insns, stubFor site = .ok insns ∧ t = .stub site insns) := by
  cases hcaught : node.caught? filter with
  | none =>
    rw [treat_of_not_caught hcaught] at h
    exact .inl ⟨rfl, (Except.ok.inj h).symm⟩
  | some site =>
    obtain ⟨rfl, hcatches⟩ := caught?_eq_some.1 hcaught
    refine .inr ⟨site, rfl, hcatches, ?_⟩
    cases howner : replacementOwner? table site with
    | some owner =>
      rw [treat_of_entry hcatches howner] at h
      exact .inl ⟨owner, rfl, (Except.ok.inj h).symm⟩
    | none =>
      rw [treat_of_no_entry hcatches howner] at h
      obtain ⟨insns, hinsns, rfl⟩ := map_eq_ok.1 h
      exact .inr ⟨rfl, insns, during_eq_ok.1 hinsns, rfl⟩

/-- **A node is kept, redirected or replaced by a stub.** -/
theorem isOf_of_treat (h : treat table filter node = .ok t) : t.IsOf table filter node := by
  obtain ⟨hcaught, rfl⟩ | ⟨site, rfl, -, ⟨owner, howner, rfl⟩ | ⟨-, insns, hstub, rfl⟩⟩ :=
    treat_cases h
  · refine .keep node fun site hsite hwatched => .inl ?_
    subst hsite
    exact name_of_not_caught hcaught hwatched
  · obtain ⟨hstatic, hentry⟩ := replacementOwner?_eq_some.1 howner
    exact .redirect site hstatic hentry
  · exact .stub site hstub

/-- An instruction that is no call stays. -/
theorem treat_of_not_call {i : Insn} (hcall : ∀ site, i ≠ .call site) :
    treat table filter (.insn i) = .ok (.keep (.insn i)) := by
  cases i with
  | call site => exact absurd rfl (hcall site)
  | _ => rfl

theorem Category.isSimple_popOpcode {c : Category} {op : UInt8} (h : c.popOpcode? = some op) :
    Opcode.IsSimple op ∧ ¬ Opcode.IsExit op := by
  cases c <;> cases h <;> decide

theorem Category.isSimple_zeroOpcode {c : Category} {op : UInt8} (h : c.zeroOpcode? = some op) :
    Opcode.IsSimple op ∧ ¬ Opcode.IsExit op := by
  cases c <;> cases h <;> decide

/-- Stubs are made of instructions without operands, after which control goes on. -/
theorem isSimple_of_stubFor {site : CallSite} {insns : List Insn} (h : stubFor site = .ok insns) :
    ∀ i ∈ insns, ∃ op, i = .simple op ∧ Opcode.IsSimple op ∧ ¬ Opcode.IsExit op := by
  obtain ⟨d, -, h⟩ := bind_eq_ok.1 h
  cases h
  intro i hi
  obtain ⟨op, hop, rfl⟩ := List.mem_map.1 hi
  refine ⟨op, rfl, ?_⟩
  rcases List.mem_append.1 hop with hop | hop
  · rcases List.mem_append.1 hop with hop | hop
    · obtain ⟨c, -, hc⟩ := List.mem_filterMap.1 hop
      exact c.isSimple_popOpcode hc
    · split at hop
      · cases hop
      · rw [List.mem_singleton.1 hop]
        decide
  · exact Category.isSimple_zeroOpcode (Option.mem_toList.1 hop)

namespace Treatment.IsOf

/-- Watched calls that are left may stay. -/
theorem permits (h : t.IsOf table filter node) {site : CallSite}
    (hsite : .insn (.call site) ∈ t.nodes) (hwatched : filter.watches site.owner site.name = true) :
    table.Permits site := by
  cases h with
  | keep node hkeep => exact hkeep site (List.mem_singleton.1 hsite).symm hwatched
  | redirect before static howner =>
    cases List.mem_singleton.1 hsite
    exact .inr ⟨static, rfl, howner⟩
  | stub before hstub =>
    obtain ⟨i, hi, heq⟩ := List.mem_map.1 hsite
    obtain ⟨op, rfl, -⟩ := isSimple_of_stubFor hstub i hi
    cases heq

/-- A treatment that changes nothing leaves the node. -/
theorem nodes_eq (h : t.IsOf table filter node) (hsame : t.changes = false) :
    t.nodes = [node] := by
  cases h with
  | keep node hkeep => rfl
  | redirect before static howner =>
    have heq := of_not_not (of_decide_eq_false hsame)
    rw [Treatment.nodes, ← heq]
  | stub before hstub => cases hsame

/-- Instructions are kept, calls or parts of a stub after a treatment. -/
theorem insn_cases (h : t.IsOf table filter node) {i : Insn} (hi : .insn i ∈ t.nodes) :
    node = .insn i ∨ (∃ site, i = .call site) ∨ ∃ op, i = .simple op ∧ Opcode.IsSimple op := by
  cases h with
  | keep node hkeep => exact .inl (List.mem_singleton.1 hi).symm
  | redirect before static howner =>
    cases List.mem_singleton.1 hi
    exact .inr (.inl ⟨_, rfl⟩)
  | stub before hstub =>
    obtain ⟨i', hi', heq⟩ := List.mem_map.1 hi
    obtain ⟨op, rfl, hop, -⟩ := isSimple_of_stubFor hstub i' hi'
    cases heq
    exact .inr (.inr ⟨op, rfl, hop⟩)

/-- A node that is no call stays. -/
theorem nodes_of_not_call (h : t.IsOf table filter node)
    (hcall : ∀ site, node ≠ .insn (.call site)) : t.nodes = [node] := by
  cases h with
  | keep node hkeep => rfl
  | redirect site static howner => exact absurd rfl (hcall site)
  | stub site hstub => exact absurd rfl (hcall site)

/-- A treatment places the label the node places, and no other. -/
theorem labels_eq (h : t.IsOf table filter node) :
    t.nodes.filterMap Node.label? = node.label?.toList := by
  cases h with
  | keep node hkeep => cases node <;> rfl
  | redirect before static howner => rfl
  | stub before hstub =>
    rw [Treatment.nodes, List.filterMap_map]
    exact List.filterMap_eq_nil_iff.2 fun _ _ => rfl

/-- A treatment jumps to no label but those the node jumps to. -/
theorem targets_subset (h : t.IsOf table filter node) {left : Node} (hleft : left ∈ t.nodes) :
    left.targets ⊆ node.targets := by
  cases h with
  | keep node hkeep =>
    rw [List.mem_singleton.1 hleft]
    exact List.Subset.refl _
  | redirect before static howner =>
    rw [List.mem_singleton.1 hleft]
    exact List.nil_subset _
  | stub before hstub =>
    obtain ⟨i, hi, rfl⟩ := List.mem_map.1 hleft
    obtain ⟨op, rfl, -⟩ := isSimple_of_stubFor hstub i hi
    exact List.nil_subset _

end Treatment.IsOf

end Treatment

/-! ## 2. Whole methods -/

section Method

variable {table : RedirectTable} {filter : CallFilter}

/-- Treatments that succeed are one for each node. -/
theorem treatAll_eq_none {done treatments : List Treatment} {nodes : List Node}
    (h : treatAll table filter done nodes = (treatments, none)) :
    ∃ ts, treatments = done.reverse ++ ts ∧
      List.Forall₂ (fun node t => treat table filter node = .ok t) nodes ts := by
  induction nodes generalizing done with
  | nil =>
    cases h
    exact ⟨[], (List.append_nil _).symm, .nil⟩
  | cons node rest ih =>
    unfold treatAll at h
    split at h
    · rename_i t ht
      obtain ⟨ts, hts, hrest⟩ := ih h
      refine ⟨t :: ts, ?_, .cons ht hrest⟩
      rw [hts, List.reverse_cons, List.append_assoc]
      rfl
    · cases h

/-- Nodes that can be treated are treated one by one. -/
theorem treatAll_of_treated {nodes : List Node} {ts : List Treatment}
    (h : List.Forall₂ (fun node t => treat table filter node = .ok t) nodes ts)
    (done : List Treatment) : treatAll table filter done nodes = (done.reverse ++ ts, none) := by
  induction h generalizing done with
  | nil => rw [treatAll, List.append_nil]
  | @cons node t rest ts htreat _ ih =>
    rw [treatAll, htreat]
    simp only
    rw [ih, List.reverse_cons, List.append_assoc]
    rfl

/-- What a method is after redirection. -/
structure Method.RedirectedFrom (table : RedirectTable) (filter : CallFilter) (m m' : Method) :
    Prop where
  same : m'.modified = false → m' = m
  permits : ∀ site, .call site ∈ m'.insns → filter.watches site.owner site.name = true →
    table.Permits site
  opcodeFits : (∀ i ∈ m.insns, i.OpcodeFits) → ∀ i ∈ m'.insns, i.OpcodeFits

theorem nodes_of_unchanged {nodes : List Node} {ts : List Treatment}
    (h : List.Forall₂ (fun node t => t.IsOf table filter node) nodes ts)
    (hsame : ts.any Treatment.changes = false) : ts.flatMap Treatment.nodes = nodes := by
  induction h with
  | nil => rfl
  | @cons node t _ rest hnode _ ih =>
    rw [List.any_cons, Bool.or_eq_false_iff] at hsame
    rw [List.flatMap_cons, hnode.nodes_eq hsame.1, ih hsame.2]
    rfl

theorem labels_of_treated {nodes : List Node} {ts : List Treatment}
    (h : List.Forall₂ (fun node t => t.IsOf table filter node) nodes ts) :
    (ts.flatMap Treatment.nodes).filterMap Node.label? = nodes.filterMap Node.label? := by
  induction h with
  | nil => rfl
  | @cons node _ _ _ hnode _ ih =>
    rw [List.flatMap_cons, List.filterMap_append, ih, hnode.labels_eq, List.filterMap_cons]
    cases node.label? <;> rfl

/-- **A redirection that succeeds** treats each node, and changes nothing but the nodes and the flag
    of the method. -/
theorem treats_of_redirectCalls {className : String} {m : Method} {summary : RedirectSummary}
    (h : (redirectCalls className table filter m).result = .ok summary) :
    ∃ ts : List Treatment,
      List.Forall₂ (fun node t => treat table filter node = .ok t) m.nodes.toList ts ∧
      (redirectCalls className table filter m).method =
        { m with
          nodes := (ts.flatMap Treatment.nodes).toArray
          modified := m.modified || ts.any Treatment.changes } := by
  unfold redirectCalls at h ⊢
  rcases htreat : treatAll table filter [] m.nodes.toList with ⟨treatments, _ | failure⟩
  · obtain ⟨ts, hts, hall⟩ := treatAll_eq_none htreat
    rw [List.reverse_nil, List.nil_append] at hts
    subst hts
    exact ⟨treatments, hall, rfl⟩
  · rw [htreat] at h
    cases h

/-- Each node is kept, redirected or replaced by a stub. -/
theorem redirectCalls_eq_ok {className : String} {m : Method} {summary : RedirectSummary}
    (h : (redirectCalls className table filter m).result = .ok summary) :
    ∃ ts : List Treatment,
      List.Forall₂ (fun node t => t.IsOf table filter node) m.nodes.toList ts ∧
      (redirectCalls className table filter m).method =
        { m with
          nodes := (ts.flatMap Treatment.nodes).toArray
          modified := m.modified || ts.any Treatment.changes } := by
  obtain ⟨ts, hall, hmethod⟩ := treats_of_redirectCalls h
  exact ⟨ts, hall.imp fun _ _ => isOf_of_treat, hmethod⟩

/-- Redirection leaves the origin and the handlers of a method. -/
theorem sameTables_redirectCalls {className : String} {m : Method} {summary : RedirectSummary}
    (h : (redirectCalls className table filter m).result = .ok summary) :
    (redirectCalls className table filter m).method.origin = m.origin ∧
      (redirectCalls className table filter m).method.handlers = m.handlers := by
  obtain ⟨ts, -, hmethod⟩ := treats_of_redirectCalls h
  rw [hmethod]
  exact ⟨rfl, rfl⟩

/-- **Redirection places the labels that were placed**, in their order. -/
theorem placedLabels_redirectCalls {className : String} {m : Method} {summary : RedirectSummary}
    (h : (redirectCalls className table filter m).result = .ok summary) :
    (redirectCalls className table filter m).method.placedLabels = m.placedLabels := by
  obtain ⟨ts, hall, hmethod⟩ := redirectCalls_eq_ok h
  rw [hmethod]
  exact labels_of_treated hall

/-- **Redirected methods jump** only where the method jumps. -/
theorem exists_target_redirectCalls {className : String} {m : Method} {summary : RedirectSummary}
    (h : (redirectCalls className table filter m).result = .ok summary) {i : Insn}
    (hi : i ∈ (redirectCalls className table filter m).method.insns) {l : Label}
    (hl : l ∈ i.targets) : ∃ j ∈ m.insns, l ∈ j.targets := by
  obtain ⟨ts, hall, hmethod⟩ := redirectCalls_eq_ok h
  rw [hmethod, Method.mem_insns_iff, List.toList_toArray] at hi
  obtain ⟨t, ht, hnode⟩ := List.mem_flatMap.1 hi
  obtain ⟨node, hmem, hof⟩ := exists_left_of_forall₂ hall ht
  have hsub := hof.targets_subset hnode hl
  cases node with
  | insn j => exact ⟨j, Method.mem_insns_iff.2 hmem, hsub⟩
  | _ => cases hsub

/-- **Redirection refers to no further labels.** -/
theorem references_redirectCalls {className : String} {m : Method} {summary : RedirectSummary}
    (h : (redirectCalls className table filter m).result = .ok summary) :
    (redirectCalls className table filter m).method.references ⊆ m.references := by
  obtain ⟨ts, hall, hmethod⟩ := redirectCalls_eq_ok h
  intro l hl
  rw [hmethod] at hl
  simp only [Method.references, referencedLabels, List.mem_append, List.mem_flatMap] at hl ⊢
  rcases hl with (⟨left, ⟨t, ht, hleft⟩, hl⟩ | hl) | hl
  · obtain ⟨node, hnode, hof⟩ := exists_left_of_forall₂ hall ht
    exact .inl (.inl ⟨node, hnode, hof.targets_subset hleft hl⟩)
  · exact .inl (.inr hl)
  · exact .inr hl

/-- The instructions of a redirected method are its own, calls, and parts of stubs. -/
theorem mem_insns_redirectCalls {className : String} {m : Method} {summary : RedirectSummary}
    (h : (redirectCalls className table filter m).result = .ok summary) {i : Insn}
    (hi : i ∈ (redirectCalls className table filter m).method.insns) :
    i ∈ m.insns ∨ (∃ site, i = .call site) ∨ ∃ op, i = .simple op ∧ Opcode.IsSimple op := by
  obtain ⟨treatments, hall, hmethod⟩ := redirectCalls_eq_ok h
  rw [hmethod] at hi
  have hnode : .insn i ∈ treatments.flatMap Treatment.nodes := by
    simpa using Method.mem_insns_iff.1 hi
  obtain ⟨t, ht, hnode⟩ := List.mem_flatMap.1 hnode
  obtain ⟨node, hmem, hof⟩ := exists_left_of_forall₂ hall ht
  refine (hof.insn_cases hnode).imp_left fun (heq : node = .insn i) => ?_
  exact Method.mem_insns_iff.2 (heq ▸ hmem)

/-- The entries of switches are counted in full after redirection if they were before. -/
theorem entriesFit_redirectCalls {className : String} {m : Method} {summary : RedirectSummary}
    (h : (redirectCalls className table filter m).result = .ok summary) (fits : m.EntriesFit) :
    (redirectCalls className table filter m).method.EntriesFit := by
  intro i hi
  rcases mem_insns_redirectCalls h hi with hi | ⟨site, rfl⟩ | ⟨op, rfl, -⟩
  · exact fits i hi
  · exact Nat.zero_lt_succ _
  · exact Nat.zero_lt_succ _

/-- **Redirection leaves no other watched calls.** -/
theorem redirectedFrom_of_redirectCalls {className : String} {m : Method}
    {summary : RedirectSummary} (h : (redirectCalls className table filter m).result = .ok summary) :
    m.RedirectedFrom table filter (redirectCalls className table filter m).method := by
  refine ⟨fun hmodified => ?_, fun site hsite hwatched => ?_, fun form i hi => ?_⟩
  · obtain ⟨treatments, hall, hmethod⟩ := redirectCalls_eq_ok h
    rw [hmethod] at hmodified ⊢
    simp only [Bool.or_eq_false_iff] at hmodified
    obtain ⟨hmodified, hsame⟩ := hmodified
    rw [nodes_of_unchanged hall hsame, hsame, Array.toArray_toList, Bool.or_false]
  · obtain ⟨treatments, hall, hmethod⟩ := redirectCalls_eq_ok h
    rw [hmethod] at hsite
    have hnode : .insn (.call site) ∈ treatments.flatMap Treatment.nodes := by
      simpa using Method.mem_insns_iff.1 hsite
    obtain ⟨t, ht, hnode⟩ := List.mem_flatMap.1 hnode
    obtain ⟨node, -, hof⟩ := exists_left_of_forall₂ hall ht
    exact hof.permits hnode hwatched
  · rcases mem_insns_redirectCalls h hi with hi | ⟨site, rfl⟩ | ⟨op, rfl, hop⟩
    · exact form i hi
    · trivial
    · exact hop

/-! ## 3. Nodes that stay -/

theorem nodes_of_no_calls {nodes : List Node} {ts : List Treatment}
    (h : List.Forall₂ (fun node t => t.IsOf table filter node) nodes ts)
    (hcalls : ∀ site, .insn (.call site) ∉ nodes) : ts.flatMap Treatment.nodes = nodes := by
  induction h with
  | nil => rfl
  | @cons node t _ rest hnode _ ih =>
    have hfirst : t.nodes = [node] := hnode.nodes_of_not_call fun site heq =>
      hcalls site (heq ▸ List.mem_cons_self)
    rw [List.flatMap_cons, hfirst, ih fun site hsite => hcalls site (List.mem_cons_of_mem _ hsite)]
    rfl

/-- **A node that is no call** stays between what is left of the nodes before and after it. -/
theorem split_of_treated {before after : List Node} {node : Node} {ts : List Treatment}
    (h : List.Forall₂ (fun node t => t.IsOf table filter node) (before ++ node :: after) ts)
    (hcall : ∀ site, node ≠ .insn (.call site)) :
    ∃ ts₁ ts₂ : List Treatment, List.Forall₂ (fun node t => t.IsOf table filter node) after ts₂ ∧
      ts.flatMap Treatment.nodes =
        ts₁.flatMap Treatment.nodes ++ node :: ts₂.flatMap Treatment.nodes := by
  induction before generalizing ts with
  | nil =>
    obtain ⟨t, ts₂, hnode, hafter, rfl⟩ := List.forall₂_cons_left_iff.1 h
    refine ⟨[], ts₂, hafter, ?_⟩
    rw [List.flatMap_cons, hnode.nodes_of_not_call hcall]
    rfl
  | cons first before ih =>
    obtain ⟨t, rest, -, hrest, rfl⟩ := List.forall₂_cons_left_iff.1 h
    obtain ⟨ts₁, ts₂, hafter, heq⟩ := ih hrest
    refine ⟨t :: ts₁, ts₂, hafter, ?_⟩
    rw [List.flatMap_cons, heq, List.flatMap_cons, List.append_assoc]

/-- Where an instruction follows a label, the last one does. -/
theorem last_mem_of_split {m : Method} {before after : List Node} {l : Label} {i last : Insn}
    (hnodes : m.nodes.toList = before ++ .label l :: after) (hi : .insn i ∈ after)
    (hlast : m.insns.getLast? = some last) : .insn last ∈ after := by
  have hmem : i ∈ after.filterMap Node.insn? := List.mem_filterMap.2 ⟨_, hi, rfl⟩
  have hinsns : m.insns = before.filterMap Node.insn? ++ after.filterMap Node.insn? := by
    rw [Method.insns, hnodes, List.filterMap_append]
    rfl
  rw [hinsns, List.getLast?_append_of_ne_nil _ (List.ne_nil_of_mem hmem)] at hlast
  obtain ⟨node, hnode, hsome⟩ := List.mem_filterMap.1 (List.mem_of_getLast? hlast)
  cases node with
  | insn j => exact Option.some.inj hsome ▸ hnode
  | _ => cases hsome

/-- **A label before an instruction** is still before one, if the last instruction is no call. -/
theorem split_redirectCalls {className : String} {m : Method} {summary : RedirectSummary}
    {before after : List Node} {l : Label} {i last : Insn}
    (h : (redirectCalls className table filter m).result = .ok summary)
    (hnodes : m.nodes.toList = before ++ .label l :: after) (hi : .insn i ∈ after)
    (hlast : m.insns.getLast? = some last) (hcall : ∀ site, last ≠ .call site) :
    ∃ before' after', (redirectCalls className table filter m).method.nodes.toList =
      before' ++ .label l :: after' ∧ .insn last ∈ after' := by
  obtain ⟨ts, hall, hmethod⟩ := redirectCalls_eq_ok h
  obtain ⟨ts₁, ts₂, hafter, heq⟩ := split_of_treated (hnodes ▸ hall) fun _ heq => by cases heq
  refine ⟨_, _, by rw [hmethod]; exact heq, ?_⟩
  obtain ⟨pre, post, rfl⟩ := List.append_of_mem (last_mem_of_split hnodes hi hlast)
  obtain ⟨ts₃, ts₄, -, heq'⟩ := split_of_treated hafter fun site hsite =>
    hcall site (Node.insn.inj hsite)
  rw [heq']
  exact List.mem_append_right _ List.mem_cons_self

/-- No instruction follows the last one. -/
theorem split_at_last {m : Method} {last : Insn} (h : m.insns.getLast? = some last) :
    ∃ before markers, m.nodes.toList = before ++ .insn last :: markers ∧
      markers.filterMap Node.insn? = [] := by
  obtain ⟨init, hinit⟩ := List.getLast?_eq_some_iff.1 h
  obtain ⟨first, rest, hnodes, -, hrest⟩ := List.filterMap_eq_append_iff.1 hinit
  obtain ⟨markers, node, others, rfl, -, hnode, hothers⟩ := List.filterMap_eq_cons_iff.1 hrest
  have hnode : node = .insn last := by
    cases node with
    | insn i => exact congrArg Node.insn (Option.some.inj hnode)
    | _ => cases hnode
  subst hnode
  exact ⟨first ++ markers, others, by rw [hnodes, List.append_assoc], hothers⟩

/-- **The last instruction stays** if it is no call. -/
theorem getLast?_insns_redirectCalls {className : String} {m : Method} {summary : RedirectSummary}
    {last : Insn} (h : (redirectCalls className table filter m).result = .ok summary)
    (hlast : m.insns.getLast? = some last) (hcall : ∀ site, last ≠ .call site) :
    (redirectCalls className table filter m).method.insns.getLast? = some last := by
  obtain ⟨ts, hall, hmethod⟩ := redirectCalls_eq_ok h
  obtain ⟨before, markers, hnodes, hmarkers⟩ := split_at_last hlast
  rw [hnodes] at hall
  obtain ⟨ts₁, ts₂, hafter, heq⟩ := split_of_treated hall fun site hsite =>
    hcall site (Node.insn.inj hsite)
  have hkept := nodes_of_no_calls hafter fun site hsite => by
    cases List.filterMap_eq_nil_iff.1 hmarkers _ hsite
  rw [hkept] at heq
  rw [hmethod, List.getLast?_eq_some_iff]
  refine ⟨(ts₁.flatMap Treatment.nodes).filterMap Node.insn?, ?_⟩
  show (ts.flatMap Treatment.nodes).filterMap Node.insn? = _
  rw [heq, List.filterMap_append, List.filterMap_cons_some (show (Node.insn last).insn? = _ from rfl),
    hmarkers]

end Method

end Rewire
