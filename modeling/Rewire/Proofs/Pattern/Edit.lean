import Mathlib
import Rewire.Code.WellFormed
import Rewire.Pattern.Edit

/-!
# What edits leave in place

Injection adds instructions between the nodes, removal takes nodes away. This file shows

* what the nodes are after insertions (`mem_insertAfter`, `sublist_insertAfter`), and which
  instructions are inserted (`of_insertions`);
* that injection keeps the nodes in their order (`Method.sublist_inject`), places the labels that were
  placed (`Method.placedLabels_inject`) and refers only to labels that were referred to or that the
  new instructions jump to (`Method.mem_references_inject`);
* that removal keeps the order of the nodes it leaves (`Method.sublist_remove`) and marks only nodes
  of occurrences (`Method.exists_mark`), and that it places some of the labels
  (`Method.placedLabels_remove`), and among them all that it leaves a reference to
  (`Method.LabelsPlaced.remove`).
-/

namespace Rewire

/-- Elements at ascending positions are a part in order. -/
theorem pair_sublist {α : Type} {l : List α} {j k : Nat} {a b : α} (hjk : j < k)
    (hj : l[j]? = some a) (hk : l[k]? = some b) : List.Sublist [a, b] l := by
  induction l generalizing j k with
  | nil => cases hj
  | cons first rest ih =>
    cases k with
    | zero => exact absurd hjk (Nat.not_lt_zero j)
    | succ k =>
      cases j with
      | zero =>
        have hfirst : first = a := Option.some.inj hj
        have hmem : b ∈ rest := List.mem_of_getElem? (show rest[k]? = some b from hk)
        rw [hfirst]
        exact (List.singleton_sublist.2 hmem).cons_cons a
      | succ j => exact (ih (Nat.lt_of_succ_lt_succ hjk) hj hk).cons first

/-! ## 1. Insertions -/

/-- A node after insertions is one from before or an inserted instruction. -/
theorem mem_insertAfter {nodes : Array Node} {insertions : Insertions} {node : Node}
    (h : node ∈ insertAfter nodes insertions) :
    node ∈ nodes ∨ ∃ (k : Nat) (insns : List Insn), insertions[k]? = some insns ∧
      ∃ i ∈ insns, node = .insn i := by
  obtain ⟨⟨old, k⟩, hold, hnode⟩ := Array.mem_flatMap.1 h
  rcases Array.mem_append.1 hnode with hnode | hnode
  · left
    rw [Array.mem_singleton.1 hnode]
    exact (Array.mem_zipIdx' hold).2 ▸ Array.getElem_mem _
  · right
    rw [List.mem_toArray, List.mem_map] at hnode
    obtain ⟨i, hi, rfl⟩ := hnode
    cases hget : insertions[k]? with
    | none =>
      rw [hget] at hi
      cases hi
    | some insns =>
      rw [hget] at hi
      exact ⟨k, insns, hget, i, hi, rfl⟩

/-- What holds of all instructions to insert holds of those found at a position. -/
theorem of_insertions {P : List Insn → Prop} {l : List (Nat × List Insn)}
    (hl : ∀ entry ∈ l, P entry.2) {k : Nat} {found : List Insn}
    (h : (Std.HashMap.ofList l)[k]? = some found) : P found := by
  have hmany : ∀ (l : List (Nat × List Insn)) (start : Insertions),
      (∀ entry ∈ l, P entry.2) → (∀ (k : Nat) v, start[k]? = some v → P v) →
        ∀ (k : Nat) v, (start.insertMany l)[k]? = some v → P v := by
    intro l
    induction l with
    | nil => exact fun start _ hstart => hstart
    | cons entry rest ih =>
      intro start hl hstart
      rw [Std.HashMap.insertMany_cons]
      refine ih _ (fun e he => hl e (List.mem_cons_of_mem _ he)) fun k v hv => ?_
      rw [Std.HashMap.getElem?_insert] at hv
      split at hv
      · cases hv
        exact hl entry List.mem_cons_self
      · exact hstart k v hv
  rw [Std.HashMap.ofList_eq_insertMany_empty] at h
  refine hmany l ∅ hl (fun k v hv => ?_) k found h
  rw [Std.HashMap.getElem?_empty] at hv
  cases hv

/-- Inserted instructions are no labels. -/
theorem labels_insertAfter (nodes : Array Node) (insertions : Insertions) :
    (insertAfter nodes insertions).toList.filterMap Node.label? =
      nodes.toList.filterMap Node.label? := by
  have hinserted : ∀ insns : List Insn, (insns.map Node.insn).filterMap Node.label? = [] := by
    intro insns
    rw [List.filterMap_map, List.filterMap_eq_nil_iff]
    exact fun _ _ => rfl
  have hlist : ∀ (nodes : List Node) (k : Nat),
      ((nodes.zipIdx k).flatMap fun a =>
        [a.1] ++ ((insertions[a.2]?).getD []).map Node.insn).filterMap Node.label? =
      nodes.filterMap Node.label? := by
    intro nodes
    induction nodes with
    | nil => exact fun _ => rfl
    | cons node rest ih =>
      intro k
      rw [List.zipIdx_cons, List.flatMap_cons, List.filterMap_append, List.filterMap_append, ih,
        hinserted, List.append_nil, ← List.filterMap_append]
      rfl
  unfold insertAfter
  rw [Array.toList_flatMap, Array.toList_zipIdx]
  simpa using hlist nodes.toList 0

/-- The nodes stay, in their order, when others are inserted. -/
theorem sublist_insertAfter (nodes : Array Node) (insertions : Insertions) :
    List.Sublist nodes.toList (insertAfter nodes insertions).toList := by
  have hlist : ∀ (nodes : List Node) (k : Nat), List.Sublist nodes
      ((nodes.zipIdx k).flatMap fun a =>
        [a.1] ++ ((insertions[a.2]?).getD []).map Node.insn) := by
    intro nodes
    induction nodes with
    | nil => exact fun _ => List.Sublist.refl _
    | cons node rest ih =>
      intro k
      rw [List.zipIdx_cons, List.flatMap_cons]
      exact ((ih (k + 1)).trans (List.sublist_append_right _ _)).cons_cons node
  unfold insertAfter
  rw [Array.toList_flatMap, Array.toList_zipIdx]
  simpa using hlist nodes.toList 0

namespace Method

variable {m : Method} {pattern : List Predicate}

/-! ## 2. Injection -/

section Inject

variable {generate : Nat → List Insn}

/-- Injection adds and removes no label. -/
theorem placedLabels_inject : (m.inject pattern generate).2.placedLabels = m.placedLabels := by
  unfold inject
  simp only
  split
  · rfl
  · exact labels_insertAfter _ _

theorem sublist_inject : List.Sublist m.nodes.toList (m.inject pattern generate).2.nodes.toList := by
  unfold inject
  simp only
  split
  · exact List.Sublist.refl _
  · exact sublist_insertAfter _ _

theorem handlers_inject : (m.inject pattern generate).2.handlers = m.handlers := by
  unfold inject
  simp only
  split <;> rfl

theorem allLocals_inject : (m.inject pattern generate).2.allLocals = m.allLocals := by
  unfold inject
  simp only
  split <;> rfl

/-- The instructions after an injection are those from before and generated ones. -/
theorem mem_insns_inject {i : Insn} (hi : i ∈ (m.inject pattern generate).2.insns) :
    i ∈ m.insns ∨ ∃ n, i ∈ generate n := by
  rw [mem_insns_iff] at hi
  unfold inject at hi
  simp only at hi
  split at hi
  · exact .inl (mem_insns_iff.2 hi)
  · rcases mem_insertAfter (Array.mem_toList_iff.1 hi) with hold | ⟨k, insns, hget, j, hj, heq⟩
    · exact .inl (mem_insns_iff.2 (Array.mem_toList_iff.2 hold))
    · cases heq
      have hgenerated : ∃ n, insns = generate n := by
        refine of_insertions (P := fun insns => ∃ n, insns = generate n) (fun entry hentry => ?_) hget
        obtain ⟨pair, -, rfl⟩ := List.mem_map.1 hentry
        exact ⟨pair.2, rfl⟩
      obtain ⟨n, rfl⟩ := hgenerated
      exact .inr ⟨n, hj⟩

/-- **Injection adds no reference** but those of the instructions it adds. -/
theorem mem_references_inject {l : Label}
    (hl : l ∈ (m.inject pattern generate).2.references) :
    l ∈ m.references ∨ ∃ n, ∃ i ∈ generate n, l ∈ i.targets := by
  rw [references, handlers_inject, allLocals_inject] at hl
  simp only [references, referencedLabels, List.mem_append] at hl ⊢
  rcases hl with (hl | hl) | hl
  · obtain ⟨node, hnode, hl⟩ := List.mem_flatMap.1 hl
    cases node with
    | insn i =>
      rcases mem_insns_inject (mem_insns_iff.2 hnode) with hold | ⟨n, hi⟩
      · exact .inl (.inl (.inl (List.mem_flatMap.2 ⟨.insn i, mem_insns_iff.1 hold, hl⟩)))
      · exact .inr ⟨n, i, hi, hl⟩
    | _ => cases hl
  · exact .inl (.inl (.inr hl))
  · exact .inl (.inr hl)

@[simp] theorem nextLabel_inject : (m.inject pattern generate).2.nextLabel = m.nextLabel := by
  unfold inject
  simp only
  split <;> rfl

end Inject

/-! ## 3. Removal -/

/-- An occurrence ends behind the markers after its last instruction. -/
theorem stop_of_mem_matches {found : Match} (h : found ∈ m.matches pattern) :
    found.stop = skipMarkers m.nodes (found.last + 1) := by
  have hfrom : ∀ (p : Predicate) (rest : List Predicate) (done : Array Match) (first : Nat),
      (∀ f ∈ done, f.stop = skipMarkers m.nodes (f.last + 1)) →
        ∀ f ∈ matchesFrom m p rest done first, f.stop = skipMarkers m.nodes (f.last + 1) := by
    intro p rest done first
    fun_induction matchesFrom m p rest done first with
    | case1 done first hlt found hgoes hmatch ih =>
      intro hdone
      refine ih fun f hf => ?_
      rcases Array.mem_push.1 hf with hf | rfl
      · exact hdone f hf
      · obtain ⟨⟨last, hlast⟩, -, heq⟩ := Option.map_eq_some_iff.1 hmatch
        cases heq
        rfl
    | case2 done first hlt hnone ih => exact ih
    | case3 done first hge => exact fun hdone => hdone
  cases pattern with
  | nil => cases h
  | cons p rest =>
    exact hfrom p rest #[] 0 (fun f hf => absurd hf (Array.not_mem_empty f)) found
      (Array.mem_toList_iff.1 h)

/-- What is marked lies in an occurrence. -/
theorem mem_of_coveredBy {size k : Nat} {found : List Match}
    (h : (coveredBy size found)[k]? = some true) : ∃ f ∈ found, k ∈ f.nodes := by
  have hfold : ∀ (positions : List Nat) (covered : Array Bool),
      (positions.foldl (fun covered i => covered.setIfInBounds i true) covered)[k]? = some true →
        k ∈ positions ∨ covered[k]? = some true := by
    intro positions
    induction positions with
    | nil => exact fun _ hk => .inr hk
    | cons i rest ih =>
      intro covered hk
      rcases ih _ hk with hmem | hcovered
      · exact .inl (List.mem_cons_of_mem _ hmem)
      · rw [Array.getElem?_setIfInBounds] at hcovered
        split at hcovered
        · rename_i heq
          exact .inl (heq ▸ List.mem_cons_self)
        · exact .inr hcovered
  rcases hfold _ _ h with hmem | hnone
  · exact List.mem_flatMap.1 hmem
  · rw [Array.getElem?_replicate] at hnone
    split at hnone <;> cases hnone

/-- What lies in an occurrence is marked. -/
theorem coveredBy_of_mem {size k : Nat} {found : List Match} {f : Match} (hf : f ∈ found)
    (hk : k ∈ f.nodes) (hlt : k < size) : (coveredBy size found)[k]? = some true := by
  have hfold : ∀ (positions : List Nat) (covered : Array Bool), k < covered.size →
      (k ∈ positions ∨ covered[k]? = some true) →
        (positions.foldl (fun covered i => covered.setIfInBounds i true) covered)[k]? =
          some true := by
    intro positions
    induction positions with
    | nil => exact fun covered _ h => h.resolve_left List.not_mem_nil
    | cons i rest ih =>
      intro covered hsize h
      refine ih _ (by rwa [Array.size_setIfInBounds]) ?_
      rw [Array.getElem?_setIfInBounds, List.mem_cons] at *
      by_cases hi : i = k
      · subst hi
        simp [hsize]
      · rw [if_neg hi]
        exact h.imp_left fun hmem => hmem.resolve_left (Ne.symm hi)
  exact hfold _ _ (by rwa [Array.size_replicate]) (.inl (List.mem_flatMap.2 ⟨f, hf, hk⟩))

theorem size_coveredBy (size : Nat) (found : List Match) :
    (coveredBy size found).size = size := by
  have hfold : ∀ (positions : List Nat) (covered : Array Bool),
      (positions.foldl (fun covered i => covered.setIfInBounds i true) covered).size =
        covered.size := by
    intro positions
    induction positions with
    | nil => exact fun _ => rfl
    | cons i rest ih =>
      intro covered
      rw [List.foldl_cons, ih, Array.size_setIfInBounds]
  rw [coveredBy, hfold, Array.size_replicate]

/-- The nodes with their marks are the nodes. -/
theorem map_fst_zip_coveredBy (nodes : Array Node) (found : List Match) :
    (nodes.toList.zip (coveredBy nodes.size found).toList).map Prod.fst = nodes.toList :=
  List.map_fst_zip (by simp [size_coveredBy])

/-- A node with its mark. What is marked lies in an occurrence. -/
theorem exists_mark {k : Nat} {node : Node} (found : List Match) (hk : m.nodes[k]? = some node) :
    ∃ mark, (m.nodes.toList.zip (coveredBy m.nodes.size found).toList)[k]? = some (node, mark) ∧
      (mark = true → ∃ f ∈ found, k ∈ f.nodes) := by
  have hlt : k < (coveredBy m.nodes.size found).size := by
    rw [size_coveredBy]
    exact (Array.getElem?_eq_some_iff.1 hk).1
  have hmark := Array.getElem?_eq_getElem hlt
  refine ⟨(coveredBy m.nodes.size found)[k], List.getElem?_zip_eq_some.2 ⟨?_, ?_⟩, fun htrue => ?_⟩
  · rwa [Array.getElem?_toList]
  · rwa [Array.getElem?_toList]
  · exact mem_of_coveredBy (hmark.trans (congrArg some htrue))

/-- Removal keeps the order of the nodes that are left. -/
theorem sublist_remove : List.Sublist (m.remove pattern).2.nodes.toList m.nodes.toList := by
  unfold remove
  simp only
  split
  · exact List.Sublist.refl _
  · rw [List.toList_toArray]
    refine (List.filter_sublist.map Prod.fst).trans ?_
    rw [map_fst_zip_coveredBy]

theorem handlers_remove_subset : (m.remove pattern).2.handlers ⊆ m.handlers := by
  unfold remove
  simp only
  split
  · exact List.Subset.refl _
  · exact List.filter_subset_self _

/-- Removal places no label that was not placed, and keeps the order of the others. -/
theorem placedLabels_remove :
    List.Sublist (m.remove pattern).2.placedLabels m.placedLabels :=
  sublist_remove.filterMap _

/-- Fewer nodes, regions and records refer to fewer labels. Nodes without targets do not count. -/
theorem referencedLabels_subset {nodes : List Node} (nodes' : List Node)
    {handlers handlers' : List Handler} {records records' : List LocalRecord}
    (hnodes : ∀ node ∈ nodes, node.targets ≠ [] → node ∈ nodes')
    (hhandlers : handlers ⊆ handlers') (hrecords : records ⊆ records') :
    referencedLabels nodes handlers records ⊆ referencedLabels nodes' handlers' records' := by
  intro l hl
  simp only [referencedLabels, List.mem_append, List.mem_flatMap] at hl ⊢
  rcases hl with (⟨node, hnode, hl⟩ | ⟨handler, hhandler, hl⟩) | ⟨record, hrecord, hl⟩
  · exact .inl (.inl ⟨node, hnodes node hnode (List.ne_nil_of_mem hl), hl⟩)
  · exact .inl (.inr ⟨handler, hhandlers hhandler, hl⟩)
  · exact .inr ⟨record, hrecords hrecord, hl⟩

/-- The labels that are kept refer to nothing: what is left refers to the same labels without
    them. -/
theorem mem_references_remove (hsome : ¬ (m.matches pattern).isEmpty) {l : Label} :
    l ∈ (m.remove pattern).2.references ↔
      l ∈ referencedLabels
        (((m.nodes.toList.zip (coveredBy m.nodes.size (m.matches pattern)).toList).filter
          fun e => !e.2).map Prod.fst)
        (m.remove pattern).2.handlers (m.remove pattern).2.allLocals := by
  rw [Method.remove, if_neg hsome]
  refine ⟨fun hl => referencedLabels_subset _ (fun node hnode htargets => ?_)
      (List.Subset.refl _) (List.Subset.refl _) hl,
    fun hl => referencedLabels_subset _ (fun node hnode _ => ?_)
      (List.Subset.refl _) (List.Subset.refl _) hl⟩
  · obtain ⟨⟨node, gone⟩, hentry, rfl⟩ := List.mem_map.1 hnode
    obtain ⟨hentry, hkept⟩ := List.mem_filter.1 hentry
    refine List.mem_map.2 ⟨_, List.mem_filter.2 ⟨hentry, ?_⟩, rfl⟩
    cases node with
    | label => exact absurd rfl htargets
    | insn | line => exact hkept
  · obtain ⟨⟨node, gone⟩, hentry, rfl⟩ := List.mem_map.1 hnode
    obtain ⟨hentry, hkept⟩ := List.mem_filter.1 hentry
    refine List.mem_map.2 ⟨_, List.mem_filter.2 ⟨hentry, ?_⟩, rfl⟩
    cases node with
    | label => rw [Bool.or_eq_true]; exact .inl hkept
    | insn | line => exact hkept

/-- **Removal keeps the labels it leaves a reference to.** -/
theorem LabelsPlaced.remove (h : m.LabelsPlaced) : (m.remove pattern).2.LabelsPlaced := by
  intro l hl
  by_cases hnone : (m.matches pattern).isEmpty
  · rw [Method.remove, if_pos hnone] at hl ⊢
    exact h l hl
  have hleft := (mem_references_remove hnone).1 hl
  rw [Method.remove, if_neg hnone] at hleft ⊢
  have hmarked := map_fst_zip_coveredBy m.nodes (m.matches pattern)
  simp only [allLocals, placedLabels] at hleft ⊢
  generalize m.nodes.toList.zip
    (coveredBy m.nodes.size (m.matches pattern)).toList = marked at hmarked hleft ⊢
  have hplaced : l ∈ m.placedLabels := by
    refine h l (referencedLabels_subset _ (fun node hnode _ => ?_) (List.filter_subset_self _)
      (List.append_subset.2
        ⟨List.Subset.trans (List.filter_subset_self _) (List.subset_append_left _ _),
          List.Subset.trans (List.filter_subset_self _) (List.subset_append_right _ _)⟩) hleft)
    rw [← hmarked]
    exact (List.filter_sublist.map Prod.fst).subset hnode
  obtain ⟨node, hnode, hlabel⟩ := List.mem_filterMap.1 hplaced
  rw [← hmarked] at hnode
  obtain ⟨⟨node, gone⟩, hentry, rfl⟩ := List.mem_map.1 hnode
  cases node with
  | label l' =>
    cases hlabel
    refine List.mem_filterMap.2 ⟨.label l, List.mem_map.2 ⟨_, List.mem_filter.2 ⟨hentry, ?_⟩, rfl⟩,
      rfl⟩
    rw [Bool.or_eq_true]
    exact .inr (by rwa [Std.HashSet.contains_ofList, List.contains_iff_mem])
  | insn | line => cases hlabel

@[simp] theorem nextLabel_remove : (m.remove pattern).2.nextLabel = m.nextLabel := by
  unfold remove
  simp only
  split <;> rfl

end Method

end Rewire
