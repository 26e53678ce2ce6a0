import Mathlib
import Rewire.Proofs.Pattern.Edit
import Rewire.Proofs.Pattern.Scan

/-!
# What removal leaves

Removal takes the nodes of all occurrences away, except labels that something left refers to. This
file follows the nodes that are left from their old positions to their new ones. It shows

* which positions remain (`Method.remaining`), and that the new nodes are those at these positions
  (`Method.getElem?_remove`);
* that the order of what remains does not change (`Method.remaining_lt_iff`), so a label that is
  referred to stays where it was among the others (`Method.labelPosition?_remove`);
* that exactly the exception regions and records go that start in an occurrence, also where labels
  repeat (`Method.Deletes`, `Method.deletes_remove`), and that the others enclose what they enclosed
  (`Method.keepsRange_remove`);
* all of it together (`Method.Removes`, `Method.removes_of_remove`).
-/

namespace Rewire

/-- In an ascending list, places and elements are ordered alike. -/
theorem getElem?_lt_iff {l : List Nat} {k k' i i' : Nat} (hl : l.Pairwise (· < ·))
    (h : l[k]? = some i) (h' : l[k']? = some i') : k < k' ↔ i < i' := by
  obtain ⟨hlt, rfl⟩ := List.getElem?_eq_some_iff.1 h
  obtain ⟨hlt', rfl⟩ := List.getElem?_eq_some_iff.1 h'
  have hascending := List.pairwise_iff_getElem.1 hl
  rcases Nat.lt_trichotomy k k' with hkk | rfl | hkk
  · exact iff_of_true hkk (hascending k k' hlt hlt' hkk)
  · exact iff_of_false (Nat.lt_irrefl _) (Nat.lt_irrefl _)
  · exact iff_of_false (Nat.lt_asymm hkk) (Nat.lt_asymm (hascending k' k hlt' hlt hkk))

/-- In an ascending list, what is not below an element is found from this element on. -/
theorem find?_from {l : List Nat} {k i : Nat} {p : Nat → Bool} (h : l.Pairwise (· < ·))
    (hi : l[k]? = some i) : l.find? (fun j => i ≤ j && p j) = (l.drop k).find? p := by
  obtain ⟨hlt, hget⟩ := List.getElem?_eq_some_iff.1 hi
  have hdrop : l.drop k = i :: l.drop (k + 1) := by rw [List.drop_eq_getElem_cons hlt, hget]
  rw [← List.take_append_drop k l, List.pairwise_append, hdrop] at h
  obtain ⟨-, hbehind, hbefore⟩ := h
  have hnone : (l.take k).find? (fun j => i ≤ j && p j) = none := by
    refine List.find?_eq_none.2 fun j hj hfound => ?_
    rw [Bool.and_eq_true, decide_eq_true_eq] at hfound
    exact Nat.not_le.2 (hbefore j hj i List.mem_cons_self) hfound.1
  have hfrom : (l.drop k).find? (fun j => i ≤ j && p j) = (l.drop k).find? p := by
    refine List.find?_congr fun j hj => ?_
    rw [hdrop] at hj
    have hle : i ≤ j := by
      rcases List.mem_cons.1 hj with rfl | hj
      · exact Nat.le_refl _
      · exact Nat.le_of_lt (List.rel_of_pairwise_cons hbehind hj)
    rw [decide_eq_true hle, Bool.true_and]
  rw [← hfrom, ← Option.none_or (o := (l.drop k).find? _), ← hnone, ← List.find?_append,
    List.take_append_drop]

theorem Node.eq_label {node : Node} {l : Label} (h : node.label? = some l) : node = .label l := by
  cases node with
  | label l' => exact congrArg Node.label (Option.some.inj h)
  | line | insn => cases h

namespace Method

variable {m : Method} {pattern : List Predicate} {l : Label} {i j k : Nat}

/-! ## 1. Labels by position -/

theorem getElem?_of_labelPosition? (h : m.labelPosition? l = some i) :
    m.nodes[i]? = some (.label l) := by
  obtain ⟨hlt, hnode, -⟩ := Array.findIdx?_eq_some_iff_getElem.1 h
  rw [Array.getElem?_eq_getElem hlt, beq_iff_eq.1 hnode]

/-- A label that is placed once is found where it is placed. -/
theorem labelPosition?_eq_some_of_count (once : m.placedLabels.count l ≤ 1) :
    m.labelPosition? l = some i ↔ m.nodes[i]? = some (.label l) := by
  refine ⟨getElem?_of_labelPosition?, fun hi => ?_⟩
  obtain ⟨hlt, hnode⟩ := Array.getElem?_eq_some_iff.1 hi
  have hplaced : (m.nodes[i] == Node.label l) = true := by rw [hnode, beq_self_eq_true]
  refine Array.findIdx?_eq_some_iff_getElem.2 ⟨hlt, hplaced, fun j hj hlabel => ?_⟩
  have hbefore : m.nodes[j]? = some (.label l) := by
    rw [Array.getElem?_eq_getElem (Nat.lt_trans hj hlt), beq_iff_eq.1 hlabel]
  -- a second place before the first would place the label twice
  have hpair := pair_sublist hj (a := Node.label l) (b := Node.label l)
    (by rw [Array.getElem?_toList, hbefore]) (by rw [Array.getElem?_toList, hi])
  have htwice : List.Sublist [l, l] m.placedLabels := hpair.filterMap Node.label?
  have hcount := htwice.count_le l
  rw [List.count_cons_self, List.count_cons_self] at hcount
  omega

theorem labelPosition?_eq_some (distinct : m.LabelsDistinct) :
    m.labelPosition? l = some i ↔ m.nodes[i]? = some (.label l) :=
  labelPosition?_eq_some_of_count (List.nodup_iff_count_le_one.1 distinct l)

theorem exists_labelPosition? (distinct : m.LabelsDistinct) (h : l ∈ m.placedLabels) :
    ∃ i, m.labelPosition? l = some i := by
  obtain ⟨node, hnode, hlabel⟩ := List.mem_filterMap.1 h
  obtain ⟨i, hi⟩ := List.mem_iff_getElem?.1 hnode
  rw [Array.getElem?_toList, Node.eq_label hlabel] at hi
  exact ⟨i, (labelPosition?_eq_some distinct).2 hi⟩

/-! ## 2. What remains -/

/-- Whether the node at a position belongs to an occurrence of a pattern. -/
def covered (m : Method) (pattern : List Predicate) (i : Nat) : Bool :=
  (m.matches pattern).any fun f => f.nodes.contains i

/-- The positions of the nodes that removal leaves: those of no occurrence, and those of labels that
    what is left refers to. -/
def remaining (m : Method) (pattern : List Predicate) : List Nat :=
  (List.range m.nodes.size).filter fun i =>
    !m.covered pattern i ||
      (m.nodes[i]?.bind Node.label?).any fun l => (m.remove pattern).2.references.contains l

theorem covered_eq_true : m.covered pattern i = true ↔ ∃ f ∈ m.matches pattern, i ∈ f.nodes := by
  simp [covered]

theorem covered_eq_false :
    m.covered pattern i = false ↔ ∀ f ∈ m.matches pattern, i ∉ f.nodes := by
  rw [← Bool.not_eq_true, covered_eq_true]
  push Not
  rfl

theorem mem_remaining : i ∈ m.remaining pattern ↔ ∃ node, m.nodes[i]? = some node ∧
    ((∀ f ∈ m.matches pattern, i ∉ f.nodes) ∨
      ∃ l, node = .label l ∧ l ∈ (m.remove pattern).2.references) := by
  rw [remaining, List.mem_filter, List.mem_range, Bool.or_eq_true, Bool.not_eq_true',
    covered_eq_false]
  constructor
  · rintro ⟨hlt, hstays⟩
    have hnode := Array.getElem?_eq_getElem hlt
    refine ⟨_, hnode, hstays.imp_right fun hlabel => ?_⟩
    rw [hnode, Option.bind_some, Option.any_eq_true] at hlabel
    obtain ⟨l, hl, hreferred⟩ := hlabel
    exact ⟨l, Node.eq_label hl, List.contains_iff_mem.1 hreferred⟩
  · rintro ⟨node, hnode, hstays⟩
    refine ⟨(Array.getElem?_eq_some_iff.1 hnode).1, hstays.imp_right ?_⟩
    rintro ⟨l, rfl, hl⟩
    rw [hnode]
    exact List.contains_iff_mem.2 hl

theorem pairwise_remaining : (m.remaining pattern).Pairwise (· < ·) :=
  List.pairwise_lt_range.filter _

/-- The nodes of a method, marked where they belong to an occurrence. -/
theorem zip_coveredBy : m.nodes.toList.zip (coveredBy m.nodes.size (m.matches pattern)).toList =
    (List.range m.nodes.size).map fun i => (m.nodes[i]?.getD default, m.covered pattern i) := by
  refine List.ext_getElem? fun k => ?_
  by_cases hk : k < m.nodes.size
  · obtain ⟨mark, hmark, hcovered⟩ := exists_mark (m.matches pattern) (Array.getElem?_eq_getElem hk)
    have heq : mark = m.covered pattern k := by
      cases mark with
      | true => exact (covered_eq_true.2 (hcovered rfl)).symm
      | false =>
        refine (Bool.eq_false_iff.2 fun htrue => ?_).symm
        obtain ⟨f, hf, hmem⟩ := covered_eq_true.1 htrue
        obtain ⟨-, hmark⟩ := List.getElem?_zip_eq_some.1 hmark
        rw [Array.getElem?_toList, coveredBy_of_mem hf hmem hk] at hmark
        cases hmark
    rw [hmark, List.getElem?_map, List.getElem?_range hk, Option.map_some,
      Array.getElem?_eq_getElem hk, Option.getD_some, heq]
  · rw [List.getElem?_eq_none (by simpa [size_coveredBy] using hk),
      List.getElem?_eq_none (by simpa using hk)]

/-- The nodes that are left are those that are not marked and the labels that are referred to. -/
theorem toList_remove (hsome : ¬ (m.matches pattern).isEmpty) :
    (m.remove pattern).2.nodes.toList =
      ((m.nodes.toList.zip (coveredBy m.nodes.size (m.matches pattern)).toList).filter fun e =>
        !e.2 || e.1.label?.any fun l => (m.remove pattern).2.references.contains l).map Prod.fst := by
  have hreferred := fun l => mem_references_remove hsome (l := l)
  generalize (m.remove pattern).2.references = referred at hreferred ⊢
  rw [Method.remove, if_neg hsome] at hreferred ⊢
  simp only [allLocals] at hreferred
  simp only
  refine congrArg (List.map Prod.fst) (List.filter_congr ?_)
  rintro ⟨node, gone⟩ -
  cases node with
  | label l =>
    rw [Node.label?, Option.any_some, Bool.eq_iff_iff, Bool.or_eq_true, Bool.or_eq_true,
      Std.HashSet.contains_ofList, List.contains_iff_mem, List.contains_iff_mem, hreferred]
  | line | insn => exact (Bool.or_false _).symm

/-- **The nodes that are left** are those at the remaining positions. -/
theorem getElem?_remove :
    (m.remove pattern).2.nodes[k]? = (m.remaining pattern)[k]?.bind fun i => m.nodes[i]? := by
  by_cases hnone : (m.matches pattern).isEmpty
  · have hall : m.remaining pattern = List.range m.nodes.size := by
      refine List.filter_eq_self.2 fun i _ => ?_
      rw [covered, List.isEmpty_iff.1 hnone]
      rfl
    rw [hall, Method.remove, if_pos hnone]
    by_cases hk : k < m.nodes.size
    · rw [List.getElem?_range hk, Option.bind_some]
    · rw [List.getElem?_eq_none (by simpa using hk), Option.bind_none,
        Array.getElem?_eq_none (Nat.le_of_not_lt hk)]
  · have hnodes : (m.remove pattern).2.nodes.toList =
        (m.remaining pattern).map fun i => m.nodes[i]?.getD default := by
      rw [toList_remove hnone, zip_coveredBy, List.filter_map, List.map_map, remaining]
      refine congrArg (List.map _) (List.filter_congr fun i hi => ?_)
      rw [Function.comp_apply, Array.getElem?_eq_getElem (List.mem_range.1 hi)]
      rfl
    rw [← Array.getElem?_toList, hnodes, List.getElem?_map]
    cases hk : (m.remaining pattern)[k]? with
    | none => rfl
    | some i =>
      obtain ⟨node, hnode, -⟩ := mem_remaining.1 (List.mem_of_getElem? hk)
      rw [Option.map_some, Option.bind_some, hnode, Option.getD_some]

/-- A node that is left has an old position. -/
theorem exists_remaining {node : Node} (h : (m.remove pattern).2.nodes[k]? = some node) :
    ∃ i, (m.remaining pattern)[k]? = some i ∧ m.nodes[i]? = some node :=
  Option.bind_eq_some_iff.1 (getElem?_remove.symm.trans h)

/-- What remains is a node before and after. -/
theorem exists_node (h : (m.remaining pattern)[k]? = some i) :
    ∃ node, m.nodes[i]? = some node ∧ (m.remove pattern).2.nodes[k]? = some node := by
  obtain ⟨node, hnode, -⟩ := mem_remaining.1 (List.mem_of_getElem? h)
  exact ⟨node, hnode, by rw [getElem?_remove, h, Option.bind_some, hnode]⟩

theorem getElem?_remaining_eq_none (h : (m.remove pattern).2.nodes.size ≤ k) :
    (m.remaining pattern)[k]? = none := by
  refine Option.eq_none_iff_forall_ne_some.2 fun i hi => ?_
  obtain ⟨node, -, hnode⟩ := exists_node hi
  rw [Array.getElem?_eq_none h] at hnode
  cases hnode

/-! ## 3. The order of what remains -/

/-- **Removal keeps the order** of the nodes it leaves. -/
theorem remaining_lt_iff {k' i' : Nat} (h : (m.remaining pattern)[k]? = some i)
    (h' : (m.remaining pattern)[k']? = some i') : k < k' ↔ i < i' :=
  getElem?_lt_iff pairwise_remaining h h'

theorem labelsDistinct_remove (distinct : m.LabelsDistinct) :
    (m.remove pattern).2.LabelsDistinct :=
  distinct.sublist placedLabels_remove

/-- A label that is left stood at the old position of its node. -/
theorem labelPosition?_of_remove (distinct : m.LabelsDistinct)
    (h : (m.remove pattern).2.labelPosition? l = some k) :
    ∃ i, (m.remaining pattern)[k]? = some i ∧ m.labelPosition? l = some i := by
  obtain ⟨i, hi, hnode⟩ := exists_remaining (getElem?_of_labelPosition? h)
  exact ⟨i, hi, (labelPosition?_eq_some distinct).2 hnode⟩

/-- **A label that is referred to stays** where it was among the nodes that are left. -/
theorem labelPosition?_remove (distinct : m.LabelsDistinct)
    (hreferred : l ∈ (m.remove pattern).2.references) (h : m.labelPosition? l = some i) :
    ∃ k, (m.remove pattern).2.labelPosition? l = some k ∧ (m.remaining pattern)[k]? = some i := by
  have hnode := getElem?_of_labelPosition? h
  obtain ⟨k, hk⟩ := List.mem_iff_getElem?.1
    (mem_remaining.2 ⟨_, hnode, .inr ⟨l, rfl, hreferred⟩⟩ : i ∈ m.remaining pattern)
  obtain ⟨node, hold, hnew⟩ := exists_node hk
  cases hnode.symm.trans hold
  exact ⟨k, (labelPosition?_eq_some (labelsDistinct_remove distinct)).2 hnew, hk⟩

/-- The next instruction after a removal is the first one that remains from there on. -/
theorem getElem?_skipMarkers :
    (m.remaining pattern)[skipMarkers (m.remove pattern).2.nodes k]? =
      ((m.remaining pattern).drop k).find? m.holdsInsn := by
  fun_induction skipMarkers (m.remove pattern).2.nodes k with
  | case1 k hlt hmarker ih =>
    obtain ⟨i, hi, hnode⟩ := exists_remaining (Array.getElem?_eq_getElem hlt)
    obtain ⟨hlength, hget⟩ := List.getElem?_eq_some_iff.1 hi
    obtain ⟨hold, heq⟩ := Array.getElem?_eq_some_iff.1 hnode
    rw [ih, List.drop_eq_getElem_cons hlength, List.find?_cons_of_neg]
    rw [hget, holdsInsn_eq hold, heq, hmarker]
    exact Bool.false_ne_true
  | case2 k hlt hmarker =>
    obtain ⟨i, hi, hnode⟩ := exists_remaining (Array.getElem?_eq_getElem hlt)
    obtain ⟨hlength, hget⟩ := List.getElem?_eq_some_iff.1 hi
    obtain ⟨hold, heq⟩ := Array.getElem?_eq_some_iff.1 hnode
    rw [hi, List.drop_eq_getElem_cons hlength, List.find?_cons_of_pos, hget]
    rw [hget, holdsInsn_eq hold, heq, Bool.eq_false_iff.2 hmarker]
    rfl
  | case3 k hge =>
    rw [getElem?_remaining_eq_none (Nat.le_refl _), List.drop_eq_nil_of_le, List.find?_nil]
    exact List.getElem?_eq_none_iff.1 (getElem?_remaining_eq_none (Nat.le_of_not_lt hge))

/-! ## 4. Regions and records -/

/-- Whether an occurrence has a label, not behind its last instruction. -/
def startsIn (m : Method) (pattern : List Predicate) (l : Label) : Bool :=
  (m.matches pattern).any fun f => (f.labels m).contains l

/-- What is left of a method of which the occurrences of a pattern were deleted, also if its labels
    repeat: `m'`, made of the nodes at the positions `left`. -/
structure Deletes (m : Method) (pattern : List Predicate) (left : List Nat) (m' : Method) :
    Prop where
  /-- Nothing changes but the nodes, the tables that refer to labels, and the flag. -/
  same : m' = { m with
    nodes := m'.nodes, handlers := m'.handlers, locals := m'.locals, localTypes := m'.localTypes
    modified := true }
  /-- Regions and records go that start in an occurrence, not behind its last instruction. -/
  handlers : m'.handlers = m.handlers.filter fun h => !m.startsIn pattern h.start
  locals : m'.locals = m.locals.filter fun r => !m.startsIn pattern r.start
  localTypes : m'.localTypes = m.localTypes.filter fun r => !m.startsIn pattern r.start
  /-- Nodes stay that no occurrence takes, and labels that something left refers to. -/
  mem_left : ∀ i, i ∈ left ↔ ∃ node, m.nodes[i]? = some node ∧
    ((∀ f ∈ m.matches pattern, i ∉ f.nodes) ∨ ∃ l, node = .label l ∧ l ∈ m'.references)
  /-- They stay in their order. -/
  ascending : left.Pairwise (· < ·)
  nodes : ∀ k : Nat, m'.nodes[k]? = left[k]?.bind fun i => m.nodes[i]?

theorem contains_labels (l : Label) :
    (Std.HashSet.ofList ((m.matches pattern).flatMap (Match.labels m))).contains l =
      m.startsIn pattern l := by
  rw [Std.HashSet.contains_ofList, startsIn, Bool.eq_iff_iff, List.contains_iff_mem,
    List.mem_flatMap, List.any_eq_true]
  simp only [List.contains_iff_mem]

/-- **Removal deletes the occurrences of a pattern**, whatever the labels of the method. -/
theorem deletes_remove (hsome : ¬ (m.matches pattern).isEmpty) :
    m.Deletes pattern (m.remaining pattern) (m.remove pattern).2 where
  same := by rw [Method.remove, if_neg hsome]
  handlers := by rw [Method.remove, if_neg hsome]; simp only [contains_labels]
  locals := by rw [Method.remove, if_neg hsome]; simp only [contains_labels]
  localTypes := by rw [Method.remove, if_neg hsome]; simp only [contains_labels]
  mem_left _ := mem_remaining
  ascending := pairwise_remaining
  nodes _ := getElem?_remove

/-- Whether a label is placed in an occurrence, not behind its last instruction. -/
def opensIn (m : Method) (pattern : List Predicate) (l : Label) : Bool :=
  (m.labelPosition? l).any fun i => (m.matches pattern).any fun f => f.first ≤ i && i ≤ f.last

theorem startsIn_eq_opensIn (distinct : m.LabelsDistinct) :
    m.startsIn pattern l = m.opensIn pattern l := by
  rw [startsIn, opensIn, Bool.eq_iff_iff, List.any_eq_true, Option.any_eq_true]
  simp only [List.contains_iff_mem]
  constructor
  · rintro ⟨f, hf, hl⟩
    obtain ⟨i, hi, hlabel⟩ := List.mem_filterMap.1 hl
    obtain ⟨node, hnode, hlabel⟩ := Option.bind_eq_some_iff.1 hlabel
    rw [Node.eq_label hlabel] at hnode
    refine ⟨i, (labelPosition?_eq_some distinct).2 hnode, List.any_eq_true.2 ⟨f, hf, ?_⟩⟩
    have hrange := List.mem_range'_1.1 hi
    rw [Bool.and_eq_true, decide_eq_true_eq, decide_eq_true_eq]
    omega
  · rintro ⟨i, hi, hany⟩
    obtain ⟨f, hf, hbetween⟩ := List.any_eq_true.1 hany
    rw [Bool.and_eq_true, decide_eq_true_eq, decide_eq_true_eq] at hbetween
    refine ⟨f, hf, List.mem_filterMap.2 ⟨i, List.mem_range'_1.2 (by omega), ?_⟩⟩
    rw [getElem?_of_labelPosition? hi]
    rfl

theorem handlers_remove (distinct : m.LabelsDistinct) (hsome : ¬ (m.matches pattern).isEmpty) :
    (m.remove pattern).2.handlers = m.handlers.filter fun h => !m.opensIn pattern h.start := by
  rw [(deletes_remove hsome).handlers]
  simp only [startsIn_eq_opensIn distinct]

theorem locals_remove (distinct : m.LabelsDistinct) (hsome : ¬ (m.matches pattern).isEmpty) :
    (m.remove pattern).2.locals = m.locals.filter fun r => !m.opensIn pattern r.start := by
  rw [(deletes_remove hsome).locals]
  simp only [startsIn_eq_opensIn distinct]

theorem localTypes_remove (distinct : m.LabelsDistinct) (hsome : ¬ (m.matches pattern).isEmpty) :
    (m.remove pattern).2.localTypes = m.localTypes.filter fun r => !m.opensIn pattern r.start := by
  rw [(deletes_remove hsome).localTypes]
  simp only [startsIn_eq_opensIn distinct]

/-- Whether, of the nodes left at the positions `left`, those between two labels are still between
    them. -/
def KeepsRange (m m' : Method) (left : List Nat) (start stop : Label) : Prop :=
  ∀ first last, m.labelPosition? start = some first → m.labelPosition? stop = some last →
    ∃ first' last', m'.labelPosition? start = some first' ∧ m'.labelPosition? stop = some last' ∧
      ∀ k i, left[k]? = some i → (first' ≤ k ∧ k < last' ↔ first ≤ i ∧ i < last)

/-- **What lies between two labels** that are referred to stays between them. -/
theorem keepsRange_remove (distinct : m.LabelsDistinct) {start stop : Label}
    (hstart : start ∈ (m.remove pattern).2.references)
    (hstop : stop ∈ (m.remove pattern).2.references) :
    m.KeepsRange (m.remove pattern).2 (m.remaining pattern) start stop := by
  intro first last hfirst hlast
  obtain ⟨first', hfirst', hold⟩ := labelPosition?_remove distinct hstart hfirst
  obtain ⟨last', hlast', hold'⟩ := labelPosition?_remove distinct hstop hlast
  refine ⟨first', last', hfirst', hlast', fun k i hi => ?_⟩
  rw [← Nat.not_lt, remaining_lt_iff hi hold, Nat.not_lt, remaining_lt_iff hi hold']

/-- **A label leads** to the first instruction that is left of those behind it. -/
theorem landing?_remove (distinct : m.LabelsDistinct)
    (hplaced : l ∈ (m.remove pattern).2.placedLabels) :
    ((m.remove pattern).2.landing? l).bind (fun k => (m.remaining pattern)[k]?) =
      (m.labelPosition? l).bind fun i =>
        (m.remaining pattern).find? fun j => i ≤ j && m.holdsInsn j := by
  obtain ⟨k, hk⟩ := exists_labelPosition? (labelsDistinct_remove distinct) hplaced
  obtain ⟨i, hi, hold⟩ := labelPosition?_of_remove distinct hk
  have hlanding : ((m.remove pattern).2.landing? l).bind (fun k => (m.remaining pattern)[k]?) =
      (m.remaining pattern)[skipMarkers (m.remove pattern).2.nodes k]? := by
    rw [landing?, hk, Option.bind_eq_bind, Option.bind_some]
    simp only
    split
    · rfl
    · rename_i hge
      exact (getElem?_remaining_eq_none (Nat.le_of_not_lt hge)).symm
  rw [hlanding, getElem?_skipMarkers, hold, Option.bind_some, find?_from pairwise_remaining hi]

/-! ## 5. Removal as a whole -/

/-- What is left of a method of which the occurrences of a pattern were removed: `m'`, made of the
    nodes at the positions `left`. -/
structure Removes (m : Method) (pattern : List Predicate) (left : List Nat) (m' : Method) :
    Prop where
  /-- Nothing changes but the nodes, the tables that refer to labels, and the flag. -/
  same : m' = { m with
    nodes := m'.nodes, handlers := m'.handlers, locals := m'.locals, localTypes := m'.localTypes
    modified := true }
  /-- Regions and records go that start in an occurrence, not behind its last instruction. -/
  handlers : m'.handlers = m.handlers.filter fun h => !m.opensIn pattern h.start
  locals : m'.locals = m.locals.filter fun r => !m.opensIn pattern r.start
  localTypes : m'.localTypes = m.localTypes.filter fun r => !m.opensIn pattern r.start
  /-- Nodes stay that no occurrence takes, and labels that something left refers to. -/
  mem_left : ∀ i, i ∈ left ↔ ∃ node, m.nodes[i]? = some node ∧
    ((∀ f ∈ m.matches pattern, i ∉ f.nodes) ∨ ∃ l, node = .label l ∧ l ∈ m'.references)
  /-- They stay in their order. -/
  ascending : left.Pairwise (· < ·)
  nodes : ∀ k : Nat, m'.nodes[k]? = left[k]?.bind fun i => m.nodes[i]?
  /-- The regions and records that stay enclose what they enclosed of these nodes. -/
  regions : ∀ h ∈ m'.handlers, m.KeepsRange m' left h.start h.stop
  records : ∀ r ∈ m'.allLocals, m.KeepsRange m' left r.start r.stop
  /-- Labels lead to the first instruction that is left of those behind them. -/
  landings : ∀ l ∈ m'.placedLabels, (m'.landing? l).bind (fun k => left[k]?) =
    (m.labelPosition? l).bind fun i => left.find? fun j => i ≤ j && m.holdsInsn j

/-- **Removal deletes exactly the occurrences of a pattern**, the regions and records that start in
    one, and nothing else; where there is none, it changes nothing. -/
theorem removes_of_remove (distinct : m.LabelsDistinct) (pattern : List Predicate) :
    (m.matches pattern = [] → m.remove pattern = (false, m)) ∧
      (m.matches pattern ≠ [] → ∃ m', m.remove pattern = (true, m') ∧
        m.Removes pattern (m.remaining pattern) m') := by
  refine ⟨fun hnone => ?_, fun hne => ?_⟩
  · rw [remove, if_pos (List.isEmpty_iff.2 hnone)]
  · have hsome : ¬ (m.matches pattern).isEmpty := fun hempty => hne (List.isEmpty_iff.1 hempty)
    have hfound : (m.remove pattern).1 = true := by rw [remove, if_neg hsome]
    refine ⟨(m.remove pattern).2, by rw [← hfound], ?_⟩
    exact {
      same := by rw [remove, if_neg hsome]
      handlers := handlers_remove distinct hsome
      locals := locals_remove distinct hsome
      localTypes := localTypes_remove distinct hsome
      mem_left := fun i => mem_remaining
      ascending := pairwise_remaining
      nodes := fun k => getElem?_remove
      regions := fun h hh =>
        keepsRange_remove distinct (mem_references_of_handler hh (by simp))
          (mem_references_of_handler hh (by simp))
      records := fun r hr =>
        keepsRange_remove distinct (mem_references_of_record hr (by simp))
          (mem_references_of_record hr (by simp))
      landings := fun l hl => landing?_remove distinct hl }

end Method

/-- A copy that is dropped at once. One exception region starts in it, another one before it; both
    end at the label behind it. -/
def guardedCopy : Method where
  name := "f"
  descriptor := "()V"
  flags := staticFlag
  nodes := #[.label ⟨3⟩, .insn (.simple 0x03), .label ⟨0⟩, .insn (.simple Opcode.dup),
    .insn (.simple Opcode.pop), .label ⟨1⟩, .insn (.simple 0xb1), .label ⟨2⟩,
    .insn (.simple Opcode.athrow)]
  handlers := [⟨⟨0⟩, ⟨1⟩, ⟨2⟩, none⟩, ⟨⟨3⟩, ⟨1⟩, ⟨2⟩, none⟩]

namespace guardedCopy

def removed : Method :=
  { guardedCopy with
    nodes := #[.label ⟨3⟩, .insn (.simple 0x03), .label ⟨1⟩, .insn (.simple 0xb1), .label ⟨2⟩,
      .insn (.simple Opcode.athrow)]
    handlers := [⟨⟨3⟩, ⟨1⟩, ⟨2⟩, none⟩]
    modified := true }

theorem matches_eq :
    guardedCopy.matches [.opcode Opcode.dup, .opcode Opcode.pop] = [⟨2, 4, 6⟩] := by
  cbv

theorem remove_eq :
    guardedCopy.remove [.opcode Opcode.dup, .opcode Opcode.pop] = (true, removed) := by
  unfold Method.remove
  rw [matches_eq]
  simp [guardedCopy, removed, coveredBy, Match.nodes, Match.labels, referencedLabels,
    Node.targets, Insn.targets, List.range']
  decide

theorem remaining_eq :
    guardedCopy.remaining [.opcode Opcode.dup, .opcode Opcode.pop] = [0, 1, 5, 6, 7, 8] := by
  unfold Method.remaining Method.covered
  rw [matches_eq, remove_eq]
  decide

end guardedCopy

/-- The copy goes with the region that starts in it; the label behind it stays for the other
    region. -/
theorem Method.removes_of_remove_guardedCopy : guardedCopy.LabelsDistinct ∧
    guardedCopy.matches [.opcode Opcode.dup, .opcode Opcode.pop] = [⟨2, 4, 6⟩] ∧
    guardedCopy.remove [.opcode Opcode.dup, .opcode Opcode.pop] = (true, guardedCopy.removed) ∧
    guardedCopy.Removes [.opcode Opcode.dup, .opcode Opcode.pop] [0, 1, 5, 6, 7, 8]
      guardedCopy.removed := by
  have distinct : guardedCopy.LabelsDistinct := by
    unfold Method.LabelsDistinct
    decide
  obtain ⟨m', hremove, hremoves⟩ := (Method.removes_of_remove distinct
    [.opcode Opcode.dup, .opcode Opcode.pop]).2 (by rw [guardedCopy.matches_eq]; decide)
  rw [guardedCopy.remaining_eq] at hremoves
  cases guardedCopy.remove_eq.symm.trans hremove
  exact ⟨distinct, guardedCopy.matches_eq, guardedCopy.remove_eq, hremoves⟩

end Rewire
