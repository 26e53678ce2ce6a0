import Mathlib
import Rewire.Proofs.Code.Targets

/-!
# Where decoded nodes come from

The nodes of a decoded method are the instructions of the code that was read, each with its label and
its source lines before it. This file shows

* which offset a position among the nodes belongs to (`oldOffset`): that of the first instruction from
  there on, or the end of the code;
* what it means that nodes come from code that was scanned (`ComesFrom`), and that those of every
  decoded method do (`comesFrom_of_decode`);
* that offsets grow with positions, and strictly over instructions (`ComesFrom.mono`,
  `ComesFrom.lt_succ`), and that each start has an instruction (`ComesFrom.exists_insn`) and each
  label a position (`exists_position`);
* that an instruction ends where the next one starts, or the code ends (`next_of_scanCode`).
-/

namespace Rewire

/-! ## 1. Counting instructions -/

/-- The number of instructions before a position. -/
def insnsBefore (nodes : List Node) (k : Nat) : Nat :=
  ((nodes.take k).filterMap Node.insn?).length

/-- The offset that a position belongs to, in code with the given starts of instructions. -/
def oldOffset (starts : List Nat) (stop : Nat) (nodes : List Node) (k : Nat) : Nat :=
  (starts[insnsBefore nodes k]?).getD stop

/-- A position that belongs to an offset before the end belongs to a start. -/
theorem mem_starts_of_lt {starts : List Nat} {stop : Nat} {nodes : List Node} {k : Nat}
    (h : oldOffset starts stop nodes k < stop) : oldOffset starts stop nodes k ∈ starts := by
  unfold oldOffset at h ⊢
  cases hk : starts[insnsBefore nodes k]? with
  | none =>
    rw [hk] at h
    exact absurd h (Nat.lt_irrefl stop)
  | some n => exact List.mem_of_getElem? hk

section Counting

variable {nodes more : List Node} {node : Node} {j k q : Nat}

theorem insnsBefore_mono (hjk : j ≤ k) : insnsBefore nodes j ≤ insnsBefore nodes k :=
  ((List.take_sublist_take_left hjk).filterMap _).length_le

theorem insnsBefore_succ (hk : nodes[k]? = some node) :
    insnsBefore nodes (k + 1) = insnsBefore nodes k + node.insn?.toList.length := by
  unfold insnsBefore
  rw [List.take_add_one, hk, List.filterMap_append, List.length_append]
  cases node <;> rfl

theorem insnsBefore_append (k : Nat) : insnsBefore (nodes ++ more) (nodes.length + k) =
    (nodes.filterMap Node.insn?).length + insnsBefore more k := by
  unfold insnsBefore
  rw [List.take_length_add_append, List.filterMap_append, List.length_append]

/-- Each instruction has a position with as many before it. -/
theorem exists_insn_at (hq : q < (nodes.filterMap Node.insn?).length) :
    ∃ k i, nodes[k]? = some (.insn i) ∧ insnsBefore nodes k = q := by
  induction nodes generalizing q with
  | nil => exact absurd hq (Nat.not_lt_zero q)
  | cons node rest ih =>
    have hshift : ∀ k, insnsBefore (node :: rest) (k + 1) =
        node.insn?.toList.length + insnsBefore rest k := by
      intro k
      unfold insnsBefore
      rw [List.take_succ_cons, List.filterMap_cons]
      cases node.insn? with
      | none => exact (Nat.zero_add _).symm
      | some i => exact Nat.add_comm _ 1
    have hmarker : node.insn? = none → ∃ k i, (node :: rest)[k]? = some (.insn i) ∧
        insnsBefore (node :: rest) k = q := by
      intro hnone
      rw [List.filterMap_cons_none hnone] at hq
      obtain ⟨k, i, hk, hcount⟩ := ih hq
      refine ⟨k + 1, i, hk, ?_⟩
      rw [hshift, hnone, hcount]
      exact Nat.zero_add q
    cases node with
    | insn i =>
      cases q with
      | zero => exact ⟨0, i, rfl, rfl⟩
      | succ q =>
        obtain ⟨k, j, hk, hcount⟩ := ih (Nat.lt_of_succ_lt_succ hq)
        refine ⟨k + 1, j, hk, ?_⟩
        rw [hshift, hcount]
        exact Nat.add_comm 1 q
    | _ => exact hmarker rfl

theorem lt_of_ascending {l : List Nat} {a b : Nat} (h : l.Pairwise (· < ·)) (hjk : j < k)
    (hj : l[j]? = some a) (hk : l[k]? = some b) : a < b := by
  obtain ⟨hltj, rfl⟩ := List.getElem?_eq_some_iff.1 hj
  obtain ⟨hltk, rfl⟩ := List.getElem?_eq_some_iff.1 hk
  exact List.pairwise_iff_getElem.1 h j k hltj hltk hjk

end Counting

/-! ## 2. Nodes from code -/

/-- Whether a node comes from an offset of code: the instruction that is read there, or the label
    there. -/
def NodeAt (code : Array UInt8) (pool : ConstantPool) (labels : LabelTable) (n : Nat) :
    Node → Prop
  | .insn i => decodeInsn code pool labels n = .ok i
  | .label l => labels.at? n = some l
  | .line _ => True

/-- Whether nodes come from code that is cut at the given starts: one instruction from each, and each
    node from the offset its position belongs to. -/
structure ComesFrom (code : Array UInt8) (pool : ConstantPool) (labels : LabelTable)
    (starts : List Nat) (nodes : List Node) : Prop where
  ascending : (starts ++ [code.size]).Pairwise (· < ·)
  first : (starts ++ [code.size])[0]? = some 0
  count : (nodes.filterMap Node.insn?).length = starts.length
  nodeAt : ∀ k node, nodes[k]? = some node →
    NodeAt code pool labels (oldOffset starts code.size nodes k) node

namespace ComesFrom

variable {code : Array UInt8} {pool : ConstantPool} {labels : LabelTable} {starts : List Nat}
  {nodes : List Node} {j k n : Nat}

theorem insnsBefore_le (h : ComesFrom code pool labels starts nodes) (k : Nat) :
    insnsBefore nodes k ≤ starts.length :=
  h.count ▸ ((List.take_sublist k nodes).filterMap _).length_le

/-- The place of a position among the starts and the end. -/
theorem getElem?_places (h : ComesFrom code pool labels starts nodes) (k : Nat) :
    (starts ++ [code.size])[insnsBefore nodes k]? = some (oldOffset starts code.size nodes k) := by
  unfold oldOffset
  rcases Nat.lt_or_eq_of_le (h.insnsBefore_le k) with hlt | heq
  · rw [List.getElem?_append_left hlt, List.getElem?_eq_getElem hlt]
    rfl
  · rw [heq, List.getElem?_concat_length, List.getElem?_eq_none (Nat.le_refl _)]
    rfl

theorem oldOffset_zero (h : ComesFrom code pool labels starts nodes) :
    oldOffset starts code.size nodes 0 = 0 :=
  Option.some.inj ((h.getElem?_places 0).symm.trans h.first)

theorem oldOffset_length (h : ComesFrom code pool labels starts nodes) :
    oldOffset starts code.size nodes nodes.length = code.size := by
  have hcount : insnsBefore nodes nodes.length = starts.length := by
    rw [insnsBefore, List.take_length, h.count]
  have hplace := h.getElem?_places nodes.length
  rw [hcount, List.getElem?_concat_length] at hplace
  exact (Option.some.inj hplace).symm

/-- **Offsets grow with positions.** -/
theorem mono (h : ComesFrom code pool labels starts nodes) (hjk : j ≤ k) :
    oldOffset starts code.size nodes j ≤ oldOffset starts code.size nodes k := by
  have hle : insnsBefore nodes j ≤ insnsBefore nodes k := insnsBefore_mono hjk
  rcases Nat.lt_or_eq_of_le hle with hlt | heq
  · exact Nat.le_of_lt (lt_of_ascending h.ascending hlt (h.getElem?_places j) (h.getElem?_places k))
  · unfold oldOffset
    rw [heq]

/-- The place of an instruction is the start it comes from. -/
theorem getElem?_starts (h : ComesFrom code pool labels starts nodes) {i : Insn}
    (hk : nodes[k]? = some (.insn i)) :
    starts[insnsBefore nodes k]? = some (oldOffset starts code.size nodes k) := by
  have hlt : insnsBefore nodes k < starts.length := by
    have hsucc := h.insnsBefore_le (k + 1)
    rwa [insnsBefore_succ hk] at hsucc
  have hplace := h.getElem?_places k
  rwa [List.getElem?_append_left hlt] at hplace

/-- Over an instruction, offsets grow strictly. -/
theorem lt_succ (h : ComesFrom code pool labels starts nodes) {i : Insn}
    (hk : nodes[k]? = some (.insn i)) :
    oldOffset starts code.size nodes k < oldOffset starts code.size nodes (k + 1) := by
  refine lt_of_ascending h.ascending ?_ (h.getElem?_places k) (h.getElem?_places (k + 1))
  rw [insnsBefore_succ hk]
  exact Nat.lt_succ_self _

/-- **There is an instruction for each start.** -/
theorem exists_insn (h : ComesFrom code pool labels starts nodes) (hn : n ∈ starts) :
    ∃ k i, nodes[k]? = some (.insn i) ∧ oldOffset starts code.size nodes k = n := by
  obtain ⟨q, hq⟩ := List.mem_iff_getElem?.1 hn
  obtain ⟨k, i, hk, hcount⟩ := exists_insn_at (h.count ▸ (List.getElem?_eq_some_iff.1 hq).1)
  exact ⟨k, i, hk, Option.some.inj ((h.getElem?_starts hk).symm.trans (hcount ▸ hq))⟩

/-- What comes from a smaller offset stands before. -/
theorem lt_of_lt (h : ComesFrom code pool labels starts nodes)
    (hlt : oldOffset starts code.size nodes j < oldOffset starts code.size nodes k) : j < k := by
  by_contra hge
  exact absurd (h.mono (Nat.le_of_not_lt hge)) (Nat.not_le.2 hlt)

/-- What comes from no greater offset than an instruction stands before it or is it. -/
theorem le_of_le (h : ComesFrom code pool labels starts nodes) {i : Insn}
    (hk : nodes[k]? = some (.insn i))
    (hle : oldOffset starts code.size nodes j ≤ oldOffset starts code.size nodes k) : j ≤ k := by
  by_contra hgt
  exact absurd (h.mono (Nat.lt_of_not_le hgt)) (Nat.not_le.2 (Nat.lt_of_le_of_lt hle (h.lt_succ hk)))

/-- What stands behind an instruction comes from a greater offset, and nothing else does. -/
theorem lt_iff (h : ComesFrom code pool labels starts nodes) {i : Insn}
    (hk : nodes[k]? = some (.insn i)) :
    k < j ↔ oldOffset starts code.size nodes k < oldOffset starts code.size nodes j := by
  rw [← Nat.not_le, ← Nat.not_le, not_iff_not]
  exact ⟨h.mono, h.le_of_le hk⟩

end ComesFrom

/-! ## 3. Decoded methods -/

section Decoded

variable {parts : CodeParts} {pool : ConstantPool} {labels : LabelTable}

/-- The nodes at an offset are markers and the instruction there. -/
theorem nodeAt_of_nodesAt {lines : Std.HashMap Nat (List UInt16)} {n : Nat} {chunk : List Node}
    (h : nodesAt parts pool labels lines n = .ok chunk) :
    ∃ markers i, chunk = markers ++ [.insn i] ∧ markers.filterMap Node.insn? = [] ∧
      ∀ node ∈ chunk, NodeAt parts.code pool labels n node := by
  obtain ⟨i, hi, h⟩ := bind_eq_ok.1 h
  cases h
  refine ⟨_, i, rfl, ?_, fun node hnode => ?_⟩
  · rw [List.filterMap_eq_nil_iff]
    intro node hnode
    rcases List.mem_append.1 hnode with hnode | hnode
    all_goals
      obtain ⟨_, -, rfl⟩ := List.mem_map.1 hnode
      rfl
  · rcases List.mem_append.1 hnode with hnode | hnode
    · rcases List.mem_append.1 hnode with hnode | hnode
      · obtain ⟨l, hl, rfl⟩ := List.mem_map.1 hnode
        exact Option.mem_toList.1 hl
      · obtain ⟨number, -, rfl⟩ := List.mem_map.1 hnode
        trivial
    · rw [List.mem_singleton.1 hnode]
      exact during_eq_ok.1 hi

/-- The nodes of instructions come from their starts. -/
theorem nodeAt_of_chunks {lines : Std.HashMap Nat (List UInt16)} {starts : List Nat}
    {chunks : List (List Node)} (stop : Nat)
    (h : List.Forall₂ (fun n chunk => nodesAt parts pool labels lines n = .ok chunk) starts chunks) :
    (chunks.flatten.filterMap Node.insn?).length = starts.length ∧
      ∀ k node, chunks.flatten[k]? = some node →
        NodeAt parts.code pool labels (oldOffset starts stop chunks.flatten k) node := by
  induction h with
  | nil => exact ⟨rfl, fun k node hk => by cases hk⟩
  | @cons n chunk starts chunks hchunk _ ih =>
    obtain ⟨hcount, hnodes⟩ := ih
    obtain ⟨markers, i, rfl, hmarkers, hat⟩ := nodeAt_of_nodesAt hchunk
    have hone : ((markers ++ [Node.insn i]).filterMap Node.insn?).length = 1 := by
      rw [List.filterMap_append, hmarkers]
      rfl
    rw [List.flatten_cons]
    refine ⟨?_, fun k node hk => ?_⟩
    · rw [List.filterMap_append, List.length_append, hone, hcount, List.length_cons, Nat.add_comm]
    · rcases Nat.lt_or_ge k (markers ++ [Node.insn i]).length with hlt | hge
      · have hnone : insnsBefore ((markers ++ [.insn i]) ++ chunks.flatten) k = 0 := by
          have hle : k ≤ markers.length := by
            rw [List.length_append] at hlt
            exact Nat.le_of_lt_succ hlt
          have hsub := (List.take_sublist k markers).filterMap Node.insn?
          rw [hmarkers, List.sublist_nil] at hsub
          rw [insnsBefore, List.append_assoc, List.take_append_of_le_length hle, hsub]
          rfl
        rw [List.getElem?_append_left hlt] at hk
        unfold oldOffset
        rw [hnone]
        exact hat node (List.mem_of_getElem? hk)
      · obtain ⟨k', rfl⟩ := Nat.exists_eq_add_of_le hge
        rw [List.getElem?_append_right hge, Nat.add_sub_cancel_left] at hk
        have hnode := hnodes k' node hk
        unfold oldOffset at hnode ⊢
        rwa [insnsBefore_append, hone, Nat.add_comm, List.getElem?_cons_succ]

/-- **Instructions follow one another.** A scan begins with an instruction where it is told to, or at
    the end of the code, and where an instruction ends the next one starts, or the code ends. -/
theorem next_of_scanFrom {code : Array UInt8} {a : Nat} {found scan : CodeScan} (ha : a ≤ code.size)
    (h : scanFrom code a found = .ok scan) :
    ∃ starts, scan.starts.toList = found.starts.toList ++ starts ∧
      (starts ++ [code.size])[0]? = some a ∧ ∀ q n, starts[q]? = some n →
        ∃ length, insnLength code n = .ok length ∧
          (starts ++ [code.size])[q + 1]? = some (n + length) := by
  fun_induction scanFrom code a found with
  | case1 a found hlt ih =>
    obtain ⟨length, hinsn, h⟩ := bind_eq_ok.1 h
    split at h
    · cases h
    · rename_i hlength
      obtain ⟨targets, -, h⟩ := bind_eq_ok.1 h
      obtain ⟨starts, hstarts, hfirst, hnext⟩ := ih length hlength targets (by omega) h
      refine ⟨a :: starts, by rw [hstarts]; simp, rfl, fun q n hn => ?_⟩
      cases q with
      | zero =>
        cases hn
        exact ⟨length, hinsn, hfirst⟩
      | succ q => exact hnext q n hn
  | case2 a found hge =>
    cases h
    exact ⟨[], (List.append_nil _).symm, congrArg some (by omega), fun q n hn => by cases hn⟩

theorem next_of_scanCode {code : Array UInt8} {scan : CodeScan} (h : scanCode code = .ok scan) :
    (scan.starts.toList ++ [code.size])[0]? = some 0 ∧ ∀ q n, scan.starts.toList[q]? = some n →
      ∃ length, insnLength code n = .ok length ∧
        (scan.starts.toList ++ [code.size])[q + 1]? = some (n + length) := by
  obtain ⟨starts, hstarts, hnext⟩ := next_of_scanFrom (Nat.zero_le _) h
  rw [hstarts]
  exact hnext

end Decoded

section Methods

variable {pool : ConstantPool} {blank m : Method} {body : Bytes} {parts : CodeParts}
  {scan : CodeScan} {o : CodeOrigin}

/-- **The nodes of a decoded method** come from the code that was read. -/
theorem comesFrom_of_decode (h : decodeMethod pool blank body = .ok m)
    (hread : CodeParts.read pool body = .ok parts) (hscan : scanCode parts.code = .ok scan)
    (ho : m.origin = some o) :
    ComesFrom parts.code pool (labelTable o.labelOffsets) scan.starts.toList m.nodes.toList := by
  obtain ⟨parts', scan', offsets, chunks, handlers, locals, localTypes, hread', hscan', hoffsets,
    hnodes, -, -, -, rfl⟩ := decodeMethod_eq_ok.1 h
  cases hread.symm.trans hread'
  cases hscan.symm.trans hscan'
  cases ho
  obtain ⟨hcount, hat⟩ := nodeAt_of_chunks parts.code.size (mapM_eq_ok.1 hnodes)
  have hend : ∀ ls : List Label, (ls.map Node.label).filterMap Node.insn? = [] := fun ls => by
    rw [List.filterMap_map, List.filterMap_eq_nil_iff]
    exact fun _ _ => rfl
  refine ⟨ascending_labelPlaces hscan, (next_of_scanCode hscan).1, ?_, fun k node hk => ?_⟩
  · rw [List.toList_toArray, List.filterMap_append, hend, List.append_nil, hcount]
  · rw [List.toList_toArray] at hk ⊢
    rcases Nat.lt_or_ge k chunks.flatten.length with hlt | hge
    · rw [List.getElem?_append_left hlt] at hk
      have hnode := hat k node hk
      unfold oldOffset insnsBefore at hnode ⊢
      rwa [List.take_append_of_le_length (Nat.le_of_lt hlt)]
    · obtain ⟨k', rfl⟩ := Nat.exists_eq_add_of_le hge
      rw [List.getElem?_append_right hge, Nat.add_sub_cancel_left] at hk
      obtain ⟨l, hl, rfl⟩ := List.mem_map.1 (List.mem_of_getElem? hk)
      show (labelTable _).at? _ = some l
      unfold oldOffset
      rw [insnsBefore_append, insnsBefore, ← List.map_take, hend, hcount, List.length_nil,
        Nat.add_zero, List.getElem?_eq_none (Nat.le_refl _)]
      exact Option.mem_toList.1 hl

/-- The labels of a decoded method are numbered by their offsets. -/
theorem labelOffsets_of_decode (h : decodeMethod pool blank body = .ok m) (ho : m.origin = some o) :
    ∃ offsets, o.labelOffsets = numberLabels offsets ∧ offsets.Nodup ∧
      m.nextLabel.toNat = offsets.length := by
  obtain ⟨parts, scan, offsets, nodes, handlers, locals, localTypes, hread, hscan, hoffsets, -, -, -,
    -, rfl⟩ := decodeMethod_eq_ok.1 h
  cases ho
  exact ⟨offsets, rfl, nodup_labelledOffsets hscan hoffsets,
    length_labelledOffsets hread hscan hoffsets⟩

/-- **A label of a decoded method** is placed where it was read. -/
theorem exists_position (h : decodeMethod pool blank body = .ok m)
    (hread : CodeParts.read pool body = .ok parts) (hscan : scanCode parts.code = .ok scan)
    (ho : m.origin = some o) {l : Label} {n : Nat} (hl : (l, n) ∈ o.labelOffsets) :
    ∃ k, m.nodes.toList[k]? = some (.label l) ∧
      oldOffset scan.starts.toList parts.code.size m.nodes.toList k = n := by
  have comes := comesFrom_of_decode h hread hscan ho
  obtain ⟨offsets, hlabels, nodup, hnext⟩ := labelOffsets_of_decode h ho
  rw [hlabels] at comes hl
  have hoffset := mem_numberLabels.1 hl
  have hmem : l ∈ m.placedLabels := by
    rw [placedLabels_of_decode h, hnext]
    exact List.mem_map.2 ⟨l.id, List.mem_range.2 (List.getElem?_eq_some_iff.1 hoffset).1, rfl⟩
  obtain ⟨node, hnode, hlabel⟩ := List.mem_filterMap.1 hmem
  cases node with
  | label l' =>
    cases hlabel
    obtain ⟨k, hk⟩ := List.mem_iff_getElem?.1 hnode
    refine ⟨k, hk, ?_⟩
    have hat := mem_of_at? nodup (comes.nodeAt k _ hk)
    exact Option.some.inj ((mem_numberLabels.1 hat).symm.trans hoffset)
  | insn | line => cases hlabel

end Methods

end Rewire
