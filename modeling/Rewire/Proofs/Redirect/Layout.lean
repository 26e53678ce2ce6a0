import Mathlib
import Rewire.Proofs.Code.Widening
import Rewire.Proofs.Code.Origins
import Rewire.Proofs.Redirect.Calls

/-!
# Where redirected code is

A redirected method is laid out as what is left of its nodes, one treatment after another. This file
shows

* where what is left of the nodes from a position on begins (`Layout.newOffset`). These offsets grow
  with positions (`Treated.mono`), and labels are at theirs (`Treated.offsetOf?_label`);
* that an instruction which stays is laid out at its new offset (`Treated.placed_of_keep`), and that
  one of which no room is left was a watched call that an empty stub replaced
  (`Treated.emptyStub_of_eq`);
* where a label of code that was read is after redirection (`Redirected.newOffset_of_label`).
-/

namespace Rewire

/-! ## 1. What is left of nodes -/

/-- The offset of what is left of the nodes from a position on. -/
def Layout.newOffset (l : Layout) (ts : List Treatment) (k : Nat) : Nat :=
  offsetAt l.offsets ((ts.take k).flatMap Treatment.nodes).length

/-- Whether a layout is that of nodes after their treatment. -/
structure Treated (table : RedirectTable) (filter : CallFilter) (nodes : List Node)
    (ts : List Treatment) (l : Layout) : Prop where
  treats : List.Forall₂ (fun node t => treat table filter node = .ok t) nodes ts
  consistent : l.Consistent
  left : l.pieces.map Piece.node = ts.flatMap Treatment.nodes
  position : ∀ label k, l.positions[label]? = some k ↔
    (ts.flatMap Treatment.nodes)[k]? = some (Node.label label)

/-- **A redirected method is laid out** as its nodes after their treatment. -/
theorem treated_of_layOut {className : String} {table : RedirectTable} {filter : CallFilter}
    {m : Method} {summary : RedirectSummary} {p q : ConstantPool} {l : Layout}
    (h : (redirectCalls className table filter m).result = .ok summary)
    (hl : layOut (redirectCalls className table filter m).method p = (.ok l, q)) :
    ∃ ts, Treated table filter m.nodes.toList ts l := by
  obtain ⟨ts, hall, hmethod⟩ := treats_of_redirectCalls h
  have hof := isOf_of_layOut hl
  rw [hmethod] at hof
  exact ⟨ts, hall, hof.consistent, hof.nodes, fun label k =>
    (hof.position label k).trans (by rw [List.getElem?_toArray])⟩

namespace Treated

variable {table : RedirectTable} {filter : CallFilter} {nodes : List Node} {ts : List Treatment}
  {l : Layout} {j k : Nat} {node : Node} {t : Treatment}

theorem length_eq (h : Treated table filter nodes ts l) : ts.length = nodes.length :=
  h.treats.length_eq.symm

/-- The treatment of a node. -/
theorem exists_treatment (h : Treated table filter nodes ts l) (hk : nodes[k]? = some node) :
    ∃ t, ts[k]? = some t ∧ treat table filter node = .ok t := by
  obtain ⟨t, ht, hat⟩ := getElem?_of_forall₂ h.treats hk
  exact ⟨t, ht, hat⟩

theorem length_take_le (h : Treated table filter nodes ts l) (k : Nat) :
    ((ts.take k).flatMap Treatment.nodes).length ≤ l.pieces.length := by
  rw [← List.length_map (f := Piece.node), h.left]
  exact ((List.take_sublist k ts).flatMap Treatment.nodes).length_le

theorem newOffset_eq (h : Treated table filter nodes ts l) (k : Nat) :
    l.newOffset ts k =
      endFrom 0 (l.pieces.take ((ts.take k).flatMap Treatment.nodes).length) :=
  h.consistent.offsetAt_eq (h.length_take_le k)

theorem newOffset_zero (h : Treated table filter nodes ts l) : l.newOffset ts 0 = 0 := by
  rw [h.newOffset_eq]
  rfl

theorem newOffset_length (h : Treated table filter nodes ts l) :
    l.newOffset ts nodes.length = l.codeLength := by
  rw [h.newOffset_eq, h.consistent.codeLength_eq, ← h.length_eq, List.take_length, ← h.left,
    List.length_map, List.take_length]

/-- **New offsets grow with positions.** -/
theorem mono (h : Treated table filter nodes ts l) (hjk : j ≤ k) :
    l.newOffset ts j ≤ l.newOffset ts k := by
  refine h.consistent.offsetAt_mono ?_ (h.length_take_le k)
  exact ((List.take_sublist_take_left hjk).flatMap Treatment.nodes).length_le

/-- What is left of a node stands between what is left of those before and after it. -/
theorem split_at (hk : ts[k]? = some t) : ts.flatMap Treatment.nodes =
    (ts.take k).flatMap Treatment.nodes ++ (t.nodes ++ (ts.drop (k + 1)).flatMap Treatment.nodes) := by
  obtain ⟨hlt, rfl⟩ := List.getElem?_eq_some_iff.1 hk
  rw [← List.flatMap_cons, ← List.drop_eq_getElem_cons hlt, ← List.flatMap_append,
    List.take_append_drop]

/-- What is left of a node takes the room from its new offset to that of the next one. -/
theorem newOffset_succ (h : Treated table filter nodes ts l) (hk : ts[k]? = some t) :
    ∃ pieces, pieces.map Piece.node = t.nodes ∧
      l.newOffset ts (k + 1) = endFrom (l.newOffset ts k) pieces := by
  have hnext : ((ts.take (k + 1)).flatMap Treatment.nodes).length =
      ((ts.take k).flatMap Treatment.nodes).length + t.nodes.length := by
    rw [List.take_add_one, hk, List.flatMap_append, List.length_append]
    simp
  refine ⟨(l.pieces.drop ((ts.take k).flatMap Treatment.nodes).length).take t.nodes.length, ?_, ?_⟩
  · rw [List.map_take, List.map_drop, h.left, split_at hk, List.drop_left, List.take_left]
  · rw [h.newOffset_eq, h.newOffset_eq, hnext, List.take_add, endFrom_append]

/-- **A label is at its new offset.** -/
theorem offsetOf?_label {label : Label} (h : Treated table filter nodes ts l)
    (hk : nodes[k]? = some (.label label)) : l.offsetOf? label = some (l.newOffset ts k) := by
  obtain ⟨t, ht, htreat⟩ := h.exists_treatment hk
  cases htreat
  have hposition := (h.position label ((ts.take k).flatMap Treatment.nodes).length).2 (by
    rw [split_at ht, List.getElem?_append_right (Nat.le_refl _), Nat.sub_self]
    rfl)
  rw [Layout.offsetOf?, hposition]
  rfl

/-- **An instruction that stays** is laid out at its new offset. -/
theorem placed_of_keep {i : Insn} (h : Treated table filter nodes ts l)
    (hk : nodes[k]? = some (.insn i))
    (htreat : treat table filter (.insn i) = .ok (.keep (.insn i))) :
    ∃ p, p.node = .insn i ∧ (p, l.newOffset ts k) ∈ l.placed := by
  obtain ⟨t, ht, htreat'⟩ := h.exists_treatment hk
  cases htreat.symm.trans htreat'
  have hnode : (l.pieces.map Piece.node)[((ts.take k).flatMap Treatment.nodes).length]? =
      some (.insn i) := by
    rw [h.left, split_at ht, List.getElem?_append_right (Nat.le_refl _), Nat.sub_self]
    rfl
  rw [List.getElem?_map] at hnode
  obtain ⟨p, hp, hnode⟩ := Option.map_eq_some_iff.1 hnode
  refine ⟨p, hnode, ?_⟩
  obtain ⟨hlt, rfl⟩ := List.getElem?_eq_some_iff.1 hp
  rw [h.consistent.placed_eq, h.newOffset_eq]
  exact mem_placedFrom.2 ⟨_, _, (List.take_append_drop _ _).symm.trans
    (congrArg _ (List.drop_eq_getElem_cons hlt)), rfl⟩

/-- Where new offsets do not grow, no instruction is left. -/
theorem no_insn_of_eq (h : Treated table filter nodes ts l) (hk : ts[k]? = some t)
    (heq : l.newOffset ts k = l.newOffset ts (k + 1)) (i : Insn) : .insn i ∉ t.nodes := by
  obtain ⟨pieces, hpieces, hnext⟩ := h.newOffset_succ hk
  have hmarkers := isMarker_of_endFrom_eq (hnext.symm.trans heq.symm)
  rw [← hpieces]
  intro hi
  obtain ⟨p, hp, hnode⟩ := List.mem_map.1 hi
  have hmarker := hmarkers p hp
  rw [hnode] at hmarker
  cases hmarker

/-- Over an instruction that stays, new offsets grow strictly. -/
theorem lt_succ_of_keep {i : Insn} (h : Treated table filter nodes ts l)
    (hk : nodes[k]? = some (.insn i))
    (htreat : treat table filter (.insn i) = .ok (.keep (.insn i))) :
    l.newOffset ts k < l.newOffset ts (k + 1) := by
  obtain ⟨t, ht, htreat'⟩ := h.exists_treatment hk
  cases htreat.symm.trans htreat'
  exact Nat.lt_of_le_of_ne (h.mono (Nat.le_succ k)) fun heq =>
    h.no_insn_of_eq ht heq i List.mem_cons_self

/-- **An instruction of which no room is left** was a watched call that an empty stub replaced. -/
theorem emptyStub_of_eq {i : Insn} (h : Treated table filter nodes ts l)
    (hk : nodes[k]? = some (.insn i)) (heq : l.newOffset ts k = l.newOffset ts (k + 1)) :
    ∃ site, i = .call site ∧ filter.watches site.owner site.name = true ∧
      treat table filter (.insn (.call site)) = .ok (.stub site []) := by
  obtain ⟨t, ht, htreat⟩ := h.exists_treatment hk
  have hnone := h.no_insn_of_eq ht heq
  have hof := isOf_of_treat htreat
  generalize hnode : Node.insn i = node at hof
  cases hof with
  | keep node hkeep => exact absurd (List.mem_singleton.2 hnode) (hnone i)
  | redirect site static howner => exact absurd (List.mem_singleton.2 rfl) (hnone _)
  | @stub site insns hinsns =>
    cases hnode
    cases insns with
    | cons j rest => exact absurd List.mem_cons_self (hnone j)
    | nil =>
      refine ⟨site, rfl, ?_, htreat⟩
      by_contra hunwatched
      simp only [treat, if_neg hunwatched] at htreat
      cases htreat

end Treated

/-! ## 2. Code that was read -/

/-- Code that was taken apart, scanned and decoded, and the layout of what redirection left of it. -/
structure Redirected (pool : ConstantPool) (blank m : Method) (body : Bytes) (parts : CodeParts)
    (scan : CodeScan) (o : CodeOrigin) (table : RedirectTable) (filter : CallFilter)
    (ts : List Treatment) (l : Layout) : Prop where
  read : CodeParts.read pool body = .ok parts
  scanned : scanCode parts.code = .ok scan
  decoded : decodeMethod pool blank body = .ok m
  origin : m.origin = some o
  treated : Treated table filter m.nodes.toList ts l

namespace Redirected

variable {pool : ConstantPool} {blank m : Method} {body : Bytes} {parts : CodeParts}
  {scan : CodeScan} {o : CodeOrigin} {table : RedirectTable} {filter : CallFilter}
  {ts : List Treatment} {l : Layout}

theorem comesFrom (h : Redirected pool blank m body parts scan o table filter ts l) :
    ComesFrom parts.code pool (labelTable o.labelOffsets) scan.starts.toList m.nodes.toList :=
  comesFrom_of_decode h.decoded h.read h.scanned h.origin

/-- **A label is where what is left of the nodes behind it begins**, if that is before the end. -/
theorem newOffset_of_label (h : Redirected pool blank m body parts scan o table filter ts l)
    {label : Label} {n : Nat} (hn : (label, n) ∈ o.labelOffsets) :
    ∃ k, oldOffset scan.starts.toList parts.code.size m.nodes.toList k = n ∧
      o.newOffset l n =
        if l.newOffset ts k < l.codeLength then some (l.newOffset ts k) else none := by
  obtain ⟨k, hk, hold⟩ := exists_position h.decoded h.read h.scanned h.origin hn
  refine ⟨k, hold, ?_⟩
  have hat : (labelTable o.labelOffsets)[n]? = some label := at?_of_decode h.decoded h.origin hn
  simp only [CodeOrigin.newOffset, hat, h.treated.offsetOf?_label hk, Option.bind_eq_bind,
    Option.bind_some]

end Redirected

end Rewire
