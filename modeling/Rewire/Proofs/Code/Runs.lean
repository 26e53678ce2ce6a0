import Mathlib
import Rewire.Proofs.Code.Walk

/-!
# Nodes replaced by runs

The nodes of a method are replaced, each by a run of nodes with the same effect on the stack, which
may be empty. The walk over the new nodes then follows the walk over the old ones: a visit of an old
node is a visit of the first node of its run. This file fixes

* which runs may stand for a node (`Node.HasRun`) and where the run of a node starts (`startOf`);
* that labels are placed at the starts of their runs (`positions_flatten`);
* when two walks are at the same point (`Mirrors`), and that from there they end alike
  (`Mirrors.walk_eq`).

A node whose run is empty is visited by the first walk only. Two facts make up for that, and both
are kept by every step: once such a node was visited, the node after it was visited too or comes
next (`Mirrors.passed`), and the node is reached with no greater depth than was seen before
(`Mirrors.seen`).
-/

namespace Rewire

/-! ## 1. Runs -/

/-- Whether a run of nodes has the same effect on the stack as a node. -/
inductive Node.HasRun : Node → List Node → Prop where
  | keep (node : Node) : HasRun node [node]
  | replace {i i' : Insn} (straight : i.IsStraight) (straight' : i'.IsStraight)
      (h : stackEffect i' = stackEffect i) : HasRun (.insn i) [.insn i']
  | run {i : Insn} {e : StackEffect} {insns : List Insn} {effects : List StackEffect}
      (straight : i.IsStraight) (effect : stackEffect i = .ok e)
      (straights : ∀ j ∈ insns, j.IsStraight)
      (heffects : List.Forall₂ (fun j e => stackEffect j = .ok e) insns effects)
      (h : e.IsOfRun effects) : HasRun (.insn i) (insns.map .insn)

/-- Where the run of the node at a position starts. -/
def startOf (runs : List (List Node)) (position : Nat) : Nat :=
  (runs.take position).flatten.length

section Starts

variable {runs : List (List Node)} {run : List Node} {k j : Nat}

@[simp] theorem startOf_zero (runs : List (List Node)) : startOf runs 0 = 0 := rfl

theorem startOf_succ (h : runs[k]? = some run) : startOf runs (k + 1) = startOf runs k + run.length := by
  unfold startOf
  rw [List.take_add_one, h, List.flatten_append, List.length_append]
  simp

theorem startOf_of_le (h : runs.length ≤ k) : startOf runs k = runs.flatten.length := by
  rw [startOf, List.take_of_length_le h]

theorem getElem?_flatten_startOf (h : runs[k]? = some run) (hj : j < run.length) :
    runs.flatten[startOf runs k + j]? = run[j]? := by
  obtain ⟨hk, rfl⟩ := List.getElem?_eq_some_iff.1 h
  have hsplit : runs.flatten =
      (runs.take k).flatten ++ (runs[k] ++ (runs.drop (k + 1)).flatten) := by
    rw [← List.flatten_cons, ← List.drop_eq_getElem_cons hk, ← List.flatten_append,
      List.take_append_drop]
  rw [startOf, hsplit, List.getElem?_append_right (Nat.le_add_right _ _), Nat.add_sub_cancel_left,
    List.getElem?_append_left hj]

/-- Every node has its run. -/
theorem exists_run {nodes : List Node} (h : List.Forall₂ Node.HasRun nodes runs) {node : Node}
    (hk : nodes[k]? = some node) : ∃ run, runs[k]? = some run ∧ node.HasRun run := by
  obtain ⟨hlt, rfl⟩ := List.getElem?_eq_some_iff.1 hk
  have hlt' : k < runs.length := h.length_eq ▸ hlt
  exact ⟨runs[k], List.getElem?_eq_getElem hlt', h.get hlt hlt'⟩

end Starts

/-! ## 2. Labels -/

/-- A label takes its position in a table of positions. -/
def notePlace (found : Std.HashMap Label Nat) (placed : Node × Nat) : Std.HashMap Label Nat :=
  match placed.1 with
  | .label l => found.insert l placed.2
  | _ => found

theorem labelPositions_eq_foldl (nodes : List Node) :
    labelPositions nodes.toArray = nodes.zipIdx.foldl notePlace ∅ := by
  unfold labelPositions
  rw [← Array.foldl_toList, Array.toList_zipIdx]
  congr

theorem foldl_notePlace_insns (insns : List Insn) (k : Nat) (found : Std.HashMap Label Nat) :
    ((insns.map Node.insn).zipIdx k).foldl notePlace found = found := by
  induction insns generalizing k with
  | nil => rfl
  | cons i rest ih => exact ih (k + 1)

/-- Positions noted from a table on, old and new, correspond if they did before. -/
theorem foldl_notePlace_flatten {nodes : List Node} {runs : List (List Node)}
    (h : List.Forall₂ Node.HasRun nodes runs) {k k' : Nat} {found found' : Std.HashMap Label Nat}
    {place : Nat → Nat} (hplace : ∀ j, place (k + j) = k' + startOf runs j)
    (hfound : ∀ l : Label, found'[l]? = (found[l]?).map place) (l : Label) :
    ((runs.flatten.zipIdx k').foldl notePlace found')[l]? =
      (((nodes.zipIdx k).foldl notePlace found)[l]?).map place := by
  induction h generalizing k k' found found' with
  | nil => exact hfound l
  | @cons node run nodes runs hrun _ ih =>
    have hnext : ∀ j, place (k + 1 + j) = k' + run.length + startOf runs j := by
      intro j
      rw [Nat.add_assoc, Nat.add_comm 1 j, hplace (j + 1), startOf, List.take_succ_cons,
        List.flatten_cons, List.length_append, startOf, Nat.add_assoc]
    rw [List.flatten_cons, List.zipIdx_append, List.foldl_append, List.zipIdx_cons,
      List.foldl_cons]
    refine ih hnext fun l' => ?_
    cases hrun with
    | keep node =>
      cases node with
      | label l₀ =>
        simp only [List.zipIdx_cons, List.zipIdx_nil, List.foldl_cons, List.foldl_nil, notePlace,
          Std.HashMap.getElem?_insert]
        split
        · rw [Option.map_some, ← Nat.add_zero k, hplace 0, startOf_zero, Nat.add_zero]
        · exact hfound l'
      | _ => exact hfound l'
    | replace => exact hfound l'
    | run =>
      rw [foldl_notePlace_insns]
      exact hfound l'

/-- **Labels are placed at the starts of their runs.** -/
theorem positions_flatten {nodes : List Node} {runs : List (List Node)}
    (h : List.Forall₂ Node.HasRun nodes runs) (l : Label) :
    (labelPositions runs.flatten.toArray)[l]? =
      ((labelPositions nodes.toArray)[l]?).map (startOf runs) := by
  rw [labelPositions_eq_foldl, labelPositions_eq_foldl]
  refine foldl_notePlace_flatten h (fun j => ?_) (fun l => ?_) l
  · rw [Nat.zero_add, Nat.zero_add]
  · rw [Std.HashMap.getElem?_empty]
    rfl

/-- A label is placed where a label is. -/
theorem label_of_foldl_notePlace {nodes : List Node} {k : Nat} {found : Std.HashMap Label Nat}
    {l : Label} {p : Nat} (h : ((nodes.zipIdx k).foldl notePlace found)[l]? = some p) :
    found[l]? = some p ∨ ∃ j, p = k + j ∧ nodes[j]? = some (.label l) := by
  induction nodes generalizing k found with
  | nil => exact .inl h
  | cons node rest ih =>
    rw [List.zipIdx_cons, List.foldl_cons] at h
    rcases ih h with hfound | ⟨j, rfl, hj⟩
    · cases node with
      | label l₀ =>
        simp only [notePlace, Std.HashMap.getElem?_insert] at hfound
        split at hfound
        · rename_i heq
          right
          refine ⟨0, (Option.some.inj hfound).symm, ?_⟩
          rw [List.getElem?_cons_zero, eq_of_beq heq]
        · exact .inl hfound
      | _ => exact .inl hfound
    · exact .inr ⟨j + 1, by omega, hj⟩

theorem label_of_labelPositions {nodes : List Node} {l : Label} {p : Nat}
    (h : (labelPositions nodes.toArray)[l]? = some p) : nodes[p]? = some (.label l) := by
  rw [labelPositions_eq_foldl] at h
  rcases label_of_foldl_notePlace h with hnone | ⟨j, rfl, hj⟩
  · rw [Std.HashMap.getElem?_empty] at hnone
    cases hnone
  · rwa [Nat.zero_add]

/-! ## 3. Visits -/

/-- The visit of a node as a visit of its run. -/
def Visit.shifted (runs : List (List Node)) (v : Visit) : Visit :=
  ⟨startOf runs v.position, v.depth⟩

theorem placeOf_shifted {positions positions' : Std.HashMap Label Nat} {runs : List (List Node)}
    (h : ∀ l : Label, positions'[l]? = (positions[l]?).map (startOf runs)) (l : Label) :
    placeOf positions' l = (placeOf positions l).map (startOf runs) := by
  unfold placeOf
  rw [h]
  cases positions[l]? <;> rfl

/-- Visits of labels, old and new, correspond. -/
theorem mapM_placeOf_shifted {α : Type} {positions positions' : Std.HashMap Label Nat}
    {runs : List (List Node)}
    (h : ∀ l : Label, positions'[l]? = (positions[l]?).map (startOf runs)) (label : α → Label)
    (depth : Nat) (l : List α) :
    (l.mapM fun a => do return (⟨← placeOf positions' (label a), depth⟩ : Visit)) =
      (l.mapM fun a => do return (⟨← placeOf positions (label a), depth⟩ : Visit)).map
        (List.map (Visit.shifted runs)) := by
  induction l with
  | nil => rfl
  | cons a rest ih =>
    rw [List.mapM_cons, List.mapM_cons, ih, placeOf_shifted h]
    cases placeOf positions (label a) with
    | error f => rfl
    | ok p =>
      generalize (rest.mapM fun a => do return (⟨← placeOf positions (label a), depth⟩ : Visit)) =
        visits
      cases visits <;> rfl

/-- Where control goes after a node that stays is where it went before. -/
theorem flow_shifted {positions positions' : Std.HashMap Label Nat} {runs : List (List Node)}
    (h : ∀ l : Label, positions'[l]? = (positions[l]?).map (startOf runs)) (i : Insn) {k : Nat}
    {node : Node} (hk : runs[k]? = some [node]) (depth after : Nat) :
    flow positions' i (startOf runs k) depth after =
      (flow positions i k depth after).map (List.map (Visit.shifted runs)) := by
  have hnext : startOf runs (k + 1) = startOf runs k + 1 := startOf_succ hk
  unfold flow
  rw [mapM_placeOf_shifted h (fun l => l) after]
  generalize (i.targets.mapM fun l => do return (⟨← placeOf positions l, after⟩ : Visit)) = visits
  cases visits with
  | error f => rfl
  | ok jumps =>
    simp only [Except.map, bind, Except.bind, pure, Except.pure]
    split
    · simp [Visit.shifted, hnext]
    · rfl

/-- The visits after a node have one of the depths that the node is left with. -/
theorem depth_of_flow {positions : Std.HashMap Label Nat} {i : Insn} {k depth after : Nat}
    {next : List Visit} (h : flow positions i k depth after = .ok next) {v : Visit} (hv : v ∈ next) :
    v.depth = depth ∨ v.depth = after := by
  obtain ⟨jumps, hjumps, h⟩ := bind_eq_ok.1 h
  have hjump : ∀ u ∈ jumps, u.depth = after := by
    intro u hu
    obtain ⟨l, -, hl⟩ := exists_left_of_forall₂ (mapM_eq_ok.1 hjumps) hu
    obtain ⟨p, -, hl⟩ := bind_eq_ok.1 hl
    cases hl
    rfl
  split at h
  · cases h
    rcases List.mem_append.1 hv with hv | hv
    · exact .inr (hjump v hv)
    · rw [List.mem_singleton.1 hv]
      simp only
      split
      · exact .inl rfl
      · exact .inr rfl
  · cases h
    exact .inr (hjump v hv)

/-! ## 4. Walks -/

/-- Whether a walk over the runs is at the point where a walk over the nodes is, which has a work
    list to visit. -/
structure Mirrors (runs : List (List Node)) (w w' : DepthWalk) (work : List Visit) : Prop where
  size : w.depths.size = runs.length
  size' : w'.depths.size = runs.flatten.length
  greatest : w'.greatest = w.greatest
  fresh : ∀ k run, runs[k]? = some run → ∀ j < run.length,
    (w'.Fresh (startOf runs k + j) ↔ w.Fresh k)
  passed : ∀ k, runs[k]? = some [] → ¬ w.Fresh k →
    ¬ w.Fresh (k + 1) ∨ work.head?.map Visit.position = some (k + 1)
  seen : ∀ v ∈ work, v.depth ≤ w.greatest ∨ runs[v.position]? ≠ some []

namespace Mirrors

variable {nodes : List Node} {runs : List (List Node)} {run : List Node} {w w' : DepthWalk}
  {v : Visit} {work : List Visit}

/-- What was visited by the first walk was visited by the second one. -/
theorem not_fresh (h : Mirrors runs w w' (v :: work)) {k : Nat} (hk : v.position ≤ k)
    (hseen : ¬ w.Fresh k) : ¬ w'.Fresh (startOf runs k) := by
  by_cases hlt : k < runs.length
  · have hrun := List.getElem?_eq_getElem hlt
    rcases hempty : runs[k] with _ | ⟨node, rest⟩
    · -- the run is empty: the walk has passed on to the next node, whose run starts here too
      rw [hempty] at hrun
      rcases h.passed k hrun hseen with hnext | hhead
      · have := not_fresh h (Nat.le_succ_of_le hk) hnext
        rwa [startOf_succ hrun] at this
      · have : v.position = k + 1 := Option.some.inj hhead
        omega
    · rw [hempty] at hrun
      rwa [← Nat.add_zero (startOf runs k), h.fresh k _ hrun 0 (Nat.succ_pos _)]
  · intro hfresh
    have := hfresh.lt_size
    rw [h.size', startOf_of_le (Nat.le_of_not_lt hlt)] at this
    exact Nat.lt_irrefl _ this
termination_by runs.length - k

/-- A visit that both walks skip. -/
theorem skip (h : Mirrors runs w w' (v :: work)) (hseen : ¬ w.Fresh v.position) :
    Mirrors runs w w' work where
  size := h.size
  size' := h.size'
  greatest := h.greatest
  fresh := h.fresh
  passed k hk hpassed := by
    rcases h.passed k hk hpassed with hnext | hhead
    · exact .inl hnext
    · rw [← Option.some.inj hhead]
      exact .inl hseen
  seen u hu := h.seen u (List.mem_cons_of_mem v hu)

/-- A node with an empty run, which only the first walk visits. -/
theorem pass (h : Mirrors runs w w' (v :: work)) (hrun : runs[v.position]? = some []) :
    Mirrors runs ((w.mark v).reach v.depth) w' (⟨v.position + 1, v.depth⟩ :: work) := by
  have hdepth : v.depth ≤ w.greatest := by
    rcases h.seen v List.mem_cons_self with hle | hne
    · exact hle
    · exact absurd hrun hne
  have hgreatest : ((w.mark v).reach v.depth).greatest = w.greatest := by
    rw [DepthWalk.greatest_reach, DepthWalk.greatest_mark]
    omega
  refine ⟨h.size ▸ by simp, h.size', hgreatest ▸ h.greatest, fun k run hk j hj => ?_,
    fun k hk hpassed => ?_, fun u hu => ?_⟩
  · rw [DepthWalk.fresh_reach, DepthWalk.fresh_mark, h.fresh k run hk j hj]
    refine (and_iff_left fun heq => ?_).symm
    rw [heq, hrun] at hk
    cases hk
    cases hj
  · rw [DepthWalk.fresh_reach, DepthWalk.fresh_mark] at hpassed ⊢
    by_cases heq : k = v.position
    · right
      rw [heq]
      rfl
    · left
      rcases h.passed k hk (fun hfresh => hpassed ⟨hfresh, heq⟩) with hnext | hhead
      · exact fun hfresh => hnext hfresh.1
      · exact fun hfresh => hfresh.2 (Option.some.inj hhead).symm
  · rw [hgreatest]
    rcases List.mem_cons.1 hu with rfl | hu
    · exact .inl hdepth
    · exact h.seen u (List.mem_cons_of_mem v hu)

/-- A node and its run, which has nodes: the first walk marks the node, the second one the run. -/
theorem visit (h : Mirrors runs w w' (v :: work)) (hrun : runs[v.position]? = some run)
    (hne : run ≠ []) {depth : Nat} {u' : DepthWalk} {next : List Visit}
    (hsize : u'.depths.size = w'.depths.size)
    (hgreatest : u'.greatest = ((w.mark v).reach depth).greatest)
    (hfresh : ∀ k, u'.Fresh k ↔ w'.Fresh k ∧
      ¬ (startOf runs v.position ≤ k ∧ k < startOf runs v.position + run.length))
    (hnext : ∀ u ∈ next, u.depth = v.depth ∨ u.depth = depth) :
    Mirrors runs ((w.mark v).reach depth) u' (next ++ work) := by
  have hmono : ∀ {k l : Nat}, k ≤ l → startOf runs k ≤ startOf runs l := by
    intro k l hkl
    obtain ⟨n, rfl⟩ := Nat.exists_eq_add_of_le hkl
    rw [startOf, startOf, List.take_add, List.flatten_append, List.length_append]
    omega
  refine ⟨h.size ▸ by simp, hsize.trans h.size', hgreatest, fun k run' hk j hj => ?_,
    fun k hk hpassed => .inl ?_, fun u hu => ?_⟩
  · rw [hfresh, DepthWalk.fresh_reach, DepthWalk.fresh_mark, h.fresh k run' hk j hj]
    refine and_congr_right fun _ => ?_
    constructor
    · rintro hout rfl
      rw [hrun] at hk
      cases hk
      exact hout ⟨Nat.le_add_right _ _, by omega⟩
    · rintro hk' ⟨hge, hlt⟩
      have hend := startOf_succ hrun
      have hend' := startOf_succ hk
      rcases Nat.lt_or_gt_of_ne hk' with hk' | hk'
      · have := hmono (Nat.succ_le_of_lt hk')
        simp only [Nat.succ_eq_add_one] at this
        omega
      · have := hmono (Nat.succ_le_of_lt hk')
        simp only [Nat.succ_eq_add_one] at this
        omega
  · have hk' : k ≠ v.position := by
      rintro rfl
      rw [hrun] at hk
      exact hne (Option.some.inj hk)
    rw [DepthWalk.fresh_reach, DepthWalk.fresh_mark] at hpassed ⊢
    rcases h.passed k hk (fun hfresh => hpassed ⟨hfresh, hk'⟩) with hnext | hhead
    · exact fun hfresh => hnext hfresh.1
    · exact fun hfresh => hfresh.2 (Option.some.inj hhead).symm
  · rw [DepthWalk.greatest_reach, DepthWalk.greatest_mark]
    rcases List.mem_append.1 hu with hu | hu
    · left
      rcases hnext u hu with heq | heq <;> omega
    · rcases h.seen u (List.mem_cons_of_mem v hu) with hle | hempty
      · left
        omega
      · exact .inr hempty

/-- A marker, or an instruction that stays one: both walks visit a single node. -/
theorem visit_one (h : Mirrors runs w w' (v :: work)) {node : Node}
    (hrun : runs[v.position]? = some [node]) {depth : Nat} {next : List Visit}
    (hnext : ∀ u ∈ next, u.depth = v.depth ∨ u.depth = depth) :
    Mirrors runs ((w.mark v).reach depth) ((w'.mark (v.shifted runs)).reach depth)
      (next ++ work) := by
  refine h.visit hrun (List.cons_ne_nil _ _) (by simp) (by simp [h.greatest, Visit.shifted])
    (fun k => ?_) hnext
  rw [DepthWalk.fresh_reach, DepthWalk.fresh_mark]
  refine and_congr_right fun _ => ?_
  simp only [Visit.shifted, List.length_singleton]
  omega

end Mirrors

/-! ## 5. The simulation -/

section Simulation

variable {nodes : List Node} {runs : List (List Node)} {positions positions' : Std.HashMap Label Nat}
  {w w' : DepthWalk} {v : Visit} {work : List Visit} {i : Insn}

/-- Whether both walks fail alike at the visit of an instruction, or go on and are at the same
    point again. -/
def StepsAlike (nodes : List Node) (runs : List (List Node))
    (positions positions' : Std.HashMap Label Nat) (w w' : DepthWalk) (v : Visit)
    (work : List Visit) : Prop :=
  (∃ f, walk nodes.toArray positions w (v :: work) = .error f ∧
    walk runs.flatten.toArray positions' w' ((v :: work).map (Visit.shifted runs)) = .error f) ∨
  ∃ (e : StackEffect) (next : List Visit) (u' : DepthWalk),
    walk nodes.toArray positions w (v :: work) =
      walk nodes.toArray positions ((w.mark v).reach (e.apply v.depth)) (next.reverse ++ work) ∧
    walk runs.flatten.toArray positions' w' ((v :: work).map (Visit.shifted runs)) =
      walk runs.flatten.toArray positions' u'
        ((next.reverse ++ work).map (Visit.shifted runs)) ∧
    Mirrors runs ((w.mark v).reach (e.apply v.depth)) u' (next.reverse ++ work)

/-- An instruction in place of another one, with the same effect and the same flow. -/
theorem stepsAlike_one (h : Mirrors runs w w' (v :: work)) (hfresh : w.Fresh v.position)
    (hnode : nodes[v.position]? = some (.insn i)) {i' : Insn}
    (hrun : runs[v.position]? = some [.insn i']) (heffect : stackEffect i' = stackEffect i)
    (hflow : ∀ after, flow positions' i' (startOf runs v.position) v.depth after =
      (flow positions i v.position v.depth after).map (List.map (Visit.shifted runs))) :
    StepsAlike nodes runs positions positions' w w' v work := by
  have hnode' : runs.flatten.toArray[startOf runs v.position]? = some (.insn i') := by
    rw [List.getElem?_toArray, ← Nat.add_zero (startOf runs v.position),
      getElem?_flatten_startOf hrun (Nat.succ_pos _)]
    rfl
  have hfresh' : w'.Fresh (startOf runs v.position) :=
    (h.fresh _ _ hrun 0 (Nat.succ_pos _)).2 hfresh
  unfold StepsAlike
  rw [List.map_cons, walk_insn hfresh (by rwa [List.getElem?_toArray]),
    walk_insn (v := v.shifted runs) hfresh' hnode', heffect]
  cases stackEffect i with
  | error f => exact .inl ⟨f, rfl, rfl⟩
  | ok e =>
    have hflow := hflow (e.apply v.depth)
    cases hnext : flow positions i v.position v.depth (e.apply v.depth) with
    | error f =>
      rw [hnext] at hflow
      simp only [bind, Except.bind, Visit.shifted, hnext, hflow, Except.map]
      exact .inl ⟨f, rfl, rfl⟩
    | ok next =>
      rw [hnext] at hflow
      simp only [bind, Except.bind, Visit.shifted, hnext, hflow, Except.map]
      refine .inr ⟨e, next, _, rfl, ?_, h.visit_one hrun fun u hu =>
        depth_of_flow hnext (List.mem_reverse.1 hu)⟩
      rw [List.map_append, List.map_reverse]
      rfl

/-- A run in place of an instruction. -/
theorem stepsAlike_run (h : Mirrors runs w w' (v :: work)) (hfresh : w.Fresh v.position)
    (hnode : nodes[v.position]? = some (.insn i)) {e : StackEffect} {insns : List Insn}
    {effects : List StackEffect} (hrun : runs[v.position]? = some (insns.map .insn))
    (straight : i.IsStraight) (heffect : stackEffect i = .ok e)
    (straights : ∀ j ∈ insns, j.IsStraight)
    (heffects : List.Forall₂ (fun j e => stackEffect j = .ok e) insns effects)
    (hof : e.IsOfRun effects) : StepsAlike nodes runs positions positions' w w' v work := by
  have hend : startOf runs (v.position + 1) = startOf runs v.position + effects.length := by
    rw [startOf_succ hrun, List.length_map, heffects.length_eq]
  refine .inr ⟨e, [⟨v.position + 1, e.apply v.depth⟩], (w'.through (v.shifted runs) effects).1,
    ?_, ?_, ?_⟩
  · rw [walk_insn hfresh (by rwa [List.getElem?_toArray]), heffect]
    simp only [bind, Except.bind, straight.flow_eq]
  · rw [List.map_cons, walk_through straights heffects (fun j hj => ?_) fun j hj => ?_,
      List.reverse_singleton, List.singleton_append, List.map_cons]
    · have hdepth : (w'.through (v.shifted runs) effects).2.depth = e.apply v.depth :=
        hof.depth_eq w' (v.shifted runs)
      have hposition : (w'.through (v.shifted runs) effects).2.position =
          startOf runs (v.position + 1) :=
        (DepthWalk.position_through w' (v.shifted runs) effects).trans hend.symm
      simp only [Visit.shifted] at hdepth hposition ⊢
      rw [← hdepth, ← hposition]
    · rw [List.getElem?_toArray]
      refine (getElem?_flatten_startOf hrun (by rwa [List.length_map])).trans ?_
      rw [List.getElem?_map, List.getElem?_eq_getElem hj]
      rfl
    · exact (h.fresh _ _ hrun j (by rwa [List.length_map])).2 hfresh
  · rw [List.reverse_singleton, List.singleton_append]
    have hlength := heffects.length_eq
    cases heffects with
    | nil =>
      rw [hof.of_nil]
      exact h.pass hrun
    | cons =>
      refine h.visit hrun (by simp) (DepthWalk.size_through _ _ _) ?_ (fun k => ?_)
        fun u (hu : u ∈ [_]) => .inr (by rw [List.mem_singleton.1 hu])
      · rw [hof.greatest_eq (List.cons_ne_nil _ _), DepthWalk.greatest_reach,
          DepthWalk.greatest_mark, h.greatest]
        rfl
      · rw [DepthWalk.fresh_through, List.length_map, hlength]
        rfl

/-- Both walks visit an instruction and what stands for it. -/
theorem stepsAlike (hplaces : ∀ l : Label, positions'[l]? = (positions[l]?).map (startOf runs))
    (h : Mirrors runs w w' (v :: work)) (hfresh : w.Fresh v.position)
    (hnode : nodes[v.position]? = some (.insn i)) {run : List Node}
    (hrun : runs[v.position]? = some run) (hhas : (Node.insn i).HasRun run) :
    StepsAlike nodes runs positions positions' w w' v work := by
  cases hhas with
  | keep =>
    exact stepsAlike_one h hfresh hnode hrun rfl fun after => flow_shifted hplaces i hrun _ after
  | replace straight straight' heffect =>
    refine stepsAlike_one h hfresh hnode hrun heffect fun after => ?_
    rw [straight.flow_eq, straight'.flow_eq]
    simp [Except.map, Visit.shifted, startOf_succ hrun]
  | run straight heffect straights heffects hof =>
    exact stepsAlike_run h hfresh hnode hrun straight heffect straights heffects hof

/-- **Both walks end with the same greatest depth**, or fail alike. -/
theorem Mirrors.walk_eq (hruns : List.Forall₂ Node.HasRun nodes runs)
    (hplaces : ∀ l : Label, positions'[l]? = (positions[l]?).map (startOf runs))
    (h : Mirrors runs w w' work) :
    (walk runs.flatten.toArray positions' w' (work.map (Visit.shifted runs))).map
        DepthWalk.greatest =
      (walk nodes.toArray positions w work).map DepthWalk.greatest := by
  induction w, work using walk.induct nodes.toArray generalizing w' with
  | case1 w => rw [List.map_nil, walk, walk, Except.map, Except.map, h.greatest]
  | case2 w v work hfresh _ i hnode ih =>
    rw [List.getElem?_toArray] at hnode
    obtain ⟨run, hrun, hhas⟩ := exists_run hruns hnode
    rcases stepsAlike hplaces h hfresh hnode hrun hhas with
      ⟨f, hold, hnew⟩ | ⟨e, next, u', hold, hnew, hmirrors⟩
    · rw [hold, hnew]
    · rw [hold, hnew]
      exact ih e next hmirrors
  | case3 w v work hfresh _ hnode ih =>
    have hlt : v.position < nodes.length := by
      rw [hruns.length_eq, ← h.size]
      exact DepthWalk.Fresh.lt_size hfresh
    obtain ⟨node, hnodeAt⟩ : ∃ node, nodes[v.position]? = some node :=
      ⟨_, List.getElem?_eq_getElem hlt⟩
    have hmarker : ∀ i, node ≠ .insn i := by
      rintro i rfl
      exact hnode i (by rwa [List.getElem?_toArray])
    obtain ⟨run, hrun, hhas⟩ := exists_run hruns hnodeAt
    cases hhas with
    | keep =>
      have hfresh' : w'.Fresh (v.shifted runs).position :=
        (h.fresh _ _ hrun 0 (Nat.succ_pos _)).2 hfresh
      have hnode' : runs.flatten.toArray[(v.shifted runs).position]? = some node := by
        rw [List.getElem?_toArray]
        exact getElem?_flatten_startOf hrun (Nat.succ_pos 0)
      have hmirrors : Mirrors runs (w.mark v) (w'.mark (v.shifted runs))
          (⟨v.position + 1, v.depth⟩ :: work) := by
        have hone := h.visit_one hrun fun u (hu : u ∈ [⟨v.position + 1, v.depth⟩]) =>
          show u.depth = v.depth ∨ u.depth = v.depth from
            .inl (by rw [List.mem_singleton.1 hu])
        rwa [DepthWalk.reach_mark, show v.depth = (v.shifted runs).depth from rfl,
          DepthWalk.reach_mark] at hone
      rw [walk_marker hfresh (fun i hi => hnode i hi), List.map_cons,
        walk_marker hfresh' fun i hi => hmarker i (by rw [hnode'] at hi; exact Option.some.inj hi)]
      rw [← ih hmirrors, List.map_cons, Visit.shifted, Visit.shifted, startOf_succ hrun]
      rfl
    | replace => exact absurd rfl (hmarker _)
    | run => exact absurd rfl (hmarker _)
  | case4 w v work hseen ih =>
    rw [List.map_cons, walk_skip hseen,
      walk_skip (v := v.shifted runs) (h.not_fresh (Nat.le_refl _) hseen)]
    exact ih (h.skip hseen)

end Simulation

/-! ## 6. Whole methods -/

/-- Both walks are at the same point before the first visit. -/
theorem mirrors_start {runs : List (List Node)} {size : Nat} (hsize : size = runs.length)
    (work : List Visit) (hwork : ∀ v ∈ work, v.depth = 0 ∨ runs[v.position]? ≠ some []) :
    Mirrors runs { depths := Array.replicate size none }
      { depths := Array.replicate runs.flatten.length none } work := by
  have hfresh : ∀ {size k : Nat}, k < size →
      DepthWalk.Fresh { depths := Array.replicate size none } k := by
    intro size k hk
    simp [DepthWalk.Fresh, hk]
  refine ⟨by simp [hsize], by simp, rfl, fun k run hk j hj => ?_, fun k hk hseen => ?_,
    fun v hv => (hwork v hv).imp_left fun h => by simp [h]⟩
  · have hlt := (List.getElem?_eq_some_iff.1 hk).1
    have hnode := getElem?_flatten_startOf hk hj
    rw [List.getElem?_eq_getElem hj] at hnode
    have hlt' := (List.getElem?_eq_some_iff.1 hnode).1
    exact ⟨fun _ => hfresh (hsize ▸ hlt), fun _ => hfresh hlt'⟩
  · exact absurd (hfresh (hsize ▸ (List.getElem?_eq_some_iff.1 hk).1)) hseen

/-- **Runs in place of nodes keep the greatest depth.** -/
theorem greatestDepth_eq_of_runs {m : Method} (m' : Method) {runs : List (List Node)}
    (hruns : List.Forall₂ Node.HasRun m.nodes.toList runs)
    (hnodes : m'.nodes = runs.flatten.toArray) (hhandlers : m'.handlers = m.handlers) :
    greatestDepth m' = greatestDepth m := by
  have hplaces : ∀ l : Label,
      (labelPositions m'.nodes)[l]? = ((labelPositions m.nodes)[l]?).map (startOf runs) := by
    intro l
    rw [hnodes, positions_flatten hruns l, Array.toArray_toList]
  have hsize : m.nodes.size = runs.length := by
    rw [← Array.length_toList, hruns.length_eq]
  simp only [greatestDepth, hhandlers]
  rw [mapM_placeOf_shifted hplaces Handler.handler 1]
  cases hvisits : m.handlers.mapM fun h => do
    return (⟨← placeOf (labelPositions m.nodes) h.handler, 1⟩ : Visit) with
  | error f => rfl
  | ok visits =>
    have hstart := mirrors_start hsize (visits.reverse ++ [⟨0, 0⟩]) fun v hv => ?_
    · have hwalk := hstart.walk_eq hruns hplaces
      have hsize' : m'.nodes.size = runs.flatten.length := by rw [hnodes, List.size_toArray]
      rw [List.map_append, List.map_reverse, ← hnodes, Array.toArray_toList, ← hsize'] at hwalk
      have hreturn : ∀ x : Outcome DepthWalk,
          (x >>= fun w => pure w.greatest) = x.map DepthWalk.greatest := by
        intro x
        cases x <;> rfl
      exact (hreturn _).trans (hwalk.trans (hreturn _).symm)
    · rcases List.mem_append.1 hv with hv | hv
      · right
        obtain ⟨h, -, hplace⟩ := exists_left_of_forall₂ (mapM_eq_ok.1 hvisits)
          (List.mem_reverse.1 hv)
        obtain ⟨p, hp, hplace⟩ := bind_eq_ok.1 hplace
        cases hplace
        intro hempty
        have hlabel : m.nodes.toList[p]? = some (.label h.handler) :=
          label_of_labelPositions (orFail_eq_ok.1 hp)
        obtain ⟨run, hrun, hhas⟩ := exists_run hruns hlabel
        rw [hempty] at hrun
        cases hrun
        cases hhas
      · left
        rw [List.mem_singleton.1 hv]

end Rewire
