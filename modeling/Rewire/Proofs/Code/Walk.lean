import Mathlib
import Rewire.Code.Stack
import Rewire.Proofs.Outcome

/-!
# Steps of the stack walk

What the walk over the nodes of a method does with the first visit of its work list. This file fixes

* the nodes not visited yet (`DepthWalk.Fresh`) and the steps of the walk (`walk_skip`,
  `walk_marker`, `walk_insn`);
* instructions that only go on to the next node (`Insn.IsStraight`), and the walk through a run of
  them (`DepthWalk.through`, `walk_through`);
* runs with the same effect as one instruction (`StackEffect.IsOfRun`): they leave the walk as that
  instruction would (`StackEffect.IsOfRun.depth_eq`, `StackEffect.IsOfRun.greatest_eq`).
-/

namespace Rewire

/-! ## 1. One visit -/

namespace DepthWalk

variable {w : DepthWalk} {v : Visit} {k : Nat}

/-- Whether a position holds a node that was not visited yet. -/
def Fresh (w : DepthWalk) (position : Nat) : Prop :=
  w.depths[position]? = some none

theorem Fresh.lt_size (h : w.Fresh k) : k < w.depths.size :=
  (Array.getElem?_eq_some_iff.1 h).1

@[simp] theorem size_mark (w : DepthWalk) (v : Visit) :
    (w.mark v).depths.size = w.depths.size := by
  simp [mark]

@[simp] theorem greatest_mark (w : DepthWalk) (v : Visit) :
    (w.mark v).greatest = max w.greatest v.depth := rfl

@[simp] theorem size_reach (w : DepthWalk) (depth : Nat) :
    (w.reach depth).depths.size = w.depths.size := rfl

@[simp] theorem greatest_reach (w : DepthWalk) (depth : Nat) :
    (w.reach depth).greatest = max w.greatest depth := rfl

@[simp] theorem fresh_reach (depth : Nat) : (w.reach depth).Fresh k ↔ w.Fresh k := Iff.rfl

/-- A mark takes the depth of its visit into account. -/
theorem reach_mark (w : DepthWalk) (v : Visit) : (w.mark v).reach v.depth = w.mark v := by
  simp [mark, reach]

@[simp] theorem fresh_mark : (w.mark v).Fresh k ↔ w.Fresh k ∧ k ≠ v.position := by
  unfold Fresh mark
  rw [Array.getElem?_setIfInBounds]
  by_cases h : v.position = k
  · rw [if_pos h]
    constructor
    · intro hk
      split at hk <;> cases hk
    · exact fun hk => absurd h.symm hk.2
  · rw [if_neg h]
    exact ⟨fun hk => ⟨hk, Ne.symm h⟩, And.left⟩

end DepthWalk

section Steps

variable {nodes : Array Node} {positions : Std.HashMap Label Nat} {w : DepthWalk} {v : Visit}
  {work : List Visit}

theorem walk_skip (h : ¬ w.Fresh v.position) :
    walk nodes positions w (v :: work) = walk nodes positions w work := by
  rw [walk]
  split
  · rename_i hfresh
    exact absurd hfresh h
  · rfl

theorem walk_marker (h : w.Fresh v.position) (hnode : ∀ i, nodes[v.position]? ≠ some (.insn i)) :
    walk nodes positions w (v :: work) =
      walk nodes positions (w.mark v) (⟨v.position + 1, v.depth⟩ :: work) := by
  rw [walk]
  split
  · split
    · rename_i i hi
      exact absurd hi (hnode i)
    · rfl
  · rename_i hseen
    exact absurd h hseen

theorem walk_insn {i : Insn} (h : w.Fresh v.position) (hnode : nodes[v.position]? = some (.insn i)) :
    walk nodes positions w (v :: work) = (do
      let effect ← stackEffect i
      let next ← flow positions i v.position v.depth (effect.apply v.depth)
      walk nodes positions ((w.mark v).reach (effect.apply v.depth)) (next.reverse ++ work)) := by
  rw [walk]
  split
  · rw [hnode]
  · rename_i hseen
    exact absurd h hseen

end Steps

/-! ## 2. Runs of instructions -/

/-- Whether control goes from an instruction to the next node and nowhere else. -/
structure Insn.IsStraight (i : Insn) : Prop where
  noTargets : i.targets = []
  goesOn : i.fallsThrough = true
  noSubroutine : i.isSubroutineCall = false

theorem Insn.IsStraight.flow_eq {i : Insn} (h : i.IsStraight)
    (positions : Std.HashMap Label Nat) (position depth after : Nat) :
    flow positions i position depth after = .ok [⟨position + 1, after⟩] := by
  rw [flow, h.noTargets, h.goesOn, h.noSubroutine]
  rfl

theorem Insn.isStraight_call (site : CallSite) : (Insn.call site).IsStraight :=
  ⟨rfl, rfl, rfl⟩

theorem Insn.isStraight_simple {op : UInt8} (h : ¬ Opcode.IsExit op) : (simple op).IsStraight :=
  ⟨rfl, by simp [fallsThrough, h], rfl⟩

/-- The walk after a run of instructions with the given effects, and the visit that comes next. -/
def DepthWalk.through (w : DepthWalk) (v : Visit) : List StackEffect → DepthWalk × Visit
  | [] => (w, v)
  | e :: rest =>
    ((w.mark v).reach (e.apply v.depth)).through ⟨v.position + 1, e.apply v.depth⟩ rest

namespace DepthWalk

theorem through_append (w : DepthWalk) (v : Visit) (effects more : List StackEffect) :
    w.through v (effects ++ more) =
      (w.through v effects).1.through (w.through v effects).2 more := by
  induction effects generalizing w v with
  | nil => rfl
  | cons e rest ih => exact ih _ _

theorem position_through (w : DepthWalk) (v : Visit) (effects : List StackEffect) :
    (w.through v effects).2.position = v.position + effects.length := by
  induction effects generalizing w v with
  | nil => rfl
  | cons e rest ih =>
    rw [through, ih, List.length_cons]
    simp only
    omega

theorem size_through (w : DepthWalk) (v : Visit) (effects : List StackEffect) :
    (w.through v effects).1.depths.size = w.depths.size := by
  induction effects generalizing w v with
  | nil => rfl
  | cons e rest ih => rw [through, ih, size_reach, size_mark]

/-- A run leaves fresh what lies outside of it. -/
theorem fresh_through (w : DepthWalk) (v : Visit) (effects : List StackEffect) (k : Nat) :
    (w.through v effects).1.Fresh k ↔
      w.Fresh k ∧ ¬ (v.position ≤ k ∧ k < v.position + effects.length) := by
  induction effects generalizing w v with
  | nil => simp [through]
  | cons e rest ih =>
    rw [through, ih, fresh_reach, fresh_mark, and_assoc, List.length_cons]
    refine and_congr_right fun _ => ?_
    simp only
    omega

end DepthWalk

/-- **The walk goes through a run of instructions** that are still fresh to the node after it. -/
theorem walk_through {nodes : Array Node} {positions : Std.HashMap Label Nat} {w : DepthWalk}
    {v : Visit} {work : List Visit} {insns : List Insn} {effects : List StackEffect}
    (straight : ∀ i ∈ insns, i.IsStraight)
    (heffects : List.Forall₂ (fun i e => stackEffect i = .ok e) insns effects)
    (hnodes : ∀ j (h : j < insns.length), nodes[v.position + j]? = some (.insn insns[j]))
    (fresh : ∀ j < insns.length, w.Fresh (v.position + j)) :
    walk nodes positions w (v :: work) =
      walk nodes positions (w.through v effects).1 ((w.through v effects).2 :: work) := by
  induction heffects generalizing w v with
  | nil => rfl
  | @cons i e insns effects he _ ih =>
    have hlen : 0 < (i :: insns).length := Nat.succ_pos _
    rw [walk_insn (fresh 0 hlen) (hnodes 0 hlen), List.getElem_cons_zero, he]
    have hflow := (straight i List.mem_cons_self).flow_eq positions v.position v.depth
      (e.apply v.depth)
    simp only [bind, Except.bind, hflow]
    refine ih (fun i hi => straight i (List.mem_cons_of_mem _ hi)) (fun j hj => ?_) fun j hj => ?_
    · have hnode := hnodes (j + 1) (Nat.succ_lt_succ hj)
      rwa [← Nat.add_assoc, Nat.add_right_comm] at hnode
    · have hnext := fresh (j + 1) (Nat.succ_lt_succ hj)
      rw [DepthWalk.fresh_reach, DepthWalk.fresh_mark]
      refine ⟨?_, by simp only; omega⟩
      rwa [← Nat.add_assoc, Nat.add_right_comm] at hnext

/-! ## 3. Runs with the effect of one instruction -/

/-- Effects that pop the given numbers of words and push nothing. -/
def popEffects (widths : List Nat) : List StackEffect :=
  widths.map fun n => ⟨n, 0⟩

/-- Whether a run pops what an effect pops, in any number of steps, and pushes afterwards what it
    pushes, in at most one. -/
def StackEffect.IsOfRun (e : StackEffect) (effects : List StackEffect) : Prop :=
  ∃ widths pushed, effects = popEffects widths ++ pushed ∧ widths.sum = e.pops ∧
    (pushed = [] ∧ e.pushes = 0 ∨ pushed = [⟨0, e.pushes⟩])

theorem depth_through_popEffects (w : DepthWalk) (v : Visit) (widths : List Nat) :
    (w.through v (popEffects widths)).2.depth = v.depth - widths.sum := by
  induction widths generalizing w v with
  | nil => rfl
  | cons n rest ih =>
    have := ih ((w.mark v).reach (v.depth - n + 0)) ⟨v.position + 1, v.depth - n + 0⟩
    rw [popEffects, List.map_cons, DepthWalk.through, List.sum_cons]
    simp only [popEffects, StackEffect.apply] at this ⊢
    omega

/-- Only the first visit of a run that pops can reach a new depth. -/
theorem greatest_through_popEffects (w : DepthWalk) (v : Visit) (widths : List Nat) :
    (w.through v (popEffects widths)).1.greatest =
      if widths = [] then w.greatest else max w.greatest v.depth := by
  induction widths generalizing w v with
  | nil => rfl
  | cons n rest ih =>
    have := ih ((w.mark v).reach (v.depth - n + 0)) ⟨v.position + 1, v.depth - n + 0⟩
    rw [popEffects, List.map_cons, DepthWalk.through, if_neg (List.cons_ne_nil n rest)]
    simp only [popEffects, StackEffect.apply, DepthWalk.greatest_reach,
      DepthWalk.greatest_mark] at this ⊢
    rw [this]
    split <;> omega

namespace StackEffect.IsOfRun

variable {e : StackEffect} {effects : List StackEffect}

/-- An instruction without a run for it has no effect. -/
theorem of_nil (h : e.IsOfRun []) (depth : Nat) : e.apply depth = depth := by
  obtain ⟨widths, pushed, hrun, hpops, hpushed⟩ := h
  obtain ⟨hwidths, hnone⟩ := List.append_eq_nil_iff.1 hrun.symm
  rw [popEffects, List.map_eq_nil_iff] at hwidths
  rcases hpushed with ⟨-, hpushes⟩ | hpushed
  · rw [apply, ← hpops, hpushes, hwidths]
    rfl
  · rw [hnone] at hpushed
    cases hpushed

/-- A run ends with the depth that the instruction ends with. -/
theorem depth_eq (h : e.IsOfRun effects) (w : DepthWalk) (v : Visit) :
    (w.through v effects).2.depth = e.apply v.depth := by
  obtain ⟨widths, pushed, rfl, hpops, hpushed⟩ := h
  have hpopped := depth_through_popEffects w v widths
  rw [DepthWalk.through_append, apply, ← hpops]
  rcases hpushed with ⟨rfl, hpushes⟩ | rfl
  · rw [DepthWalk.through, hpopped, hpushes]
    rfl
  · simp only [DepthWalk.through, apply, hpopped]
    omega

/-- A run reaches no other greatest depth than the instruction. -/
theorem greatest_eq (h : e.IsOfRun effects) (hne : effects ≠ []) (w : DepthWalk) (v : Visit) :
    (w.through v effects).1.greatest = ((w.mark v).reach (e.apply v.depth)).greatest := by
  obtain ⟨widths, pushed, rfl, hpops, hpushed⟩ := h
  have hdepth := depth_through_popEffects w v widths
  have hgreatest := greatest_through_popEffects w v widths
  rw [DepthWalk.through_append, DepthWalk.greatest_reach, DepthWalk.greatest_mark, apply, ← hpops]
  rcases hpushed with ⟨rfl, hpushes⟩ | rfl
  · have hpop : widths ≠ [] := by
      rintro rfl
      exact hne rfl
    rw [if_neg hpop] at hgreatest
    rw [DepthWalk.through, hgreatest, hpushes]
    omega
  · simp only [DepthWalk.through, apply, DepthWalk.greatest_reach, DepthWalk.greatest_mark,
      hgreatest, hdepth]
    split
    · rename_i hnone
      simp only [hnone, List.sum_nil]
      omega
    · omega

end StackEffect.IsOfRun

end Rewire
