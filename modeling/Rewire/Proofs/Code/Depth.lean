import Mathlib
import Rewire.Code.Depth
import Rewire.Code.WellFormed
import Rewire.Proofs.Bytes.Fit
import Rewire.Proofs.Code.LabelFaults
import Rewire.Proofs.Code.Runs
import Rewire.Proofs.Code.Walk
import Rewire.Proofs.Pattern.Removal

/-!
# The greatest depth is exact

The walk over the nodes of a method visits each node once, with the first depth it meets there. This
file shows

* what a step of the walk does (`walkStep_skip`, `walkStep_marker`, `walkStep_insn`) and that the
  walk is made of such steps (`walk_cons`);
* that every step uses up some of a bound (`potential_walkStep`), so the walk ends on every method
  after a number of visits that can be told beforehand (`greatestDepthWithin_visitLimit`);
* what a walk knows so far of code whose depths are consistent (`Method.Explores`), that a step
  keeps this (`Method.Explores.exists_walkStep`), and so does a whole walk
  (`Method.Explores.exists_walk`);
* that the greatest depth of such code is the one of its nodes that control can reach
  (`Method.maxStack_eq_of_consistentDepths`).
-/

namespace Rewire

/-! ## 1. One step -/

section Steps

variable {nodes : Array Node} {positions : Std.HashMap Label Nat} {w w' : DepthWalk} {v : Visit}
  {work next : List Visit} {i : Insn} {limit : Nat}

theorem walkStep_skip (h : ¬ w.Fresh v.position) :
    walkStep nodes positions w v = .ok (w, []) := by
  unfold walkStep
  split
  · rename_i hfresh
    exact absurd hfresh h
  · rfl

theorem walkStep_marker (h : w.Fresh v.position)
    (hnode : ∀ i, nodes[v.position]? ≠ some (.insn i)) :
    walkStep nodes positions w v = .ok (w.mark v, [⟨v.position + 1, v.depth⟩]) := by
  unfold walkStep
  rw [h]
  split
  · split
    · rename_i i hi
      exact absurd hi (hnode i)
    · rfl
  · rename_i hseen
    exact absurd rfl (hseen)

theorem walkStep_insn (h : w.Fresh v.position) (hnode : nodes[v.position]? = some (.insn i)) :
    walkStep nodes positions w v = (do
      let effect ← stackEffect i
      let next ← flow positions i v.position v.depth (effect.apply v.depth)
      return ((w.mark v).reach (effect.apply v.depth), next.reverse)) := by
  unfold walkStep
  rw [h, hnode]

/-- **The walk goes on** from what a step makes of its first visit. -/
theorem walk_cons : walk nodes positions w (v :: work) = (do
    let (w', next) ← walkStep nodes positions w v
    walk nodes positions w' (next ++ work)) := by
  by_cases hfresh : w.Fresh v.position
  · by_cases hinsn : ∃ i, nodes[v.position]? = some (.insn i)
    · obtain ⟨i, hi⟩ := hinsn
      rw [walk_insn hfresh hi, walkStep_insn hfresh hi]
      simp only [bind_assoc, pure_bind]
    · push Not at hinsn
      rw [walk_marker hfresh hinsn, walkStep_marker hfresh hinsn]
      rfl
  · rw [walk_skip hfresh, walkStep_skip hfresh]
    rfl

/-- The visits that the visit of a node may put off, and itself. -/
def cost (nodes : Array Node) (k : Nat) : Nat :=
  ((nodes[k]?.map Node.targets).getD []).length + 1

theorem length_flow {k depth after : Nat} (h : flow positions i k depth after = .ok next) :
    next.length ≤ i.targets.length + 1 := by
  obtain ⟨jumps, hjumps, h⟩ := bind_eq_ok.1 h
  have hlength := (mapM_eq_ok.1 hjumps).length_eq
  split at h
  · cases h
    rw [List.length_append, List.length_singleton, hlength]
  · cases h
    omega

/-- The positions of the nodes that were not visited yet. -/
def DepthWalk.freshNodes (w : DepthWalk) : Finset Nat :=
  (Finset.range w.depths.size).filter fun k => w.depths[k]? = some none

theorem DepthWalk.mem_freshNodes {k : Nat} : k ∈ w.freshNodes ↔ w.Fresh k := by
  rw [freshNodes, Finset.mem_filter, Finset.mem_range]
  exact ⟨And.right, fun h => ⟨h.lt_size, h⟩⟩

theorem DepthWalk.freshNodes_mark : (w.mark v).freshNodes = w.freshNodes.erase v.position := by
  ext k
  rw [Finset.mem_erase, mem_freshNodes, mem_freshNodes, fresh_mark, and_comm]

/-- A bound on the visits that are still to look at. -/
def potential (nodes : Array Node) (w : DepthWalk) (work : List Visit) : Nat :=
  work.length + ∑ k ∈ w.freshNodes, cost nodes k

/-- **Each step looks at one visit** and puts no more off than the visited node leaves room for. -/
theorem potential_walkStep (work : List Visit)
    (h : walkStep nodes positions w v = .ok (w', next)) :
    potential nodes w' (next ++ work) < potential nodes w (v :: work) := by
  unfold potential
  rw [List.length_append, List.length_cons]
  by_cases hfresh : w.Fresh v.position
  · have hsum := Finset.add_sum_erase _ (cost nodes) (DepthWalk.mem_freshNodes.2 hfresh)
    rw [← DepthWalk.freshNodes_mark] at hsum
    by_cases hinsn : ∃ i, nodes[v.position]? = some (.insn i)
    · obtain ⟨i, hi⟩ := hinsn
      rw [walkStep_insn hfresh hi] at h
      obtain ⟨e, -, h⟩ := bind_eq_ok.1 h
      obtain ⟨next', hnext, h⟩ := bind_eq_ok.1 h
      cases h
      have hlength := length_flow hnext
      have hcost : cost nodes v.position = i.targets.length + 1 := by
        rw [cost, hi]
        rfl
      rw [List.length_reverse]
      show next'.length + work.length + ∑ k ∈ (w.mark v).freshNodes, cost nodes k < _
      omega
    · push Not at hinsn
      rw [walkStep_marker hfresh hinsn] at h
      cases h
      have hcost : 0 < cost nodes v.position := Nat.succ_pos _
      rw [List.length_singleton]
      omega
  · rw [walkStep_skip hfresh] at h
    cases h
    rw [List.length_nil]
    omega

/-- **A walk within its bound ends** as the walk without one. -/
theorem walkWithin_eq (h : potential nodes w work ≤ limit) :
    walkWithin nodes positions limit w work = some (walk nodes positions w work) := by
  induction limit generalizing w work with
  | zero =>
    have hnone : work = [] := List.eq_nil_of_length_eq_zero (by unfold potential at h; omega)
    rw [hnone, walkWithin, walk]
  | succ limit ih =>
    cases work with
    | nil => rw [walkWithin, walk]
    | cons v work =>
      rw [walkWithin, walk_cons]
      cases hstep : walkStep nodes positions w v with
      | error f => rfl
      | ok next =>
        have hless := potential_walkStep work hstep
        exact ih (by omega)

end Steps

/-! ## 2. Termination -/

theorem sum_cost (nodes : List Node) : ∑ k ∈ Finset.range nodes.length, cost nodes.toArray k =
    nodes.length + (nodes.flatMap Node.targets).length := by
  induction nodes with
  | nil => rfl
  | cons node rest ih =>
    have hrest : ∀ k, cost (node :: rest).toArray (k + 1) = cost rest.toArray k := by
      intro k
      simp [cost]
    rw [List.length_cons, Finset.sum_range_succ', Finset.sum_congr rfl fun k _ => hrest k, ih,
      List.flatMap_cons, List.length_append]
    have hfirst : cost (node :: rest).toArray 0 = node.targets.length + 1 := by simp [cost]
    rw [hfirst]
    omega

/-- **The greatest depth is found** after no more visits than there are ways into the method, to
    next nodes and to targets. -/
theorem greatestDepthWithin_visitLimit (m : Method) :
    greatestDepthWithin m.visitLimit m = some (greatestDepth m) := by
  unfold greatestDepthWithin greatestDepth
  simp only
  cases hvisits : m.handlers.mapM fun h => do
    return (⟨← placeOf (labelPositions m.nodes) h.handler, 1⟩ : Visit) with
  | error f => rfl
  | ok visits =>
    have hfresh : DepthWalk.freshNodes { depths := Array.replicate m.nodes.size none } =
        Finset.range m.nodes.size := by
      ext k
      rw [DepthWalk.mem_freshNodes, Finset.mem_range]
      simp [DepthWalk.Fresh, Array.getElem?_replicate]
    have hcost := sum_cost m.nodes.toList
    rw [Array.length_toList, Array.toArray_toList] at hcost
    have hlength := (mapM_eq_ok.1 hvisits).length_eq
    simp only
    rw [walkWithin_eq, Option.map_some]
    · have hreturn : ∀ x : Outcome DepthWalk,
          x.map DepthWalk.greatest = x >>= fun w => pure w.greatest := by
        intro x
        cases x <;> rfl
      exact congrArg some (hreturn _)
    · rw [potential, hfresh, hcost, List.length_append, List.length_reverse, ← hlength,
        Method.visitLimit, List.length_singleton]
      omega

/-! ## 3. The flow of control -/

namespace Method

variable {m : Method} {depth : Nat → Nat} {w : DepthWalk} {v u : Visit} {work next : List Visit}
  {i : Insn} {e : StackEffect} {l : Label} {k : Nat}

/-- A label that is placed once has one position. -/
theorem exists_placeOf (once : m.placedLabels.count l = 1) :
    ∃ p, placeOf (labelPositions m.nodes) l = .ok p ∧ m.labelPosition? l = some p ∧
      p < m.nodes.size := by
  have hplaced : l ∈ m.placedLabels := List.count_pos_iff.1 (by omega)
  obtain ⟨p, hp⟩ := Option.isSome_iff_exists.1
    (Std.HashMap.mem_iff_isSome_getElem?.1 (mem_labelPositions.2 hplaced))
  have hnode : m.nodes.toList[p]? = some (.label l) := label_of_labelPositions hp
  rw [Array.getElem?_toList] at hnode
  exact ⟨p, orFail_eq_ok.2 hp, (labelPosition?_eq_some_of_count (Nat.le_of_eq once)).2 hnode,
    (Array.getElem?_eq_some_iff.1 hnode).1⟩

/-- The visits of the nodes that labels lead to, at one depth. -/
theorem exists_visits {α : Type} {entries : List α} {label : α → Label}
    (once : ∀ a ∈ entries, m.placedLabels.count (label a) = 1) (d : Nat) :
    ∃ visits, entries.mapM (fun a => do
        return (⟨← placeOf (labelPositions m.nodes) (label a), d⟩ : Visit)) = .ok visits ∧
      ∀ u, u ∈ visits ↔ u.depth = d ∧
        ∃ a ∈ entries, m.labelPosition? (label a) = some u.position := by
  induction entries with
  | nil => exact ⟨[], rfl, by simp⟩
  | cons a rest ih =>
    obtain ⟨p, hplace, hposition, -⟩ := exists_placeOf (once a List.mem_cons_self)
    obtain ⟨visits, hvisits, hmem⟩ := ih fun b hb => once b (List.mem_cons_of_mem a hb)
    refine ⟨⟨p, d⟩ :: visits, ?_, fun u => ?_⟩
    · rw [List.mapM_cons, hvisits, hplace]
      rfl
    · have hfirst : u = ⟨p, d⟩ ↔ u.depth = d ∧ m.labelPosition? (label a) = some u.position := by
        rw [hposition, Option.some_inj, and_comm, eq_comm (a := p)]
        cases u
        exact iff_of_eq (Visit.mk.injEq ..)
      rw [List.mem_cons, hfirst, hmem, List.exists_mem_cons_iff, and_or_left]

/-- Where control goes does not depend on the depth. -/
theorem Leads.at_depth (h : m.Leads v u) (d : Nat) :
    ∃ u', m.Leads ⟨v.position, d⟩ u' ∧ u'.position = u.position := by
  cases h with
  | marker here marks more => exact ⟨_, .marker here marks more, rfl⟩
  | jump here effect aims place => exact ⟨_, .jump here effect aims place, rfl⟩
  | next here effect falls more => exact ⟨_, .next here effect falls more, rfl⟩

theorem Leads.lt_size (h : m.Leads v u) : u.position < m.nodes.size := by
  cases h with
  | marker _ _ more => exact more
  | jump _ _ _ place => exact (Array.findIdx?_eq_some_iff_getElem.1 place).1
  | next _ _ _ more => exact more

theorem Reachable.lt_size (h : m.Reachable k) : k < m.nodes.size := by
  cases h with
  | entry enters =>
    cases enters with
    | start nonempty => exact nonempty
    | handler _ place => exact (Array.findIdx?_eq_some_iff_getElem.1 place).1
  | step _ leads => exact leads.lt_size

theorem leads_marker_iff (hlt : v.position < m.nodes.size)
    (hnode : ∀ i, m.nodes[v.position]? ≠ some (.insn i)) : m.Leads v u ↔
      u ∈ [(⟨v.position + 1, v.depth⟩ : Visit)] ∧ u.position < m.nodes.size := by
  rw [List.mem_singleton]
  constructor
  · intro hleads
    refine ⟨?_, hleads.lt_size⟩
    cases hleads with
    | marker => rfl
    | jump here => exact absurd here (hnode _)
    | next here => exact absurd here (hnode _)
  · rintro ⟨rfl, hmore⟩
    have here := Array.getElem?_eq_getElem hlt
    refine .marker here ?_ hmore
    cases hcases : m.nodes[v.position] with
    | insn i => exact absurd (here.trans (congrArg some hcases)) (hnode i)
    | label | line => rfl

/-- **The walk follows the flow of control** after an instruction, except over the end of the
    method. -/
theorem exists_flow (once : ∀ l ∈ m.references, m.placedLabels.count l = 1)
    (here : m.nodes[v.position]? = some (.insn i)) (effect : stackEffect i = .ok e) :
    ∃ next, flow (labelPositions m.nodes) i v.position v.depth (e.apply v.depth) = .ok next ∧
      ∀ u, m.Leads v u ↔ u ∈ next ∧ u.position < m.nodes.size := by
  have htarget : ∀ l ∈ i.targets, m.placedLabels.count l = 1 := fun l hl =>
    once l (mem_references_of_target (mem_insns_of_getElem? here) hl)
  obtain ⟨jumps, hjumps, hjump⟩ := exists_visits htarget (e.apply v.depth)
  have hnext : ∀ u, (u ∈ jumps ++ if i.fallsThrough then
      [⟨v.position + 1, if i.isSubroutineCall then v.depth else e.apply v.depth⟩] else []) ∧
        u.position < m.nodes.size ↔ m.Leads v u := by
    intro u
    rw [List.mem_append, hjump]
    constructor
    · rintro ⟨⟨hdepth, l, hl, hposition⟩ | hfalls, hlt⟩
      · cases u
        cases hdepth
        exact .jump here effect hl hposition
      · split at hfalls
        · rename_i falls
          rw [List.mem_singleton.1 hfalls] at hlt ⊢
          exact .next here effect falls hlt
        · cases hfalls
    · intro hleads
      refine ⟨?_, hleads.lt_size⟩
      cases hleads with
      | marker here' marks =>
        cases here.symm.trans here'
        cases marks
      | jump here' effect' aims place =>
        cases here.symm.trans here'
        cases effect.symm.trans effect'
        exact .inl ⟨rfl, _, aims, place⟩
      | next here' effect' falls =>
        cases here.symm.trans here'
        cases effect.symm.trans effect'
        rw [if_pos falls]
        exact .inr (List.mem_singleton_self _)
  refine ⟨_, ?_, fun u => (hnext u).symm⟩
  rw [flow, hjumps]
  cases i.fallsThrough with
  | true => rfl
  | false => exact congrArg Except.ok (List.append_nil jumps).symm

end Method

/-! ## 4. The walk as an exploration -/

/-- Whether a node was visited. -/
def DepthWalk.Seen (w : DepthWalk) (k : Nat) : Prop :=
  k < w.depths.size ∧ ¬ w.Fresh k

namespace DepthWalk

variable {w : DepthWalk} {v : Visit} {k : Nat}

theorem seen_mark (hfresh : w.Fresh v.position) :
    (w.mark v).Seen k ↔ w.Seen k ∨ k = v.position := by
  unfold Seen
  rw [size_mark, fresh_mark]
  by_cases hk : k = v.position
  · subst hk
    have := hfresh.lt_size
    simp [this]
  · simp [hk]

end DepthWalk

namespace Method

variable {m : Method} {depth : Nat → Nat} {w : DepthWalk} {v u : Visit} {work next : List Visit}
  {i : Insn} {e : StackEffect} {l : Label} {k : Nat}

/-- Whether a node was visited or is still to visit. -/
def Met (w : DepthWalk) (work : List Visit) (k : Nat) : Prop :=
  w.Seen k ∨ ∃ v ∈ work, v.position = k

/-- What a walk knows of a method in which each node has its depth: nodes it visited can be reached,
    those that control can enter or go to from there are met, and the greatest depth is that around
    the nodes visited so far. -/
structure Explores (m : Method) (depth : Nat → Nat) (w : DepthWalk) (work : List Visit) :
    Prop where
  size : w.depths.size = m.nodes.size
  reached : ∀ k, w.Seen k → m.Reachable k
  ahead : ∀ v ∈ work, v.position < m.nodes.size →
    m.Reachable v.position ∧ v.depth = depth v.position
  entries : ∀ v, m.Entry v → Met w work v.position
  closed : ∀ k u, w.Seen k → m.Leads ⟨k, depth k⟩ u → Met w work u.position
  bound : ∀ k, w.Seen k → m.depthAround depth k ≤ w.greatest
  attained : w.greatest = 0 ∨ ∃ k, w.Seen k ∧ m.depthAround depth k = w.greatest

namespace Explores

/-- A visit of a node that was visited before, or of none, changes nothing. -/
theorem skip (h : m.Explores depth w (v :: work)) (hseen : ¬ w.Fresh v.position) :
    m.Explores depth w work := by
  have hmet : ∀ k < m.nodes.size, Met w (v :: work) k → Met w work k := by
    rintro k hk (hold | ⟨u, hu, rfl⟩)
    · exact .inl hold
    · rcases List.mem_cons.1 hu with rfl | hu
      · exact .inl ⟨h.size ▸ hk, hseen⟩
      · exact .inr ⟨u, hu, rfl⟩
  exact {
    h with
    ahead := fun u hu => h.ahead u (List.mem_cons_of_mem v hu)
    entries := fun u hu => hmet _ (Reachable.entry hu).lt_size (h.entries u hu)
    closed := fun k u hk hu => hmet _ hu.lt_size (h.closed k u hk hu) }

/-- **The visit of a new node** keeps the exploration going, when it puts off what the node leads
    to. -/
theorem visit (consistent : m.ConsistentDepths depth) (h : m.Explores depth w (v :: work))
    (hfresh : w.Fresh v.position) {after : Nat}
    (haround : m.depthAround depth v.position = max v.depth after)
    (hnext : ∀ u, m.Leads v u ↔ u ∈ next ∧ u.position < m.nodes.size) :
    m.Explores depth ((w.mark v).reach after) (next ++ work) := by
  have hlt : v.position < m.nodes.size := h.size ▸ hfresh.lt_size
  obtain ⟨hreachable, hdepth⟩ := h.ahead v List.mem_cons_self hlt
  have hv : (⟨v.position, depth v.position⟩ : Visit) = v := by rw [← hdepth]
  have hseen : ∀ k, ((w.mark v).reach after).Seen k ↔ w.Seen k ∨ k = v.position :=
    fun k => DepthWalk.seen_mark hfresh
  have hmet : ∀ k, Met w (v :: work) k → Met ((w.mark v).reach after) (next ++ work) k := by
    rintro k (hold | ⟨u, hu, rfl⟩)
    · exact .inl ((hseen k).2 (.inl hold))
    · rcases List.mem_cons.1 hu with rfl | hu
      · exact .inl ((hseen _).2 (.inr rfl))
      · exact .inr ⟨u, List.mem_append_right _ hu, rfl⟩
  have hgreatest : ((w.mark v).reach after).greatest = max w.greatest (max v.depth after) :=
    Nat.max_assoc _ _ _
  refine ⟨by simp [h.size], fun k hk => ?_, fun u hu hlt => ?_, fun u hu => hmet _ (h.entries u hu),
    fun k u hk hu => ?_, fun k hk => ?_, ?_⟩
  · rcases (hseen k).1 hk with hk | rfl
    · exact h.reached k hk
    · exact hreachable
  · rcases List.mem_append.1 hu with hu | hu
    · have hleads := (hnext u).2 ⟨hu, hlt⟩
      refine ⟨.step hreachable hleads, ?_⟩
      rw [consistent.step _ u hreachable (hv ▸ hleads)]
    · exact h.ahead u (List.mem_cons_of_mem v hu) hlt
  · rcases (hseen k).1 hk with hk | rfl
    · exact hmet _ (h.closed k u hk hu)
    · rw [hv, hnext] at hu
      exact .inr ⟨u, List.mem_append_left _ hu.1, rfl⟩
  · rw [hgreatest]
    rcases (hseen k).1 hk with hk | rfl
    · exact (h.bound k hk).trans (Nat.le_max_left _ _)
    · rw [haround]
      exact Nat.le_max_right _ _
  · rw [hgreatest]
    rcases Nat.le_total (max v.depth after) w.greatest with hle | hle
    · rw [Nat.max_eq_left hle]
      exact h.attained.imp_right fun ⟨k, hk, haround⟩ => ⟨k, (hseen k).2 (.inl hk), haround⟩
    · rw [Nat.max_eq_right hle]
      exact .inr ⟨v.position, (hseen _).2 (.inr rfl), haround⟩

/-- **One step** of the walk keeps the exploration going. -/
theorem exists_walkStep (once : ∀ l ∈ m.references, m.placedLabels.count l = 1)
    (effects : ∀ i ∈ m.insns, ∃ e, stackEffect i = .ok e) (consistent : m.ConsistentDepths depth)
    (h : m.Explores depth w (v :: work)) :
    ∃ w' next, walkStep m.nodes (labelPositions m.nodes) w v = .ok (w', next) ∧
      m.Explores depth w' (next ++ work) := by
  by_cases hfresh : w.Fresh v.position
  · have hlt : v.position < m.nodes.size := h.size ▸ hfresh.lt_size
    have hdepth := (h.ahead v List.mem_cons_self hlt).2
    by_cases hinsn : ∃ i, m.nodes[v.position]? = some (.insn i)
    · obtain ⟨i, hi⟩ := hinsn
      obtain ⟨e, he⟩ := effects i (mem_insns_of_getElem? hi)
      obtain ⟨next, hflow, hnext⟩ := exists_flow once hi he
      have haround : m.depthAround depth v.position = max v.depth (e.apply v.depth) := by
        rw [depthAround, hi, hdepth]
        simp only [he]
      refine ⟨(w.mark v).reach (e.apply v.depth), next.reverse, ?_,
        h.visit consistent hfresh haround fun u => by rw [List.mem_reverse, hnext]⟩
      rw [walkStep_insn hfresh hi, he]
      simp only [bind, Except.bind, hflow]
      rfl
    · push Not at hinsn
      have haround : m.depthAround depth v.position = max v.depth v.depth := by
        rw [depthAround, hdepth, Nat.max_self]
        split
        · rename_i i hi
          exact absurd hi (hinsn i)
        · rfl
      exact ⟨(w.mark v).reach v.depth, [⟨v.position + 1, v.depth⟩],
        by rw [walkStep_marker hfresh hinsn, DepthWalk.reach_mark],
        h.visit consistent hfresh haround fun u => leads_marker_iff hlt hinsn⟩
  · exact ⟨w, [], walkStep_skip hfresh, h.skip hfresh⟩

/-- **A whole walk** visits what it can and then knows every node that control can reach. -/
theorem exists_walk (once : ∀ l ∈ m.references, m.placedLabels.count l = 1)
    (effects : ∀ i ∈ m.insns, ∃ e, stackEffect i = .ok e) (consistent : m.ConsistentDepths depth)
    {limit : Nat} (hlimit : potential m.nodes w work ≤ limit) (h : m.Explores depth w work) :
    ∃ w', walk m.nodes (labelPositions m.nodes) w work = .ok w' ∧ m.Explores depth w' [] := by
  induction limit generalizing w work with
  | zero =>
    have hnone : work = [] := List.eq_nil_of_length_eq_zero (by unfold potential at hlimit; omega)
    subst hnone
    exact ⟨w, by rw [walk], h⟩
  | succ limit ih =>
    cases work with
    | nil => exact ⟨w, by rw [walk], h⟩
    | cons v work =>
      obtain ⟨w', next, hstep, hnext⟩ := h.exists_walkStep once effects consistent
      have hless := potential_walkStep work hstep
      rw [walk_cons, hstep]
      exact ih (by omega) hnext

/-- At its end, the walk has visited every node that control can reach. -/
theorem seen_of_reachable (h : m.Explores depth w []) (hk : m.Reachable k) : w.Seen k := by
  have hmet : ∀ k, Met w [] k → w.Seen k := by
    rintro k (hseen | ⟨v, hv, -⟩)
    · exact hseen
    · cases hv
  induction hk with
  | entry enters => exact hmet _ (h.entries _ enters)
  | @step v u before leads ih =>
    obtain ⟨u', hleads, hposition⟩ := leads.at_depth (depth v.position)
    exact hposition ▸ hmet _ (h.closed _ u' ih hleads)

theorem isGreatestDepth (h : m.Explores depth w []) : m.IsGreatestDepth depth w.greatest :=
  ⟨fun k hk => h.bound k (h.seen_of_reachable hk),
    h.attained.imp_right fun ⟨k, hk, haround⟩ => ⟨k, h.reached k hk, haround⟩⟩

end Explores

/-! ## 5. The greatest depth -/

/-- The walk starts at the entries. -/
theorem explores_start (consistent : m.ConsistentDepths depth) {handlers : List Visit}
    (hhandlers : ∀ v, v ∈ handlers ↔ v.depth = 1 ∧
      ∃ h ∈ m.handlers, m.labelPosition? h.handler = some v.position) :
    m.Explores depth { depths := Array.replicate m.nodes.size none }
      (handlers.reverse ++ [⟨0, 0⟩]) := by
  have hnone : ∀ k, ¬ DepthWalk.Seen { depths := Array.replicate m.nodes.size none } k := by
    rintro k ⟨hlt, hseen⟩
    rw [Array.size_replicate] at hlt
    exact hseen (by simp [DepthWalk.Fresh, hlt])
  refine ⟨by simp, fun k hk => absurd hk (hnone k), fun v hv hlt => ?_, fun v hv => ?_,
    fun k u hk => absurd hk (hnone k), fun k hk => absurd hk (hnone k), .inl rfl⟩
  · have henters : m.Entry v := by
      rcases List.mem_append.1 hv with hv | hv
      · obtain ⟨hdepth, h, hh, hposition⟩ := (hhandlers v).1 (List.mem_reverse.1 hv)
        cases v
        cases hdepth
        exact .handler hh hposition
      · rw [List.mem_singleton.1 hv] at hlt ⊢
        exact .start hlt
    exact ⟨.entry henters, (consistent.entry v henters).symm⟩
  · right
    cases hv with
    | start => exact ⟨_, List.mem_append_right _ (List.mem_singleton_self _), rfl⟩
    | handler member place =>
      have hv := (hhandlers ⟨_, 1⟩).2 ⟨rfl, _, member, place⟩
      exact ⟨_, List.mem_append_left _ (List.mem_reverse.2 hv), rfl⟩

/-- **On consistent code the greatest depth is exact.** -/
theorem exists_greatestDepth (once : ∀ l ∈ m.references, m.placedLabels.count l = 1)
    (effects : ∀ i ∈ m.insns, ∃ e, stackEffect i = .ok e)
    (consistent : m.ConsistentDepths depth) :
    ∃ n, m.IsGreatestDepth depth n ∧ greatestDepth m = .ok n := by
  have hreferred : ∀ h ∈ m.handlers, m.placedLabels.count h.handler = 1 := fun h hh =>
    once _ (mem_references_of_handler hh (by simp))
  obtain ⟨handlers, hhandlers, hplaced⟩ := exists_visits hreferred 1
  obtain ⟨w, hwalk, hexplores⟩ := (explores_start consistent hplaced).exists_walk once effects
    consistent (Nat.le_refl _)
  refine ⟨w.greatest, hexplores.isGreatestDepth, ?_⟩
  exact bind_eq_ok.2 ⟨handlers, hhandlers, bind_eq_ok.2 ⟨w, hwalk, rfl⟩⟩

/-- **The limit on the stack is exact** on consistent code, and there is one unless it is too great
    to be written. The walk ends on all code. -/
theorem maxStack_eq_of_consistentDepths (m : Method) :
    greatestDepthWithin m.visitLimit m = some (greatestDepth m) ∧
      ∀ depth, (∀ l ∈ m.references, m.placedLabels.count l = 1) →
        (∀ i ∈ m.insns, ∃ e, stackEffect i = .ok e) → m.ConsistentDepths depth →
          ∃ n, m.IsGreatestDepth depth n ∧ (m.nodes = #[] → n = 0) ∧
            (∀ limit, maxStack m = .ok limit ↔ limit.toNat = n) ∧
            ((∃ f, maxStack m = .error f) ↔ 0xffff < n) := by
  refine ⟨greatestDepthWithin_visitLimit m, fun depth once effects consistent => ?_⟩
  obtain ⟨n, hgreatest, hn⟩ := exists_greatestDepth once effects consistent
  have hmax : maxStack m = fitUnsigned16 .countingStack n := by
    rw [maxStack, hn]
    rfl
  refine ⟨n, hgreatest, fun hnone => ?_, fun limit => ?_, ?_⟩
  · rcases hgreatest.attained with hzero | ⟨k, hk, -⟩
    · exact hzero
    · have hlt := hk.lt_size
      rw [hnone] at hlt
      exact absurd hlt (Nat.not_lt_zero k)
  · rw [hmax]
    constructor
    · exact fun hlimit => (fitUnsigned16_eq_ok hlimit).1
    · rintro rfl
      exact fitUnsigned16_toNat _ limit
  · rw [hmax]
    constructor
    · rintro ⟨f, hf⟩
      by_contra hle
      rw [fitUnsigned16_of_le _ (Nat.not_lt.1 hle)] at hf
      cases hf
    · intro hlt
      cases hfit : fitUnsigned16 .countingStack n with
      | error f => exact ⟨f, rfl⟩
      | ok limit =>
        have := (fitUnsigned16_eq_ok hfit).2
        omega

end Method

/-- A loop that drops a long value and calls a subroutine, with a handler that throws again. -/
def guardedLoop : Method where
  name := "f"
  descriptor := "()V"
  flags := staticFlag
  nodes := #[.label ⟨0⟩, .insn (.simple 0x09), .insn (.simple 0x88), .insn (.jump 0x99 ⟨0⟩),
    .insn (.jump Opcode.jsr ⟨2⟩), .insn (.simple 0xb1), .label ⟨1⟩,
    .insn (.simple Opcode.athrow), .label ⟨2⟩, .insn (.var Opcode.astore 0),
    .insn (.var Opcode.ret 0)]
  handlers := [⟨⟨0⟩, ⟨1⟩, ⟨1⟩, none⟩]

namespace guardedLoop

/-- The depths at the nodes of the loop. -/
def depth (k : Nat) : Nat :=
  [0, 0, 2, 1, 0, 0, 1, 1, 1, 1, 0].getD k 0

theorem depth_of_labelPosition? {l : Label} {target : Nat}
    (h : guardedLoop.labelPosition? l = some target) :
    l = ⟨0⟩ ∧ target = 0 ∨ l = ⟨1⟩ ∧ target = 6 ∨ l = ⟨2⟩ ∧ target = 8 := by
  have hlabel := Method.getElem?_of_labelPosition? h
  have hlt : target < 11 := (Array.getElem?_eq_some_iff.1 hlabel).1
  interval_cases target <;> cases hlabel <;> simp

theorem consistentDepths : guardedLoop.ConsistentDepths depth where
  entry v hv := by
    cases hv with
    | start => rfl
    | handler member place =>
      cases List.mem_singleton.1 member
      rcases depth_of_labelPosition? place with ⟨hl, rfl⟩ | ⟨hl, rfl⟩ | ⟨hl, rfl⟩ <;> cases hl
      rfl
  step position w hreachable hleads := by
    have hlt : position < 11 := hreachable.lt_size
    cases hleads with
    | marker here marks more =>
      interval_cases position <;> cases here <;> first | rfl | cases marks
    | jump here effect aims place =>
      rcases depth_of_labelPosition? place with ⟨hl, rfl⟩ | ⟨hl, rfl⟩ | ⟨hl, rfl⟩ <;> subst hl <;>
        interval_cases position <;> cases here <;> cases effect <;> simp [Insn.targets] at aims
      · rfl
      · rfl
    | next here effect falls more =>
      interval_cases position <;> cases here <;> cases effect <;> first | rfl | cases falls
  enough position i e hreachable here effect := by
    have hlt : position < 11 := hreachable.lt_size
    interval_cases position <;> cases here <;> cases effect <;> decide

end guardedLoop

/-- The loop needs two words; nothing else in the method needs more. -/
theorem Method.maxStack_eq_of_consistentDepths_guardedLoop :
    (∀ l ∈ guardedLoop.references, guardedLoop.placedLabels.count l = 1) ∧
      (∀ i ∈ guardedLoop.insns, ∃ e, stackEffect i = .ok e) ∧
      guardedLoop.ConsistentDepths guardedLoop.depth ∧ maxStack guardedLoop = .ok 2 := by
  have once : ∀ l ∈ guardedLoop.references, guardedLoop.placedLabels.count l = 1 := by decide
  have effects : ∀ i ∈ guardedLoop.insns, ∃ e, stackEffect i = .ok e := by
    intro i hi
    have hall : guardedLoop.insns.all (fun i => (stackEffect i).isOk) = true := by decide
    have hi := List.all_eq_true.1 hall i hi
    cases heffect : stackEffect i with
    | ok e => exact ⟨e, rfl⟩
    | error f =>
      rw [heffect] at hi
      cases hi
  obtain ⟨n, hgreatest, -, hlimit, -⟩ := (Method.maxStack_eq_of_consistentDepths guardedLoop).2
    guardedLoop.depth once effects guardedLoop.consistentDepths
  refine ⟨once, effects, guardedLoop.consistentDepths, (hlimit 2).2 ?_⟩
  have hreachable : guardedLoop.Reachable 1 :=
    .step (v := ⟨0, 0⟩) (.entry (.start (by decide))) (.marker rfl rfl (by decide))
  have hbound : 2 ≤ n := hgreatest.bound 1 hreachable
  rcases hgreatest.attained with hzero | ⟨k, hk, haround⟩
  · omega
  · have hlt : k < 11 := hk.lt_size
    have hle : ∀ k < 11, guardedLoop.depthAround guardedLoop.depth k ≤ 2 := by decide
    have := hle k hlt
    exact Nat.le_antisymm hbound (haround ▸ this)

end Rewire
