import Mathlib
import Rewire.Proofs.Code.Runs
import Rewire.Proofs.Pattern.Removal

/-!
# What injection inserts

Injection puts a list of instructions behind each occurrence of a pattern. The lists come from a
generator and may differ in length, so every node moves by what is inserted before it. This file
shows

* that a generator runs once for each occurrence, in their order (`Method.run_injectBy`);
* that the new nodes are the old ones with each list right behind the last instruction of its
  occurrence (`Method.interleaved`, `Method.toList_inject_eq`);
* where each old node stands afterwards (`Method.placeAfter`), and that without what was inserted
  the nodes are the old ones again (`Method.restores_inject`);
* that every label leads to the instruction it led to (`Method.landing?_inject`): an occurrence
  ends with an instruction, so nothing comes between a label and the instruction that follows it;
* all of it together (`Method.Injects`, `Method.injects_of_injectBy`).
-/

namespace Rewire

/-- A condition that holds of the first elements of a list and of no others. -/
theorem countP_eq_of_iff {α : Type} {l : List α} {p : α → Bool} {k : Nat} (hk : k ≤ l.length)
    (h : ∀ j a, l[j]? = some a → (p a = true ↔ j < k)) : l.countP p = k := by
  induction l generalizing k with
  | nil => exact (Nat.le_zero.1 hk).symm
  | cons a rest ih =>
    have hfirst := h 0 a rfl
    cases k with
    | zero =>
      refine List.countP_eq_zero.2 fun b hb hp => ?_
      obtain ⟨j, hj⟩ := List.mem_iff_getElem?.1 hb
      exact Nat.not_lt_zero j ((h j b hj).1 hp)
    | succ k =>
      rw [List.countP_cons_of_pos (hfirst.2 (Nat.succ_pos k)),
        ih (Nat.le_of_succ_le_succ hk) fun j b hj => (h (j + 1) b hj).trans Nat.succ_lt_succ_iff]

theorem drop_eq_append {α : Type} (l : List α) {i j : Nat} (hij : i ≤ j) :
    l.drop i = (l.take j).drop i ++ l.drop j := by
  obtain ⟨n, rfl⟩ := Nat.exists_eq_add_of_le hij
  rw [List.drop_take, Nat.add_sub_cancel_left, ← List.drop_drop, List.take_append_drop]

theorem filterMap_getElem? {α : Type} (l : List α) :
    (List.range l.length).filterMap (fun p => l[p]?) = l := by
  induction l with
  | nil => rfl
  | cons a rest ih =>
    rw [List.length_cons, List.range_succ_eq_map, List.filterMap_cons, List.filterMap_map]
    exact congrArg (a :: ·) ih

/-! ## 1. Generators -/

namespace Generator

variable {σ : Type}

/-- The state after a number of runs. -/
def after (generator : Generator σ) (s : σ) : Nat → σ
  | 0 => s
  | n + 1 => (StateT.run generator (generator.after s n)).2

/-- What the run with a number gives, counted from 0. -/
def output (generator : Generator σ) (s : σ) (k : Nat) : List Insn :=
  (StateT.run generator (generator.after s k)).1

theorem after_after (generator : Generator σ) (s : σ) (n k : Nat) :
    generator.after (generator.after s n) k = generator.after s (n + k) := by
  induction k with
  | zero => rfl
  | succ k ih =>
    rw [after, ih]
    rfl

/-- Later runs, counted from the state they find. -/
theorem output_after (generator : Generator σ) (s : σ) (n : Nat) :
    generator.output (generator.after s n) = fun k => generator.output s (n + k) := by
  funext k
  rw [output, after_after]
  rfl

@[simp] theorem after_always (insns : List Insn) (s : σ) (n : Nat) :
    (always insns).after s n = s := by
  induction n with
  | zero => rfl
  | succ n ih => exact ih

@[simp] theorem output_always (insns : List Insn) (s : σ) (k : Nat) :
    (always insns).output s k = insns :=
  rfl

/-- Runs for one occurrence after the other, from the state after a number of runs on. -/
theorem run_mapM (generator : Generator σ) (s : σ) (found : List Match) (n : Nat) :
    StateT.run (found.mapM fun f => do return (f.last, ← generator)) (generator.after s n) =
      ((found.zipIdx n).map (fun e => (e.1.last, generator.output s e.2)),
        generator.after s (n + found.length)) := by
  induction found generalizing n with
  | nil => rfl
  | cons f rest ih =>
    have hrest := ih (n + 1)
    rw [Nat.add_right_comm] at hrest
    rw [List.mapM_cons, StateT.run_bind, List.zipIdx_cons, List.map_cons, List.length_cons]
    show (StateT.run (rest.mapM _ >>= fun others => pure ((f.last, generator.output s n) :: others))
      (generator.after s (n + 1))) = _
    rw [StateT.run_bind, hrest]
    rfl

end Generator

/-- **A generator runs once for each occurrence**, and what its runs give is what is inserted. -/
theorem Method.run_injectBy {σ : Type} (m : Method) (pattern : List Predicate)
    (generator : Generator σ) (s : σ) :
    StateT.run (m.injectBy pattern generator) s =
      (m.inject pattern (generator.output s), generator.after s (m.matches pattern).length) := by
  unfold injectBy inject
  simp only
  split
  · rename_i hnone
    rw [List.isEmpty_iff.1 hnone]
    rfl
  · have hrun := generator.run_mapM s (m.matches pattern) 0
    rw [Nat.zero_add] at hrun
    rw [StateT.run_bind, show s = generator.after s 0 from rfl, hrun]
    rfl

namespace Method

variable {m : Method} {pattern : List Predicate} {generate : Nat → List Insn} {i j k : Nat}

/-! ## 2. Where occurrences end -/

/-- The last instruction of a span that was found looking from a number on. -/
theorem Greedy.last_of_mem_spans {start : Nat} {ks : List Nat} (h : m.Greedy pattern start ks)
    {f : Match} (hf : f ∈ m.spans pattern.length start ks) :
    ∃ k, start ≤ k ∧ m.IsWindow pattern k ∧ f.last = m.insnPosition (k + pattern.length - 1) := by
  induction h with
  | done => cases hf
  | next behind window _ _ ih =>
    rcases List.mem_cons.1 hf with rfl | hf
    · exact ⟨_, behind, window, rfl⟩
    · obtain ⟨k', hk', hwindow, hlast⟩ := ih hf
      exact ⟨k', by omega, hwindow, hlast⟩

theorem Greedy.pairwise_last {start : Nat} {ks : List Nat} (h : m.Greedy pattern start ks)
    (hpattern : 0 < pattern.length) :
    ((m.spans pattern.length start ks).map Match.last).Pairwise (· < ·) := by
  induction h with
  | done => exact .nil
  | @next start k rest behind window _ others ih =>
    refine List.pairwise_cons.2 ⟨fun last hlast => ?_, ih⟩
    obtain ⟨f, hf, rfl⟩ := List.mem_map.1 hlast
    obtain ⟨k', hk', -, hlast⟩ := others.last_of_mem_spans hf
    have hexists := window.lt_length (t := pattern.length - 1) (by omega)
    rw [hlast]
    exact insnPosition_lt (by omega) (by omega)

/-- **Occurrences end one after the other.** -/
theorem pairwise_last (m : Method) (pattern : List Predicate) :
    ((m.matches pattern).map Match.last).Pairwise (· < ·) := by
  cases pattern with
  | nil => exact .nil
  | cons p rest =>
    obtain ⟨ks, greedy, hmatches⟩ := exists_greedy (m := m) p rest
    rw [hmatches]
    exact greedy.pairwise_last (Nat.succ_pos _)

/-- An occurrence ends with an instruction. -/
theorem holdsInsn_last {f : Match} (hf : f ∈ m.matches pattern) : m.holdsInsn f.last = true := by
  cases pattern with
  | nil => cases hf
  | cons p rest =>
    obtain ⟨start, k, window, rfl⟩ := exists_window hf
    have hlength := window.lt_length (Nat.lt_succ_self rest.length)
    have hposition := List.getElem?_eq_getElem hlength
    have hlast : m.insnPosition (k + (rest.length + 1) - 1) = _ := insnPosition_eq hposition
    exact mem_insnPositions.1 (List.mem_of_getElem? (hlast ▸ hposition))

theorem last_lt_iff {f g : Match} (hj : (m.matches pattern)[j]? = some f)
    (hk : (m.matches pattern)[k]? = some g) : j < k ↔ f.last < g.last :=
  getElem?_lt_iff (m.pairwise_last pattern) (by rw [List.getElem?_map, hj, Option.map_some])
    (by rw [List.getElem?_map, hk, Option.map_some])

/-- The number of occurrences that end before a position. -/
def ended (m : Method) (pattern : List Predicate) (i : Nat) : Nat :=
  (m.matches pattern).countP fun f => f.last < i

theorem ended_last {f : Match} (hk : (m.matches pattern)[k]? = some f) :
    m.ended pattern f.last = k :=
  countP_eq_of_iff (Nat.le_of_lt (List.getElem?_eq_some_iff.1 hk).1) fun j g hj => by
    rw [decide_eq_true_eq, last_lt_iff hj hk]

theorem ended_succ_last {f : Match} (hk : (m.matches pattern)[k]? = some f) :
    m.ended pattern (f.last + 1) = k + 1 :=
  countP_eq_of_iff (List.getElem?_eq_some_iff.1 hk).1 fun j g hj => by
    rw [decide_eq_true_eq, Nat.lt_succ_iff, Nat.lt_succ_iff, ← Nat.not_lt, ← Nat.not_lt,
      last_lt_iff hk hj]

theorem ended_succ (h : ∀ f ∈ m.matches pattern, f.last ≠ i) :
    m.ended pattern (i + 1) = m.ended pattern i := by
  refine List.countP_congr fun f hf => ?_
  rw [decide_eq_true_eq, decide_eq_true_eq]
  have := h f hf
  omega

/-! ## 3. Where nodes stand after an injection -/

/-- The lists to insert, by the position they are inserted behind. -/
def insertions (m : Method) (pattern : List Predicate) (generate : Nat → List Insn) : Insertions :=
  Std.HashMap.ofList ((m.matches pattern).zipIdx.map fun (f, k) => (f.last, generate k))

theorem getElem?_insertions {f : Match} (hk : (m.matches pattern)[k]? = some f) :
    (m.insertions pattern generate)[f.last]? = some (generate k) := by
  have hdistinct : ((m.matches pattern).zipIdx.map fun e => (e.1.last, generate e.2)).Pairwise
      fun a b => (a.1 == b.1) = false := by
    have hlast : (((m.matches pattern).zipIdx.map fun e => (e.1.last, generate e.2)).map
        Prod.fst).Pairwise (· < ·) := by
      rw [List.map_map]
      have hfst := m.pairwise_last pattern
      rw [← List.zipIdx_map_fst 0 (m.matches pattern), List.map_map] at hfst
      exact hfst
    exact (List.pairwise_map.1 hlast).imp fun hlt => beq_eq_false_iff_ne.2 (Nat.ne_of_lt hlt)
  refine Std.HashMap.getElem?_ofList_of_mem (beq_self_eq_true f.last) hdistinct ?_
  exact List.mem_map.2 ⟨(f, k), List.mem_zipIdx_iff_getElem?.2 hk, rfl⟩

theorem getElem?_insertions_eq_none (h : ∀ f ∈ m.matches pattern, f.last ≠ i) :
    (m.insertions pattern generate)[i]? = none := by
  refine Std.HashMap.getElem?_ofList_of_contains_eq_false ?_
  rw [List.contains_eq_mem, decide_eq_false_iff_not, List.map_map, List.mem_map]
  rintro ⟨⟨f, k⟩, hmem, rfl⟩
  exact h f (List.mem_of_getElem? (List.mem_zipIdx_iff_getElem?.1 hmem)) rfl

/-- The instructions to insert behind a position. -/
def insertedAt (m : Method) (pattern : List Predicate) (generate : Nat → List Insn) (i : Nat) :
    List Insn :=
  ((m.insertions pattern generate)[i]?).getD []

/-- The place of an old node in the new list: behind the old nodes before it and what is generated
    for the occurrences that end before it. -/
def placeAfter (m : Method) (pattern : List Predicate) (generate : Nat → List Insn) (i : Nat) :
    Nat :=
  i + ((List.range (m.ended pattern i)).map fun k => (generate k).length).sum

theorem placeAfter_succ : m.placeAfter pattern generate (i + 1) =
    m.placeAfter pattern generate i + 1 + (m.insertedAt pattern generate i).length := by
  unfold placeAfter insertedAt
  by_cases hends : ∃ f ∈ m.matches pattern, f.last = i
  · obtain ⟨f, hf, rfl⟩ := hends
    obtain ⟨k, hk⟩ := List.mem_iff_getElem?.1 hf
    rw [ended_succ_last hk, ended_last hk, getElem?_insertions hk, Option.getD_some,
      List.range_succ, List.map_append, List.sum_append, List.map_singleton, List.sum_singleton]
    omega
  · push Not at hends
    rw [ended_succ hends, getElem?_insertions_eq_none hends, Option.getD_none, List.length_nil]
    omega

/-- What stands for each node in the new list: the node, and what is inserted behind it. -/
def injectionRuns (m : Method) (pattern : List Predicate) (generate : Nat → List Insn) :
    List (List Node) :=
  m.nodes.toList.zipIdx.map fun (node, i) =>
    node :: (m.insertedAt pattern generate i).map Node.insn

theorem getElem?_injectionRuns (pattern : List Predicate) (generate : Nat → List Insn)
    {node : Node} (hi : m.nodes[i]? = some node) :
    (m.injectionRuns pattern generate)[i]? =
      some (node :: (m.insertedAt pattern generate i).map Node.insn) := by
  rw [injectionRuns, List.getElem?_map, List.getElem?_zipIdx, Array.getElem?_toList, hi,
    Option.map_some, Option.map_some, Nat.zero_add]

@[simp] theorem length_injectionRuns :
    (m.injectionRuns pattern generate).length = m.nodes.size := by
  simp [injectionRuns]

theorem startOf_injectionRuns (hi : i ≤ m.nodes.size) :
    startOf (m.injectionRuns pattern generate) i = m.placeAfter pattern generate i := by
  induction i with
  | zero => simp [placeAfter, ended]
  | succ i ih =>
    have hrun := getElem?_injectionRuns pattern generate (Array.getElem?_eq_getElem hi)
    rw [startOf_succ hrun, ih (by omega),
      placeAfter_succ, List.length_cons, List.length_map]
    omega

theorem toList_inject (hsome : m.matches pattern ≠ []) :
    (m.inject pattern generate).2.nodes.toList = (m.injectionRuns pattern generate).flatten := by
  rw [inject, if_neg (by rwa [List.isEmpty_iff])]
  show (insertAfter m.nodes (m.insertions pattern generate)).toList = _
  unfold insertAfter injectionRuns insertedAt
  rw [Array.toList_flatMap, Array.toList_zipIdx, List.flatMap_def]
  simp

/-! ## 4. The new nodes -/

/-- The nodes from a position on, with what is generated inserted behind the last instructions of
    occurrences. The first of these occurrences has the number `k`. -/
def interleaved (nodes : List Node) (generate : Nat → List Insn) (start k : Nat) :
    List Match → List Node
  | [] => nodes.drop start
  | f :: rest =>
    (nodes.take (f.last + 1)).drop start ++ (generate k).map Node.insn ++
      interleaved nodes generate (f.last + 1) (k + 1) rest

theorem insertedAt_last {f : Match} (hk : (m.matches pattern)[k]? = some f) :
    m.insertedAt pattern generate f.last = generate k := by
  rw [insertedAt, getElem?_insertions hk, Option.getD_some]

theorem insertedAt_eq_nil (h : ∀ f ∈ m.matches pattern, f.last ≠ i) :
    m.insertedAt pattern generate i = [] := by
  rw [insertedAt, getElem?_insertions_eq_none h, Option.getD_none]

theorem last_lt_size {f : Match} (hf : f ∈ m.matches pattern) : f.last < m.nodes.size :=
  lt_size_of_holdsInsn (holdsInsn_last hf)

/-- Nothing is inserted where no occurrence ends. -/
theorem flatten_injectionRuns_between (generate : Nat → List Insn) (hij : i ≤ j)
    (hj : j ≤ m.nodes.size)
    (hnone : ∀ f ∈ m.matches pattern, i ≤ f.last → j ≤ f.last) :
    (((m.injectionRuns pattern generate).take j).drop i).flatten =
      (m.nodes.toList.take j).drop i := by
  induction j, hij using Nat.le_induction with
  | base => rw [List.drop_eq_nil_of_le (List.length_take_le _ _),
      List.drop_eq_nil_of_le (List.length_take_le _ _), List.flatten_nil]
  | succ j hij ih =>
    have hnode := Array.getElem?_eq_getElem hj
    have hrun := getElem?_injectionRuns pattern generate hnode
    rw [insertedAt_eq_nil fun f hf heq => by have := hnone f hf; omega] at hrun
    rw [List.take_add_one, hrun, List.take_add_one, Array.getElem?_toList, hnode,
      List.drop_append_of_le_length (by rw [List.length_take, length_injectionRuns]; omega),
      List.drop_append_of_le_length (by rw [List.length_take, Array.length_toList]; omega),
      List.flatten_append, ih (by omega) fun f hf hi => Nat.le_of_succ_le (hnone f hf hi)]
    rfl

/-- The new nodes up to the end of an occurrence, from behind the occurrence before it. -/
theorem flatten_injectionRuns_last {f : Match} (hk : (m.matches pattern)[k]? = some f)
    (hi : i ≤ f.last) (hbefore : ∀ g ∈ m.matches pattern, g.last < f.last → g.last < i) :
    (((m.injectionRuns pattern generate).take (f.last + 1)).drop i).flatten =
      (m.nodes.toList.take (f.last + 1)).drop i ++ (generate k).map Node.insn := by
  have hlast := last_lt_size (List.mem_of_getElem? hk)
  have hnode := Array.getElem?_eq_getElem hlast
  have hrun := getElem?_injectionRuns pattern generate hnode
  have hbetween := flatten_injectionRuns_between generate hi
    (Nat.le_of_lt hlast) fun g hg hge => Nat.not_lt.1 fun hlt => by
      have := hbefore g hg hlt
      omega
  rw [List.take_add_one, hrun, insertedAt_last hk, List.take_add_one, Array.getElem?_toList, hnode,
    List.drop_append_of_le_length (by rw [List.length_take, length_injectionRuns]; omega),
    List.drop_append_of_le_length (by rw [List.length_take, Array.length_toList]; omega),
    List.flatten_append, hbetween, List.append_assoc]
  simp

/-- The new nodes from a position on, when the occurrences in `done` end before it and the others
    behind it. -/
theorem flatten_drop_injectionRuns {done rest : List Match}
    (hmatches : m.matches pattern = done ++ rest) (hdone : ∀ f ∈ done, f.last < i)
    (hrest : ∀ f ∈ rest, i ≤ f.last) (hi : i ≤ m.nodes.size) :
    ((m.injectionRuns pattern generate).drop i).flatten =
      interleaved m.nodes.toList generate i done.length rest := by
  induction rest generalizing done i with
  | nil =>
    rw [List.append_nil] at hmatches
    have hbetween := flatten_injectionRuns_between generate
      hi (Nat.le_refl _) fun f hf hle => by
        have := hdone f (hmatches ▸ hf)
        omega
    rwa [List.take_of_length_le (by rw [length_injectionRuns]),
      List.take_of_length_le (by rw [Array.length_toList])] at hbetween
  | cons f rest ih =>
    have hk : (m.matches pattern)[done.length]? = some f := by
      rw [hmatches, List.getElem?_append_right (Nat.le_refl _), Nat.sub_self,
        List.getElem?_cons_zero]
    have hle := hrest f List.mem_cons_self
    have hascending := m.pairwise_last pattern
    rw [hmatches, List.map_append, List.map_cons] at hascending
    obtain ⟨hbehind, -⟩ := List.pairwise_cons.1 (List.pairwise_append.1 hascending).2.1
    have hlater : ∀ g ∈ rest, f.last < g.last := fun g hg => hbehind _ (List.mem_map_of_mem hg)
    have happend : m.matches pattern = (done ++ [f]) ++ rest := by
      rw [hmatches, List.append_assoc, List.singleton_append]
    have hnext := ih (i := f.last + 1) happend (fun g hg => ?_) hlater
      (last_lt_size (List.mem_of_getElem? hk))
    · rw [drop_eq_append _ (Nat.le_succ_of_le hle), List.flatten_append, hnext,
        flatten_injectionRuns_last hk hle fun g hg hlt => ?_, List.length_append]
      · rfl
      · rw [hmatches, List.mem_append, List.mem_cons] at hg
        rcases hg with hg | rfl | hg
        · exact hdone g hg
        · exact absurd hlt (Nat.lt_irrefl _)
        · exact absurd hlt (Nat.lt_asymm (hlater g hg))
    · rcases List.mem_append.1 hg with hg | hg
      · have := hdone g hg
        omega
      · rw [List.mem_singleton.1 hg]
        exact Nat.lt_succ_self _

/-- **The new nodes** are the old ones with what is generated behind each occurrence. -/
theorem toList_inject_eq (hsome : m.matches pattern ≠ []) :
    (m.inject pattern generate).2.nodes.toList =
      interleaved m.nodes.toList generate 0 0 (m.matches pattern) := by
  rw [toList_inject hsome]
  exact flatten_drop_injectionRuns (List.nil_append _).symm (by simp) (by simp) (Nat.zero_le _)

/-! ## 5. Old positions and new ones -/

theorem strictMono_placeAfter (m : Method) (pattern : List Predicate)
    (generate : Nat → List Insn) : StrictMono (m.placeAfter pattern generate) :=
  strictMono_nat_of_lt_succ fun i => by
    rw [placeAfter_succ]
    omega

/-- **Old nodes keep their order.** -/
theorem placeAfter_lt_iff : m.placeAfter pattern generate i < m.placeAfter pattern generate j ↔
    i < j :=
  (m.strictMono_placeAfter pattern generate).lt_iff_lt

theorem size_inject (generate : Nat → List Insn) (hsome : m.matches pattern ≠ []) :
    (m.inject pattern generate).2.nodes.size = m.placeAfter pattern generate m.nodes.size := by
  rw [← Array.length_toList, toList_inject hsome, ← startOf_injectionRuns (Nat.le_refl _),
    startOf_of_le (by rw [length_injectionRuns])]

/-- A node keeps its place behind what was inserted before it. -/
theorem getElem?_inject (generate : Nat → List Insn) (hsome : m.matches pattern ≠ []) (i : Nat) :
    (m.inject pattern generate).2.nodes[m.placeAfter pattern generate i]? = m.nodes[i]? := by
  by_cases hi : i < m.nodes.size
  · have hnode := Array.getElem?_eq_getElem hi
    have hrun := getElem?_injectionRuns pattern generate hnode
    rw [← Array.getElem?_toList, toList_inject hsome, ← startOf_injectionRuns (Nat.le_of_lt hi),
      ← Nat.add_zero (startOf _ i), getElem?_flatten_startOf hrun (Nat.succ_pos _), hnode,
      List.getElem?_cons_zero]
  · have hle := (m.strictMono_placeAfter pattern generate).monotone (Nat.le_of_not_lt hi)
    rw [Array.getElem?_eq_none (Nat.le_of_not_lt hi),
      Array.getElem?_eq_none (by rw [size_inject generate hsome]; exact hle)]

/-- The positions of what is inserted. -/
def insertedPositions (m : Method) (pattern : List Predicate) (generate : Nat → List Insn) :
    List Nat :=
  (m.matches pattern).zipIdx.flatMap fun (f, k) =>
    List.range' (m.placeAfter pattern generate f.last + 1) (generate k).length

theorem mem_insertedPositions {p : Nat} : p ∈ m.insertedPositions pattern generate ↔
    ∃ i, m.placeAfter pattern generate i < p ∧ p < m.placeAfter pattern generate (i + 1) := by
  rw [insertedPositions, List.mem_flatMap]
  constructor
  · rintro ⟨⟨f, k⟩, hmem, hp⟩
    have hp := List.mem_range'_1.1 hp
    refine ⟨f.last, hp.1, ?_⟩
    rw [placeAfter_succ, insertedAt_last (List.mem_zipIdx_iff_getElem?.1 hmem)]
    exact hp.2
  · rintro ⟨i, hlt, hend⟩
    rw [placeAfter_succ] at hend
    by_cases hends : ∃ f ∈ m.matches pattern, f.last = i
    · obtain ⟨f, hf, rfl⟩ := hends
      obtain ⟨k, hk⟩ := List.mem_iff_getElem?.1 hf
      rw [insertedAt_last hk] at hend
      exact ⟨(f, k), List.mem_zipIdx_iff_getElem?.2 hk, List.mem_range'_1.2 ⟨hlt, hend⟩⟩
    · push Not at hends
      rw [insertedAt_eq_nil hends, List.length_nil] at hend
      omega

theorem placeAfter_notMem :
    m.placeAfter pattern generate i ∉ m.insertedPositions pattern generate := by
  rw [mem_insertedPositions]
  rintro ⟨j, hlt, hend⟩
  have := placeAfter_lt_iff.1 hlt
  have := placeAfter_lt_iff.1 hend
  omega

/-- Every new position is that of an old node, or lies between two of them. -/
theorem exists_placeAfter {p n : Nat} (hp : p < m.placeAfter pattern generate n) :
    ∃ i < n, p = m.placeAfter pattern generate i ∨
      m.placeAfter pattern generate i < p ∧ p < m.placeAfter pattern generate (i + 1) := by
  induction n with
  | zero => simp [placeAfter, ended] at hp
  | succ n ih =>
    by_cases hbefore : p < m.placeAfter pattern generate n
    · obtain ⟨i, hi, hplace⟩ := ih hbefore
      exact ⟨i, Nat.lt_succ_of_lt hi, hplace⟩
    · refine ⟨n, Nat.lt_succ_self n, ?_⟩
      omega

/-- What is left when the positions of inserted instructions are taken away: those of old nodes, in
    their order. -/
theorem filter_insertedPositions (hsome : m.matches pattern ≠ []) :
    ((List.range (m.inject pattern generate).2.nodes.size).filter
        fun p => p ∉ m.insertedPositions pattern generate) =
      (List.range m.nodes.size).map (m.placeAfter pattern generate) := by
  refine (List.pairwise_lt_range.filter _).eq_of_mem_iff
    (List.pairwise_map.2 (List.pairwise_lt_range.imp placeAfter_lt_iff.2)) fun p => ?_
  rw [List.mem_filter, List.mem_range, size_inject generate hsome, decide_eq_true_eq, List.mem_map,
    mem_insertedPositions]
  constructor
  · rintro ⟨hp, hkept⟩
    obtain ⟨i, hi, rfl | hinserted⟩ := exists_placeAfter hp
    · exact ⟨i, List.mem_range.2 hi, rfl⟩
    · exact absurd ⟨i, hinserted⟩ hkept
  · rintro ⟨i, hi, rfl⟩
    exact ⟨placeAfter_lt_iff.2 (List.mem_range.1 hi),
      mem_insertedPositions.not.1 placeAfter_notMem⟩

/-- **Taking the inserted instructions away** gives back the old nodes. -/
theorem restores_inject (hsome : m.matches pattern ≠ []) :
    ((List.range (m.inject pattern generate).2.nodes.size).filter
        fun p => p ∉ m.insertedPositions pattern generate).filterMap
      (fun p => (m.inject pattern generate).2.nodes[p]?) = m.nodes.toList := by
  rw [filter_insertedPositions hsome, List.filterMap_map]
  simp only [Function.comp_def, getElem?_inject generate hsome]
  simp only [← Array.getElem?_toList]
  exact filterMap_getElem? m.nodes.toList

/-! ## 6. What follows a label -/

/-- **The next instruction stays the same.** What is inserted stands before the markers that follow
    an occurrence, so it comes between no marker and the instruction behind it. -/
theorem skipMarkers_inject (hsome : m.matches pattern ≠ []) (i : Nat) :
    skipMarkers (m.inject pattern generate).2.nodes (m.placeAfter pattern generate i) =
      m.placeAfter pattern generate (skipMarkers m.nodes i) := by
  have hstays := getElem?_inject generate hsome
  have hsize := size_inject generate hsome
  fun_induction skipMarkers m.nodes i with
  | case1 i hlt hmarker ih =>
    have hnode := hstays i
    rw [Array.getElem?_eq_getElem hlt] at hnode
    obtain ⟨hlt', hnode⟩ := Array.getElem?_eq_some_iff.1 hnode
    have hnext : m.placeAfter pattern generate (i + 1) = m.placeAfter pattern generate i + 1 := by
      rw [placeAfter_succ, insertedAt_eq_nil, List.length_nil]
      rintro f hf rfl
      have hinsn := holdsInsn_last hf
      rw [holdsInsn_eq hlt, hmarker] at hinsn
      cases hinsn
    rw [skipMarkers, dif_pos hlt', if_pos (by rw [hnode, hmarker]), ← hnext, ih]
  | case2 i hlt hmarker =>
    have hnode := hstays i
    rw [Array.getElem?_eq_getElem hlt] at hnode
    obtain ⟨hlt', hnode⟩ := Array.getElem?_eq_some_iff.1 hnode
    rw [skipMarkers, dif_pos hlt', if_neg (by rwa [hnode])]
  | case3 i hge =>
    have hle := (m.strictMono_placeAfter pattern generate).monotone (Nat.le_of_not_lt hge)
    rw [skipMarkers, dif_neg (by rw [hsize]; exact Nat.not_lt.2 hle), hsize]

/-- What is inserted are instructions. -/
theorem exists_insn_of_inserted (hsome : m.matches pattern ≠ []) {p : Nat}
    (hlt : m.placeAfter pattern generate i < p)
    (hend : p < m.placeAfter pattern generate (i + 1)) :
    ∃ insn, (m.inject pattern generate).2.nodes[p]? = some (.insn insn) := by
  obtain ⟨t, rfl⟩ := Nat.exists_eq_add_of_lt hlt
  rw [placeAfter_succ] at hend
  have ht : t < (m.insertedAt pattern generate i).length := by omega
  have hi : i < m.nodes.size := by
    by_contra hge
    rw [insertedAt_eq_nil fun f hf (heq : f.last = i) => hge (heq ▸ last_lt_size hf)] at ht
    exact Nat.not_lt_zero t ht
  refine ⟨(m.insertedAt pattern generate i)[t], ?_⟩
  have hrun := getElem?_injectionRuns pattern generate
    (Array.getElem?_eq_getElem hi)
  rw [← Array.getElem?_toList, toList_inject hsome, Nat.add_assoc,
    ← startOf_injectionRuns (Nat.le_of_lt hi),
    getElem?_flatten_startOf hrun (by rw [List.length_cons, List.length_map]; omega),
    List.getElem?_cons_succ, List.getElem?_map, List.getElem?_eq_getElem ht, Option.map_some]

/-- A label is placed where it was. -/
theorem labelPosition?_inject (hsome : m.matches pattern ≠ []) (l : Label) :
    (m.inject pattern generate).2.labelPosition? l =
      (m.labelPosition? l).map (m.placeAfter pattern generate) := by
  have hlabel : ∀ i p, m.placeAfter pattern generate i < p →
      p < m.placeAfter pattern generate (i + 1) →
        (m.inject pattern generate).2.nodes[p]? ≠ some (.label l) := by
    intro i p hlt hend hp
    obtain ⟨insn, hinsn⟩ := exists_insn_of_inserted hsome hlt hend
    rw [hinsn] at hp
    cases hp
  have hat : ∀ (nodes : Array Node) (p : Nat) (hp : p < nodes.size),
      (nodes[p] == Node.label l) = true ↔ nodes[p]? = some (.label l) := by
    intro nodes p hp
    rw [beq_iff_eq, Array.getElem?_eq_getElem hp, Option.some_inj]
  cases hposition : m.labelPosition? l with
  | some i =>
    obtain ⟨hlt, hfound, hfirst⟩ := Array.findIdx?_eq_some_iff_getElem.1 hposition
    have hlt' : m.placeAfter pattern generate i < (m.inject pattern generate).2.nodes.size := by
      rw [size_inject generate hsome]
      exact placeAfter_lt_iff.2 hlt
    refine Array.findIdx?_eq_some_iff_getElem.2 ⟨hlt', ?_, fun p hp => ?_⟩
    · rwa [hat, getElem?_inject generate hsome, ← hat _ _ hlt]
    · rw [hat]
      obtain ⟨j, hj, rfl | ⟨hbehind, hend⟩⟩ := exists_placeAfter hp
      · rw [getElem?_inject generate hsome, ← hat _ _ (Nat.lt_trans hj hlt)]
        exact hfirst j hj
      · exact hlabel j p hbehind hend
  | none =>
    refine Array.findIdx?_eq_none_iff.2 fun node hnode => Bool.eq_false_iff.2 fun heq => ?_
    obtain ⟨p, hp⟩ := Array.mem_iff_getElem?.1 hnode
    rw [beq_iff_eq.1 heq] at hp
    obtain ⟨i, -, rfl | ⟨hbehind, hend⟩⟩ := exists_placeAfter
      (size_inject generate hsome ▸ (Array.getElem?_eq_some_iff.1 hp).1)
    · rw [getElem?_inject generate hsome] at hp
      have hmiss := Array.findIdx?_eq_none_iff.1 hposition _ (Array.mem_of_getElem? hp)
      rw [beq_self_eq_true] at hmiss
      cases hmiss
    · exact hlabel i p hbehind hend hp

/-- **A label leads** to the instruction it led to. -/
theorem landing?_inject (hsome : m.matches pattern ≠ []) (l : Label) :
    (m.inject pattern generate).2.landing? l =
      (m.landing? l).map (m.placeAfter pattern generate) := by
  rw [landing?, labelPosition?_inject hsome, landing?]
  cases m.labelPosition? l with
  | none => rfl
  | some i =>
    simp only [Option.map_some, Option.bind_eq_bind, Option.bind_some]
    rw [skipMarkers_inject hsome, size_inject generate hsome]
    by_cases hlt : skipMarkers m.nodes i < m.nodes.size
    · rw [if_pos hlt, if_pos (placeAfter_lt_iff.2 hlt), Option.map_some]
    · rw [if_neg hlt, if_neg (mt placeAfter_lt_iff.1 hlt), Option.map_none]

/-! ## 7. Injection as a whole -/

/-- A method after what `generate` gives for each occurrence was inserted behind it: `m'`. -/
structure Injects (m : Method) (pattern : List Predicate) (generate : Nat → List Insn)
    (m' : Method) : Prop where
  /-- Nothing changes but the nodes and the flag. -/
  same : m' = { m with nodes := m'.nodes, modified := true }
  /-- Each list stands right behind the last instruction of its occurrence. -/
  nodes : m'.nodes.toList = interleaved m.nodes.toList generate 0 0 (m.matches pattern)
  /-- Without what was inserted, the nodes are the old ones. -/
  restores : ((List.range m'.nodes.size).filter
      fun p => p ∉ m.insertedPositions pattern generate).filterMap (fun p => m'.nodes[p]?) =
    m.nodes.toList
  /-- Old nodes stay in their order, outside of what was inserted. -/
  stays : ∀ i : Nat, m'.nodes[m.placeAfter pattern generate i]? = m.nodes[i]?
  ascending : StrictMono (m.placeAfter pattern generate)
  outside : ∀ i, m.placeAfter pattern generate i ∉ m.insertedPositions pattern generate
  size : m'.nodes.size = m.placeAfter pattern generate m.nodes.size
  /-- The same instruction as before follows a node, or none; so it does where a jump goes. -/
  next : ∀ i, skipMarkers m'.nodes (m.placeAfter pattern generate i) =
    m.placeAfter pattern generate (skipMarkers m.nodes i)
  labels : ∀ l, m'.labelPosition? l = (m.labelPosition? l).map (m.placeAfter pattern generate)
  landings : ∀ l, m'.landing? l = (m.landing? l).map (m.placeAfter pattern generate)

theorem injects_inject (generate : Nat → List Insn) (hsome : m.matches pattern ≠ []) :
    m.Injects pattern generate (m.inject pattern generate).2 where
  same := by rw [inject, if_neg (by rwa [List.isEmpty_iff])]
  nodes := toList_inject_eq hsome
  restores := restores_inject hsome
  stays := getElem?_inject generate hsome
  ascending := m.strictMono_placeAfter pattern generate
  outside _ := placeAfter_notMem
  size := size_inject generate hsome
  next := skipMarkers_inject hsome
  labels := labelPosition?_inject hsome
  landings := landing?_inject hsome

/-- **Injection inserts what its generator gives** behind the occurrences, one run for each of them
    in their order, and changes nothing else; where there is none, the generator does not run and
    nothing changes. -/
theorem injects_of_injectBy {σ : Type} (m : Method) (pattern : List Predicate)
    (generator : Generator σ) (s : σ) :
    (m.matches pattern = [] → StateT.run (m.injectBy pattern generator) s = ((false, m), s)) ∧
      (m.matches pattern ≠ [] → ∃ m',
        StateT.run (m.injectBy pattern generator) s =
          ((true, m'), generator.after s (m.matches pattern).length) ∧
        m.Injects pattern (generator.output s) m') := by
  rw [run_injectBy]
  refine ⟨fun hnone => ?_, fun hsome => ?_⟩
  · rw [inject, if_pos (List.isEmpty_iff.2 hnone), hnone]
    rfl
  · have hfound : (m.inject pattern (generator.output s)).1 = true := by
      rw [inject, if_neg (by rwa [List.isEmpty_iff])]
    exact ⟨_, by rw [← hfound], injects_inject _ hsome⟩

end Method

/-- Gives one instruction that does nothing on its first run, two on the second, and so on. -/
def growingPadding : StateM Nat (List Insn) := do
  let runs ← get
  set (runs + 1)
  return List.replicate (runs + 1) (.simple Opcode.nop)

/-- Two values that are dropped, the second one in a loop whose start is marked. -/
def dropLoop : Method where
  name := "f"
  descriptor := "(II)V"
  flags := staticFlag
  nodes := #[.insn (.var 0x15 0), .insn (.simple Opcode.pop), .label ⟨0⟩, .line 7,
    .insn (.var 0x15 1), .insn (.simple Opcode.pop), .label ⟨1⟩, .insn (.jump Opcode.goto ⟨0⟩)]

namespace dropLoop

/-- Both drops padded, the first one before the label that the loop goes back to. -/
def padded : Method :=
  { dropLoop with
    nodes := #[.insn (.var 0x15 0), .insn (.simple Opcode.pop), .insn (.simple Opcode.nop),
      .label ⟨0⟩, .line 7, .insn (.var 0x15 1), .insn (.simple Opcode.pop),
      .insn (.simple Opcode.nop), .insn (.simple Opcode.nop), .label ⟨1⟩,
      .insn (.jump Opcode.goto ⟨0⟩)]
    modified := true }

theorem matches_eq : dropLoop.matches [.opcode Opcode.pop] = [⟨1, 1, 4⟩, ⟨5, 5, 7⟩] := by
  cbv

end dropLoop

/-- Two occurrences are padded by lists of different lengths. -/
theorem Method.injects_of_injectBy_dropLoop :
    dropLoop.matches [.opcode Opcode.pop] ≠ [] ∧
      StateT.run (dropLoop.injectBy [.opcode Opcode.pop] growingPadding) 0 =
        ((true, dropLoop.padded), 2) ∧
      dropLoop.Injects [.opcode Opcode.pop] (Generator.output growingPadding 0)
        dropLoop.padded := by
  have hsome : dropLoop.matches [.opcode Opcode.pop] ≠ [] := by
    rw [dropLoop.matches_eq]
    exact List.cons_ne_nil _ _
  obtain ⟨m', hrun, hinjects⟩ :=
    (Method.injects_of_injectBy dropLoop [.opcode Opcode.pop] growingPadding 0).2 hsome
  have hpadded : m' = dropLoop.padded := by
    have hnodes : m'.nodes.toList = dropLoop.padded.nodes.toList := by
      rw [hinjects.nodes, dropLoop.matches_eq]
      rfl
    rw [hinjects.same, Array.toList_inj.1 hnodes]
    rfl
  rw [hpadded, dropLoop.matches_eq] at hrun
  exact ⟨hsome, hrun, hpadded ▸ hinjects⟩

end Rewire
