import Mathlib
import Rewire.Proofs.Pattern.Removal

/-!
# Patterns after removal

A method may contain a pattern again after its occurrences were removed. This file follows the
instructions of such a new window back to where they stood. It shows

* which instructions are left, and with which numbers (`Method.insnsLeft`,
  `Method.getElem?_insnsLeft`);
* that between two of them that come together there was an occurrence (`Method.exists_between`);
* that a predicate changes its mind on an instruction only if it looks at the local variable in scope
  (`Predicate.exists_rescoped`);
* that nothing else brings a window about (`Method.Arises`, `Method.arises_of_isWindow`), so that
  every occurrence that is found after a removal is a new one (`Method.arises_of_mem_matches`);
* that some patterns are gone for good (`Method.matches_remove_singleton`).
-/

namespace Rewire

/-! ## 1. Instructions that are left -/

namespace Method

variable {m : Method} {pattern : List Predicate} {n i j : Nat}

/-- The positions, before a removal, of the instructions that it leaves. -/
def insnsLeft (m : Method) (pattern : List Predicate) : List Nat :=
  m.insnPositions.filter fun i => !m.covered pattern i

theorem pairwise_insnsLeft : (m.insnsLeft pattern).Pairwise (· < ·) :=
  pairwise_insnPositions.filter _

theorem mem_insnsLeft :
    i ∈ m.insnsLeft pattern ↔ m.holdsInsn i = true ∧ ∀ f ∈ m.matches pattern, i ∉ f.nodes := by
  rw [insnsLeft, List.mem_filter, mem_insnPositions, Bool.not_eq_true', covered_eq_false]

theorem insnsLeft_eq : m.insnsLeft pattern = (m.remaining pattern).filter m.holdsInsn := by
  rw [insnsLeft, insnPositions_eq, remaining, List.filter_filter, List.filter_filter]
  refine List.filter_congr fun i _ => ?_
  cases hinsn : m.holdsInsn i with
  | false => rw [Bool.and_false, Bool.false_and]
  | true =>
    obtain ⟨insn, hnode⟩ := holdsInsn_iff.1 hinsn
    have hlabel : (Node.insn insn).label? = none := rfl
    rw [hnode, Option.bind_some, hlabel, Option.any_none, Bool.or_false, Bool.and_true,
      Bool.true_and]

/-- The instructions after a removal are those that were left, in their order. -/
theorem insnPositions_remove :
    (m.remove pattern).2.insnPositions.map (fun k => (m.remaining pattern)[k]?) =
      (m.insnsLeft pattern).map some := by
  have hrange : (List.range (m.remove pattern).2.nodes.size).map
      (fun k => (m.remaining pattern)[k]?) = (m.remaining pattern).map some := by
    refine List.ext_getElem? fun k => ?_
    rw [List.getElem?_map, List.getElem?_map]
    rcases Nat.lt_or_ge k (m.remove pattern).2.nodes.size with hk | hk
    · obtain ⟨i, hi, -⟩ := exists_remaining (Array.getElem?_eq_getElem hk)
      rw [List.getElem?_range hk, Option.map_some, hi, Option.map_some]
    · rw [List.getElem?_eq_none (by simpa using hk), getElem?_remaining_eq_none hk]
      rfl
  have hfilter : (m.insnsLeft pattern).map some =
      ((m.remaining pattern).map some).filter fun i => i.any m.holdsInsn := by
    rw [insnsLeft_eq, List.filter_map]
    rfl
  rw [hfilter, ← hrange, List.filter_map, insnPositions_eq]
  refine congrArg (List.map _) (List.filter_congr fun k hk => ?_)
  obtain ⟨i, hi, hnode⟩ := exists_remaining (Array.getElem?_eq_getElem (List.mem_range.1 hk))
  rw [Function.comp_apply, hi, Option.any_some, holdsInsn, holdsInsn, hnode,
    Array.getElem?_eq_getElem (List.mem_range.1 hk)]

/-- **An instruction after a removal** has its number among those that were left. -/
theorem getElem?_insnsLeft {x : Nat} (h : (m.remove pattern).2.insnPositions[n]? = some x) :
    ∃ i insn, (m.insnsLeft pattern)[n]? = some i ∧ (m.remaining pattern)[x]? = some i ∧
      m.nodes[i]? = some (.insn insn) ∧ (m.remove pattern).2.nodes[x]? = some (.insn insn) := by
  obtain ⟨insn, hnode⟩ := holdsInsn_iff.1 (mem_insnPositions.1 (List.mem_of_getElem? h))
  obtain ⟨i, hi, hold⟩ := exists_remaining hnode
  refine ⟨i, insn, ?_, hi, hold, hnode⟩
  have hmap := congrArg (fun l => l[n]?) (@insnPositions_remove m pattern)
  simp only [List.getElem?_map, h, Option.map_some, hi] at hmap
  obtain ⟨j, hj, heq⟩ := Option.map_eq_some_iff.1 hmap.symm
  rw [hj, heq]

/-! ## 2. What stood between them -/

/-- **Two instructions that come together** followed one another, or an occurrence stood between
    them. -/
theorem exists_between (hi : (m.insnsLeft pattern)[n]? = some i)
    (hj : (m.insnsLeft pattern)[n + 1]? = some j) :
    m.insnNumber j = m.insnNumber i + 1 ∨
      ∃ f ∈ m.matches pattern, i < f.first ∧ f.stop ≤ j := by
  obtain ⟨hinsn, hleft⟩ := mem_insnsLeft.1 (List.mem_of_getElem? hi)
  obtain ⟨hinsn', hleft'⟩ := mem_insnsLeft.1 (List.mem_of_getElem? hj)
  have hij : i < j := (getElem?_lt_iff pairwise_insnsLeft hi hj).1 (Nat.lt_succ_self n)
  have hnumber : m.insnNumber i < m.insnNumber j :=
    (getElem?_lt_iff pairwise_insnPositions (getElem?_insnNumber hinsn)
      (getElem?_insnNumber hinsn')).2 hij
  refine or_iff_not_imp_left.2 fun hapart => ?_
  -- the instruction after the first one is not left
  have hlength := (List.getElem?_eq_some_iff.1 (getElem?_insnNumber hinsn')).1
  have hnext : m.insnNumber i + 1 < m.insnPositions.length := by omega
  obtain ⟨q, hq⟩ : ∃ q, m.insnPositions[m.insnNumber i + 1]? = some q :=
    ⟨_, List.getElem?_eq_getElem hnext⟩
  have hiq : i < q := (getElem?_lt_iff pairwise_insnPositions (getElem?_insnNumber hinsn) hq).1
    (Nat.lt_succ_self _)
  have hqj : q < j := (getElem?_lt_iff pairwise_insnPositions hq (getElem?_insnNumber hinsn')).1
    (by omega)
  have hgone : q ∉ m.insnsLeft pattern := by
    intro hmem
    obtain ⟨t, ht⟩ := List.mem_iff_getElem?.1 hmem
    have hnt := (getElem?_lt_iff pairwise_insnsLeft hi ht).2 hiq
    have htn := (getElem?_lt_iff pairwise_insnsLeft ht hj).2 hqj
    omega
  have hcovered : m.covered pattern q = true := by
    by_contra huncovered
    exact hgone (mem_insnsLeft.2 ⟨mem_insnPositions.1 (List.mem_of_getElem? hq),
      covered_eq_false.1 (Bool.eq_false_iff.2 huncovered)⟩)
  obtain ⟨f, hf, hmem⟩ := covered_eq_true.1 hcovered
  have hbetween := List.mem_range'_1.1 hmem
  have hout := mt List.mem_range'_1.2 (hleft f hf)
  have hout' := mt List.mem_range'_1.2 (hleft' f hf)
  exact ⟨f, hf, by omega, by omega⟩

/-- Instructions that followed one another before they were left have numbers one after another. -/
theorem getElem?_of_consecutive {k t first : Nat}
    (hfirst : (m.insnsLeft pattern)[k]? = some first)
    (hnext : ∀ s < t, ∀ i j, (m.insnsLeft pattern)[k + s]? = some i →
      (m.insnsLeft pattern)[k + s + 1]? = some j → m.insnNumber j = m.insnNumber i + 1)
    (hi : (m.insnsLeft pattern)[k + t]? = some i) :
    m.insnPositions[m.insnNumber first + t]? = some i := by
  have hinsn := (mem_insnsLeft.1 (List.mem_of_getElem? hi)).1
  induction t generalizing i with
  | zero =>
    cases hfirst.symm.trans hi
    exact getElem?_insnNumber hinsn
  | succ t ih =>
    have hlength := (List.getElem?_eq_some_iff.1 hi).1
    obtain ⟨j, hj⟩ : ∃ j, (m.insnsLeft pattern)[k + t]? = some j :=
      ⟨_, List.getElem?_eq_getElem (by omega)⟩
    have hnumber := ih (fun s hs => hnext s (by omega)) hj
      (mem_insnsLeft.1 (List.mem_of_getElem? hj)).1
    have hsucc := hnext t (Nat.lt_succ_self t) j i hj hi
    rw [insnNumber_eq hnumber] at hsucc
    rw [← Nat.add_assoc, ← hsucc]
    exact getElem?_insnNumber hinsn

end Method

/-! ## 3. Predicates on one instruction in two methods -/

/-- How a predicate looks at local variables in scope, if it does: before the instruction, or also
    right after it. -/
def Predicate.scope? : Predicate → Option Bool
  | .load _ => some false
  | .store _ => some true
  | _ => none

/-- **A predicate changes its mind** on an instruction only where another local variable record is in
    scope. -/
theorem Predicate.exists_rescoped {m m' : Method} {p : Predicate} {i x : Nat} {insn : Insn}
    (hnode : m.nodes[i]? = some (.insn insn)) (hnode' : m'.nodes[x]? = some (.insn insn))
    (fails : p.test m i = false) (holds : p.test m' x = true) :
    ∃ after op slot, p.scope? = some after ∧ insn = .var op slot ∧
      m'.activeLocal? after x slot ≠ m.activeLocal? after i slot := by
  have hdiffers : p.testInsn m i insn ≠ p.testInsn m' x insn := by
    rw [Predicate.test, hnode] at fails
    rw [Predicate.test, hnode'] at holds
    simp only at fails holds
    rw [fails, holds]
    exact Bool.false_ne_true
  cases p with
  | load f =>
    cases insn with
    | var op slot =>
      refine ⟨false, op, slot, rfl, rfl, fun hsame => hdiffers ?_⟩
      simp only [Predicate.testInsn, hsame]
    | _ => exact absurd rfl hdiffers
  | store f =>
    cases insn with
    | var op slot =>
      refine ⟨true, op, slot, rfl, rfl, fun hsame => hdiffers ?_⟩
      simp only [Predicate.testInsn, hsame]
    | _ => exact absurd rfl hdiffers
  | _ => exact absurd rfl hdiffers

/-! ## 4. New windows -/

namespace Method

variable {m : Method} {pattern : List Predicate} {k : Nat}

/-- What brings a window at number `k` about when the occurrences of a pattern are removed. -/
inductive Arises (m : Method) (pattern : List Predicate) (k : Nat) : Prop where
  /-- Two instructions come together between which an occurrence stood. -/
  | joined {t i j : Nat} {f : Match} (inside : t + 1 < pattern.length)
      (left : (m.insnsLeft pattern)[k + t]? = some i)
      (right : (m.insnsLeft pattern)[k + t + 1]? = some j)
      (removed : f ∈ m.matches pattern) (behind : i < f.first) (before : f.stop ≤ j)
  /-- An instruction gets another local variable record in scope, which its predicate accepts. -/
  | rescoped {t i x : Nat} {p : Predicate} {after : Bool} {op : UInt8} {slot : UInt16}
      (predicate : pattern[t]? = some p) (looks : p.scope? = some after)
      (was : (m.insnsLeft pattern)[k + t]? = some i)
      (becomes : (m.remove pattern).2.insnPositions[k + t]? = some x)
      (same : m.nodes[i]? = some (.insn (.var op slot)))
      (fails : p.test m i = false)
      (differs : (m.remove pattern).2.activeLocal? after x slot ≠ m.activeLocal? after i slot)

/-- **Nothing else brings a window about.** -/
theorem arises_of_isWindow (hpattern : pattern ≠ [])
    (window : (m.remove pattern).2.IsWindow pattern k) : m.Arises pattern k := by
  by_contra hnot
  have hlength := List.length_pos_of_ne_nil hpattern
  -- the instructions of the window were left
  have hleft : ∀ t < pattern.length, ∃ i, (m.insnsLeft pattern)[k + t]? = some i := by
    intro t ht
    obtain ⟨i, -, hi, -⟩ := getElem?_insnsLeft (List.getElem?_eq_getElem (window.lt_length ht))
    exact ⟨i, hi⟩
  obtain ⟨first, hfirst⟩ := hleft 0 hlength
  -- they followed one another
  have hnumber : ∀ t < pattern.length, ∀ i, (m.insnsLeft pattern)[k + t]? = some i →
      m.insnPositions[m.insnNumber first + t]? = some i := by
    intro t ht i hi
    refine getElem?_of_consecutive hfirst (fun s hs i j hi hj => ?_) hi
    refine (exists_between hi hj).resolve_right fun ⟨f, hf, hbehind, hbefore⟩ => ?_
    exact hnot (.joined (by omega) hi hj hf hbehind hbefore)
  -- they satisfied the predicates
  have hwindow : m.IsWindow pattern (m.insnNumber first) := by
    refine isWindow_iff.2 fun t p hp => ?_
    have ht := (List.getElem?_eq_some_iff.1 hp).1
    obtain ⟨x, hx, holds⟩ := isWindow_iff.1 window t p hp
    obtain ⟨i, insn, hi, -, hnode, hnode'⟩ := getElem?_insnsLeft hx
    refine ⟨i, hnumber t ht i hi, ?_⟩
    by_contra hfails
    have fails := Bool.eq_false_iff.2 hfails
    obtain ⟨after, op, slot, looks, rfl, differs⟩ := p.exists_rescoped hnode hnode' fails holds
    exact hnot (.rescoped hp looks hi hx hnode fails differs)
  -- so one of them went with an occurrence
  obtain ⟨f, hf, t, ht, i, hi, hmem⟩ := hwindow.exists_match hpattern
  obtain ⟨j, hj⟩ := hleft t ht
  cases hi.symm.trans (hnumber t ht j hj)
  exact (mem_insnsLeft.1 (List.mem_of_getElem? hj)).2 f hf hmem

/-- **What is found after a removal is new**: where a pattern occurs after its occurrences were
    removed, an occurrence that stood between two of the instructions went, or an instruction got
    another local variable in scope. -/
theorem arises_of_mem_matches {found : Match} (h : found ∈ (m.remove pattern).2.matches pattern) :
    ∃ start k, (m.remove pattern).2.IsWindow pattern k ∧
      found = (m.remove pattern).2.span pattern.length start k ∧ m.Arises pattern k := by
  obtain ⟨start, k, window, hspan⟩ := exists_window h
  refine ⟨start, k, window, hspan, arises_of_isWindow ?_ window⟩
  rintro rfl
  cases h

/-- One instruction that is asked for without regard to local variables does not occur again. -/
theorem matches_remove_singleton {p : Predicate} (hp : p.scope? = none) :
    (m.remove [p]).2.matches [p] = [] := by
  refine List.eq_nil_iff_forall_not_mem.2 fun found hfound => ?_
  obtain ⟨start, k, window, -⟩ := exists_window hfound
  cases arises_of_isWindow (List.cons_ne_nil p []) window with
  | joined inside => exact absurd inside (Nat.not_lt.2 (Nat.le_add_left 1 _))
  | @rescoped t _ _ q _ _ _ predicate looks =>
    obtain ⟨rfl, rfl⟩ : t = 0 ∧ q = p := by
      cases t with
      | zero => exact ⟨rfl, (Option.some.inj predicate).symm⟩
      | succ t => cases predicate
    rw [hp] at looks
    cases looks

end Method

/-- A copy of a copy, both dropped: one pair of instructions inside another one. -/
def nestedCopies : Method where
  name := "f"
  descriptor := "()V"
  flags := staticFlag
  nodes := #[.insn (.simple 0x03), .insn (.simple Opcode.dup), .insn (.simple Opcode.dup),
    .insn (.simple Opcode.pop), .insn (.simple Opcode.pop), .insn (.simple Opcode.pop),
    .insn (.simple 0xb1)]

namespace nestedCopies

/-- The inner pair is gone. -/
def removed : Method :=
  { nestedCopies with
    nodes := #[.insn (.simple 0x03), .insn (.simple Opcode.dup), .insn (.simple Opcode.pop),
      .insn (.simple Opcode.pop), .insn (.simple 0xb1)]
    modified := true }

theorem matches_eq :
    nestedCopies.matches [.opcode Opcode.dup, .opcode Opcode.pop] = [⟨2, 3, 4⟩] := by
  cbv

theorem remove_eq :
    nestedCopies.remove [.opcode Opcode.dup, .opcode Opcode.pop] = (true, removed) := by
  unfold Method.remove
  rw [matches_eq]
  simp [nestedCopies, removed, coveredBy, Match.nodes, Match.labels, referencedLabels,
    List.range']

theorem matches_removed :
    removed.matches [.opcode Opcode.dup, .opcode Opcode.pop] = [⟨1, 2, 3⟩] := by
  cbv

end nestedCopies

/-- When the inner pair of instructions is removed, the outer one comes together. -/
theorem Method.arises_of_mem_matches_nestedCopies :
    nestedCopies.remove [.opcode Opcode.dup, .opcode Opcode.pop] = (true, nestedCopies.removed) ∧
      nestedCopies.removed.matches [.opcode Opcode.dup, .opcode Opcode.pop] = [⟨1, 2, 3⟩] ∧
      ∃ k, nestedCopies.Arises [.opcode Opcode.dup, .opcode Opcode.pop] k := by
  have hfound : (⟨1, 2, 3⟩ : Match) ∈ (nestedCopies.remove
      [.opcode Opcode.dup, .opcode Opcode.pop]).2.matches [.opcode Opcode.dup, .opcode Opcode.pop] := by
    rw [nestedCopies.remove_eq, nestedCopies.matches_removed]
    exact List.mem_singleton_self _
  obtain ⟨_, k, -, -, arises⟩ := Method.arises_of_mem_matches hfound
  exact ⟨nestedCopies.remove_eq, nestedCopies.matches_removed, k, arises⟩

end Rewire
