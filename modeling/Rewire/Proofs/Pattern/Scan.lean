import Mathlib
import Rewire.Pattern.Window

/-!
# The scan finds windows

The scan for a pattern goes over nodes, windows are about instructions. What joins the two is the
number of instructions before a node. This file shows

* how positions and numbers of instructions belong together (`Method.getElem?_insnNumber`,
  `Method.insnNumber_eq`, `Method.insnPosition_insnNumber`);
* that an attempt from a position succeeds exactly if there is a window at its number, and where it
  ends (`window?_eq`, `matchAt?_eq`);
* that the scan chooses windows greedily (`matchesFrom_eq`), so that the occurrences of a pattern are
  those of the chosen windows (`Method.matches_eq_spans`);
* that every window overlaps a chosen one (`Method.Greedy.exists_overlap`).
-/

namespace Rewire

namespace Method

variable {m : Method} {i j k : Nat}

/-! ## 1. Numbers of instructions -/

/-- Whether the node at a position is an instruction. -/
def holdsInsn (m : Method) (i : Nat) : Bool :=
  (m.nodes[i]?.bind Node.insn?).isSome

/-- The number of instructions before a position. -/
def insnNumber (m : Method) (i : Nat) : Nat :=
  (List.range i).countP m.holdsInsn

theorem holdsInsn_iff : m.holdsInsn i = true ↔ ∃ insn, m.nodes[i]? = some (.insn insn) := by
  unfold holdsInsn
  cases m.nodes[i]? with
  | none => simp
  | some node => cases node <;> simp [Node.insn?]

theorem holdsInsn_eq (h : i < m.nodes.size) : m.holdsInsn i = !m.nodes[i].isMarker := by
  rw [holdsInsn, Array.getElem?_eq_getElem h, Option.bind_some]
  cases m.nodes[i] <;> rfl

theorem lt_size_of_holdsInsn (h : m.holdsInsn i = true) : i < m.nodes.size := by
  obtain ⟨insn, hinsn⟩ := holdsInsn_iff.1 h
  exact (Array.getElem?_eq_some_iff.1 hinsn).1

theorem insnNumber_succ :
    m.insnNumber (i + 1) = m.insnNumber i + if m.holdsInsn i = true then 1 else 0 := by
  rw [insnNumber, List.range_succ, List.countP_append, List.countP_singleton, insnNumber]

theorem insnPositions_eq : m.insnPositions = (List.range m.nodes.size).filter m.holdsInsn := rfl

theorem mem_insnPositions : i ∈ m.insnPositions ↔ m.holdsInsn i = true := by
  rw [insnPositions_eq, List.mem_filter, List.mem_range]
  exact ⟨And.right, fun h => ⟨lt_size_of_holdsInsn h, h⟩⟩

theorem pairwise_insnPositions : m.insnPositions.Pairwise (· < ·) :=
  List.pairwise_lt_range.filter _

theorem insnNumber_size : m.insnNumber m.nodes.size = m.insnPositions.length :=
  List.countP_eq_length_filter

/-- An instruction is found at its number. -/
theorem getElem?_insnNumber (h : m.holdsInsn i = true) :
    m.insnPositions[m.insnNumber i]? = some i := by
  have hsplit : List.range m.nodes.size =
      List.range i ++ i :: List.range' (i + 1) (m.nodes.size - (i + 1)) := by
    have hlt := lt_size_of_holdsInsn h
    have happend := List.range'_append_1 (s := 0) (m := i) (n := m.nodes.size - (i + 1) + 1)
    rw [Nat.zero_add, ← List.range_eq_range', ← List.range_eq_range', List.range'_succ,
      show i + (m.nodes.size - (i + 1) + 1) = m.nodes.size by omega] at happend
    exact happend.symm
  rw [insnPositions_eq, hsplit, List.filter_append, List.filter_cons_of_pos h, insnNumber,
    List.countP_eq_length_filter, List.getElem?_append_right (Nat.le_refl _), Nat.sub_self]
  rfl

/-- The number of an instruction is where it is found. -/
theorem insnNumber_eq (h : m.insnPositions[k]? = some i) : m.insnNumber i = k := by
  have hi := getElem?_insnNumber (mem_insnPositions.1 (List.mem_of_getElem? h))
  obtain ⟨hlt, -⟩ := List.getElem?_eq_some_iff.1 hi
  exact (List.getElem?_inj hlt (pairwise_insnPositions.imp Nat.ne_of_lt)).1 (hi.trans h.symm)

theorem insnPosition_eq (h : m.insnPositions[k]? = some i) : m.insnPosition k = i := by
  rw [insnPosition, h, Option.getD_some]

theorem insnPosition_length : m.insnPosition m.insnPositions.length = m.nodes.size := by
  rw [insnPosition, List.getElem?_eq_none (Nat.le_refl _)]
  rfl

/-- The next instruction from a position on. -/
theorem insnPosition_insnNumber (h : i ≤ m.nodes.size) :
    m.insnPosition (m.insnNumber i) = skipMarkers m.nodes i := by
  fun_induction skipMarkers m.nodes i with
  | case1 i hlt hmarker ih =>
    rw [← ih hlt, insnNumber_succ, holdsInsn_eq hlt, hmarker]
    rfl
  | case2 i hlt hmarker =>
    refine insnPosition_eq (getElem?_insnNumber ?_)
    rw [holdsInsn_eq hlt, Bool.eq_false_iff.2 hmarker]
    rfl
  | case3 i hge =>
    rw [Nat.le_antisymm h (Nat.le_of_not_lt hge), insnNumber_size, insnPosition_length]

theorem insnNumber_insnPosition (h : k ≤ m.insnPositions.length) :
    m.insnNumber (m.insnPosition k) = k := by
  rcases Nat.lt_or_eq_of_le h with hlt | rfl
  · have hposition := List.getElem?_eq_getElem hlt
    rw [insnPosition_eq hposition, insnNumber_eq hposition]
  · rw [insnPosition_length, insnNumber_size]

theorem insnPosition_le : m.insnPosition k ≤ m.nodes.size := by
  by_cases hk : k < m.insnPositions.length
  · have hposition := List.getElem?_eq_getElem hk
    rw [insnPosition_eq hposition]
    exact Nat.le_of_lt (lt_size_of_holdsInsn (mem_insnPositions.1 (List.mem_of_getElem? hposition)))
  · rw [insnPosition, List.getElem?_eq_none (Nat.le_of_not_lt hk)]
    exact Nat.le_refl _

/-- Instructions with ascending numbers are at ascending positions. -/
theorem insnPosition_lt (hjk : j < k) (hj : j < m.insnPositions.length) :
    m.insnPosition j < m.insnPosition k := by
  have hposition := List.getElem?_eq_getElem hj
  rw [insnPosition_eq hposition]
  by_cases hk : k < m.insnPositions.length
  · rw [insnPosition_eq (List.getElem?_eq_getElem hk)]
    exact List.pairwise_iff_getElem.1 pairwise_insnPositions j k hj hk hjk
  · rw [insnPosition, List.getElem?_eq_none (Nat.le_of_not_lt hk)]
    exact lt_size_of_holdsInsn (mem_insnPositions.1 (List.mem_of_getElem? hposition))

/-! ## 2. Windows -/

theorem isWindow_nil : m.IsWindow [] k := by
  refine ⟨by simp [insnWindow], fun pair hpair => ?_⟩
  cases hpair

/-- A window begins with an instruction that satisfies the first predicate. -/
theorem isWindow_cons {p : Predicate} {rest : List Predicate} :
    m.IsWindow (p :: rest) k ↔
      ∃ i, m.insnPositions[k]? = some i ∧ p.test m i = true ∧ m.IsWindow rest (k + 1) := by
  unfold IsWindow insnWindow
  rw [List.length_cons]
  cases hk : m.insnPositions[k]? with
  | none =>
    rw [List.drop_eq_nil_of_le (List.getElem?_eq_none_iff.1 hk)]
    simp
  | some i =>
    obtain ⟨hlt, hi⟩ := List.getElem?_eq_some_iff.1 hk
    rw [List.drop_eq_getElem_cons hlt, hi, List.take_succ_cons, List.zip_cons_cons,
      List.length_cons, List.forall_mem_cons]
    simp only [Nat.add_right_cancel_iff, Option.some.injEq, exists_eq_left']
    tauto

/-- The instructions of a window satisfy the predicates one by one. -/
theorem isWindow_iff {pattern : List Predicate} : m.IsWindow pattern k ↔
    ∀ t p, pattern[t]? = some p → ∃ i, m.insnPositions[k + t]? = some i ∧ p.test m i = true := by
  induction pattern generalizing k with
  | nil => simp [isWindow_nil]
  | cons p rest ih =>
    rw [isWindow_cons, ih]
    constructor
    · rintro ⟨i, hi, hp, hrest⟩ t q hq
      cases t with
      | zero =>
        cases hq
        exact ⟨i, hi, hp⟩
      | succ t =>
        obtain ⟨j, hj, hq⟩ := hrest t q hq
        exact ⟨j, by rw [← hj, Nat.add_assoc, Nat.add_comm 1 t], hq⟩
    · intro h
      obtain ⟨i, hi, hp⟩ := h 0 p rfl
      refine ⟨i, hi, hp, fun t q hq => ?_⟩
      obtain ⟨j, hj, hq⟩ := h (t + 1) q hq
      exact ⟨j, by rw [← hj, Nat.add_assoc, Nat.add_comm 1 t], hq⟩

/-- The instructions of a window exist. -/
theorem IsWindow.lt_length {pattern : List Predicate} (h : m.IsWindow pattern k) {t : Nat}
    (ht : t < pattern.length) : k + t < m.insnPositions.length := by
  obtain ⟨i, hi, -⟩ := isWindow_iff.1 h t _ (List.getElem?_eq_getElem ht)
  exact (List.getElem?_eq_some_iff.1 hi).1

end Method

/-! ## 3. One attempt -/

section Attempt

variable {m : Method} {p : Predicate} {rest : List Predicate} {first i : Nat}

/-- **An attempt succeeds exactly at windows**, and ends at the last instruction. -/
theorem window?_eq (hi : first ≤ i) (hsize : i ≤ m.nodes.size) :
    (window? m first p rest i hi).map Subtype.val =
      if m.IsWindow (p :: rest) (m.insnNumber i)
      then some (m.insnPosition (m.insnNumber i + rest.length)) else none := by
  fun_induction window? m first p rest i hi with
  | case1 p rest i hi hlt hmarker ih =>
    rw [ih hlt, Method.insnNumber_succ, Method.holdsInsn_eq hlt, hmarker]
    rfl
  | case2 p i hi hlt hmarker htest =>
    have hinsn : m.holdsInsn i = true := by rw [Method.holdsInsn_eq hlt]; simpa using hmarker
    have hnumber := Method.getElem?_insnNumber hinsn
    rw [if_pos (Method.isWindow_cons.2 ⟨i, hnumber, htest, Method.isWindow_nil⟩)]
    exact congrArg some (Method.insnPosition_eq hnumber).symm
  | case3 p i hi hlt hmarker htest q rest ih =>
    have hinsn : m.holdsInsn i = true := by rw [Method.holdsInsn_eq hlt]; simpa using hmarker
    have hnumber := Method.getElem?_insnNumber hinsn
    have hwindow : m.IsWindow (p :: q :: rest) (m.insnNumber i) ↔
        m.IsWindow (q :: rest) (m.insnNumber i + 1) := by
      rw [Method.isWindow_cons]
      exact ⟨fun ⟨_, _, _, h⟩ => h, fun h => ⟨i, hnumber, htest, h⟩⟩
    rw [ih hlt, Method.insnNumber_succ, if_pos hinsn, List.length_cons]
    simp only [hwindow, Nat.add_assoc, Nat.add_comm 1]
  | case4 p rest i hi hlt hmarker htest =>
    have hinsn : m.holdsInsn i = true := by rw [Method.holdsInsn_eq hlt]; simpa using hmarker
    rw [if_neg]
    · rfl
    · rw [Method.isWindow_cons]
      rintro ⟨j, hj, hp, -⟩
      cases (Method.getElem?_insnNumber hinsn).symm.trans hj
      exact htest hp
  | case5 p rest i hi hge =>
    rw [if_neg]
    · rfl
    · rw [Method.isWindow_cons, Nat.le_antisymm hsize (Nat.le_of_not_lt hge), Method.insnNumber_size]
      rintro ⟨j, hj, -⟩
      rw [List.getElem?_eq_none (Nat.le_refl _)] at hj
      cases hj

/-- The occurrence that starts at a position. -/
theorem matchAt?_eq (hsize : first ≤ m.nodes.size) :
    (matchAt? m p rest first).map Subtype.val =
      if m.IsWindow (p :: rest) (m.insnNumber first)
      then some
        { first
          last := m.insnPosition (m.insnNumber first + rest.length)
          stop := m.insnPosition (m.insnNumber first + (rest.length + 1)) }
      else none := by
  have hattempt : (window? m first p rest first (Nat.le_refl first)).map Subtype.val = _ :=
    window?_eq (Nat.le_refl first) hsize
  unfold matchAt?
  by_cases hwindow : m.IsWindow (p :: rest) (m.insnNumber first)
  · rw [if_pos hwindow] at hattempt ⊢
    obtain ⟨⟨last, hfirst, hlast⟩, hfound, rfl⟩ := Option.map_eq_some_iff.1 hattempt
    have hlength := hwindow.lt_length (Nat.lt_succ_self rest.length)
    have hposition := List.getElem?_eq_getElem hlength
    rw [hfound]
    simp only [Option.map_some, ← Method.insnPosition_insnNumber hlast]
    rw [Method.insnNumber_succ, Method.insnPosition_eq hposition, Method.insnNumber_eq hposition,
      if_pos (Method.mem_insnPositions.1 (List.mem_of_getElem? hposition)), Nat.add_assoc]
  · rw [if_neg hwindow] at hattempt ⊢
    rw [Option.map_eq_none_iff.1 hattempt]
    rfl

end Attempt

/-! ## 4. The scan -/

namespace Method

variable {m : Method} {pattern : List Predicate} {start width i k : Nat}

/-- An occurrence begins at its window where the last one ended. -/
theorem first_span_restart (hk : 0 < k) : (m.span width k k).first = m.insnPosition k := by
  rw [span, if_neg (Nat.ne_of_gt hk), if_pos rfl]

/-- An occurrence begins behind the instruction before its window elsewhere. -/
theorem first_span_succ (hk : start ≤ k) :
    (m.span width start (k + 1)).first = m.insnPosition k + 1 := by
  rw [span, if_neg (Nat.succ_ne_zero k), if_neg (Nat.ne_of_gt (Nat.lt_succ_of_le hk)),
    Nat.add_sub_cancel]

/-- How far a scan that looks for windows from number `start` on has come at a position: there are
    none before it, and either the position is where the span of the next window begins or there is
    no window at its number. -/
structure ScannedTo (m : Method) (pattern : List Predicate) (start i : Nat) : Prop where
  behind : start ≤ m.insnNumber i
  exhausted : ∀ k, start ≤ k → k < m.insnNumber i → ¬ m.IsWindow pattern k
  first : i = (m.span pattern.length start (m.insnNumber i)).first ∨
    ¬ m.IsWindow pattern (m.insnNumber i)

namespace ScannedTo

theorem zero : m.ScannedTo pattern 0 0 where
  behind := Nat.le_refl 0
  exhausted := fun k _ hk => absurd hk (Nat.not_lt_zero k)
  first := .inl rfl

/-- The scan goes on at the next node where there is no window. -/
theorem succ (h : m.ScannedTo pattern start i) (hnone : ¬ m.IsWindow pattern (m.insnNumber i)) :
    m.ScannedTo pattern start (i + 1) := by
  by_cases hinsn : m.holdsInsn i = true
  · have hnumber : m.insnNumber (i + 1) = m.insnNumber i + 1 := by
      rw [insnNumber_succ, if_pos hinsn]
    refine ⟨by rw [hnumber]; exact Nat.le_succ_of_le h.behind, fun k hk hlt => ?_, .inl ?_⟩
    · rw [hnumber] at hlt
      rcases Nat.lt_succ_iff_lt_or_eq.1 hlt with hlt | rfl
      · exact h.exhausted k hk hlt
      · exact hnone
    · rw [hnumber, first_span_succ h.behind, insnPosition_eq (getElem?_insnNumber hinsn)]
  · have hnumber : m.insnNumber (i + 1) = m.insnNumber i := by
      rw [insnNumber_succ, if_neg hinsn, Nat.add_zero]
    exact ⟨hnumber ▸ h.behind, hnumber ▸ h.exhausted, .inr (hnumber ▸ hnone)⟩

/-- The scan goes on behind an occurrence. -/
theorem restart (hpos : 0 < k) (hk : k ≤ m.insnPositions.length) :
    m.ScannedTo pattern k (m.insnPosition k) := by
  have hnumber := insnNumber_insnPosition hk
  refine ⟨Nat.le_of_eq hnumber.symm, fun j hj hlt => ?_, .inl ?_⟩
  · exact absurd (hnumber ▸ hlt) (Nat.not_lt.2 hj)
  · rw [hnumber, first_span_restart hpos]

/-- **An occurrence is found exactly at windows**, with the span of the window. -/
theorem matchAt?_eq {p : Predicate} {rest : List Predicate} (h : m.ScannedTo (p :: rest) start i)
    (hsize : i ≤ m.nodes.size) :
    (matchAt? m p rest i).map Subtype.val =
      if m.IsWindow (p :: rest) (m.insnNumber i)
      then some (m.span (rest.length + 1) start (m.insnNumber i)) else none := by
  rw [Rewire.matchAt?_eq hsize]
  by_cases hwindow : m.IsWindow (p :: rest) (m.insnNumber i)
  · have hfirst := h.first.resolve_right (not_not_intro hwindow)
    rw [if_pos hwindow, if_pos hwindow, Option.some.injEq]
    exact congrArg (fun first => Match.mk first _ _) hfirst
  · rw [if_neg hwindow, if_neg hwindow]

end ScannedTo

end Method

/-- **The scan chooses windows greedily**, and gives the occurrences of the windows it chooses. -/
theorem matchesFrom_eq {m : Method} {p : Predicate} {rest : List Predicate} {done : Array Match}
    {start first : Nat} (h : m.ScannedTo (p :: rest) start first) (hsize : first ≤ m.nodes.size) :
    ∃ ks, m.Greedy (p :: rest) start ks ∧
      (matchesFrom m p rest done first).toList =
        done.toList ++ m.spans (rest.length + 1) start ks := by
  fun_induction matchesFrom m p rest done first generalizing start with
  | case1 done first hlt found hgoes hmatch ih =>
    have hfound := h.matchAt?_eq hsize
    rw [hmatch] at hfound
    by_cases hwindow : m.IsWindow (p :: rest) (m.insnNumber first)
    · rw [if_pos hwindow] at hfound
      have hspan : found = m.span (rest.length + 1) start (m.insnNumber first) :=
        Option.some.inj hfound
      have hstop : found.stop = m.insnPosition (m.insnNumber first + (rest.length + 1)) :=
        congrArg Match.stop hspan
      have hlength := hwindow.lt_length (Nat.lt_succ_self rest.length)
      rw [hstop] at ih
      obtain ⟨ks, greedy, hks⟩ := ih (.restart (by omega) hlength) Method.insnPosition_le
      refine ⟨m.insnNumber first :: ks, .next h.behind hwindow h.exhausted greedy, ?_⟩
      rw [hstop, hks, Array.toList_push, Method.spans, hspan, List.append_assoc]
      rfl
    · rw [if_neg hwindow] at hfound
      cases hfound
  | case2 done first hlt hmatch ih =>
    have hfound := h.matchAt?_eq hsize
    rw [hmatch] at hfound
    have hnone : ¬ m.IsWindow (p :: rest) (m.insnNumber first) := by
      intro hwindow
      rw [if_pos hwindow] at hfound
      cases hfound
    exact ih (h.succ hnone) hlt
  | case3 done first hge =>
    refine ⟨[], .done fun k hk hwindow => ?_, (List.append_nil _).symm⟩
    rcases Nat.lt_or_ge k (m.insnNumber first) with hlt | hge'
    · exact h.exhausted k hk hlt hwindow
    · have hlength := hwindow.lt_length (Nat.succ_pos rest.length)
      rw [Nat.le_antisymm hsize (Nat.le_of_not_lt hge), Method.insnNumber_size] at hge'
      omega

namespace Method

variable {m : Method} {pattern : List Predicate} {start k : Nat} {ks : List Nat}

/-- A scan from the beginning finds the windows that are chosen. -/
theorem exists_greedy (p : Predicate) (rest : List Predicate) :
    ∃ ks, m.Greedy (p :: rest) 0 ks ∧ m.matches (p :: rest) = m.spans (rest.length + 1) 0 ks :=
  matchesFrom_eq .zero (Nat.zero_le _)

/-- **The occurrences of a pattern are those of the windows that are chosen from left to right**: the
    least window, then the least one after its end, and so on. The nodes of an occurrence are those
    from `first` to before `stop`, which are the span of its window. -/
theorem matches_eq_spans (m : Method) :
    m.matches [] = [] ∧ ∀ (p : Predicate) (rest : List Predicate),
      ∃ ks, m.Greedy (p :: rest) 0 ks ∧
        m.matches (p :: rest) = m.spans (rest.length + 1) 0 ks :=
  ⟨rfl, exists_greedy⟩

/-! ## 5. Windows and occurrences -/

/-- Every window overlaps a chosen one. -/
theorem Greedy.exists_overlap (h : m.Greedy pattern start ks) (behind : start ≤ k)
    (window : m.IsWindow pattern k) (hpattern : pattern ≠ []) :
    ∃ j ∈ ks, m.IsWindow pattern j ∧ j < k + pattern.length ∧ k < j + pattern.length := by
  have hlength := List.length_pos_of_ne_nil hpattern
  induction h with
  | done exhausted => exact absurd window (exhausted k behind)
  | @next start j rest hj hwindow least _ ih =>
    have hle : j ≤ k := Nat.le_of_not_lt fun hlt => least k behind hlt window
    rcases Nat.lt_or_ge k (j + pattern.length) with hlt | hge
    · exact ⟨j, List.mem_cons_self, hwindow, by omega, hlt⟩
    · obtain ⟨j', hj', hoverlap⟩ := ih hge
      exact ⟨j', List.mem_cons_of_mem _ hj', hoverlap⟩

/-- A span starts no later than its window. -/
theorem first_span_le {width : Nat} (hk : k < m.insnPositions.length) :
    (m.span width start k).first ≤ m.insnPosition k := by
  unfold span
  simp only
  split
  · exact Nat.zero_le _
  · split
    · exact Nat.le_refl _
    · exact insnPosition_lt (by omega) (by omega)

/-- A span takes the instructions of its window. -/
theorem mem_nodes_span {width j i : Nat} (hi : m.insnPositions[j]? = some i) (hk : k ≤ j)
    (hj : j < k + width) : i ∈ (m.span width start k).nodes := by
  have hlength := (List.getElem?_eq_some_iff.1 hi).1
  have hfirst : (m.span width start k).first ≤ m.insnPosition k := first_span_le (by omega)
  have hle : m.insnPosition k ≤ i := by
    rw [← insnPosition_eq hi]
    rcases Nat.lt_or_eq_of_le hk with hlt | rfl
    · exact Nat.le_of_lt (insnPosition_lt hlt (by omega))
    · exact Nat.le_refl _
  have hlt : i < (m.span width start k).stop := by
    rw [← insnPosition_eq hi]
    exact insnPosition_lt hj hlength
  refine List.mem_range'_1.2 ⟨by omega, by omega⟩

theorem exists_span {width : Nat} (hk : k ∈ ks) :
    ∃ start', m.span width start' k ∈ m.spans width start ks := by
  induction ks generalizing start with
  | nil => cases hk
  | cons j rest ih =>
    rcases List.mem_cons.1 hk with rfl | hk
    · exact ⟨start, List.mem_cons_self⟩
    · obtain ⟨start', hspan⟩ : ∃ start', m.span width start' k ∈ m.spans width (j + width) rest :=
        ih hk
      exact ⟨start', List.mem_cons_of_mem _ hspan⟩

theorem Greedy.of_mem_spans (h : m.Greedy pattern start ks) {found : Match}
    (hfound : found ∈ m.spans pattern.length start ks) :
    ∃ start' k, m.IsWindow pattern k ∧ found = m.span pattern.length start' k := by
  induction h with
  | done => cases hfound
  | next _ window _ _ ih =>
    rcases List.mem_cons.1 hfound with rfl | hfound
    · exact ⟨_, _, window, rfl⟩
    · exact ih hfound

/-- An occurrence is the span of a window. -/
theorem exists_window {found : Match} (h : found ∈ m.matches pattern) :
    ∃ start k, m.IsWindow pattern k ∧ found = m.span pattern.length start k := by
  cases pattern with
  | nil => cases h
  | cons p rest =>
    obtain ⟨ks, greedy, hmatches⟩ := exists_greedy (m := m) p rest
    rw [hmatches] at h
    exact greedy.of_mem_spans h

/-- **Every window shares an instruction with an occurrence.** -/
theorem IsWindow.exists_match (window : m.IsWindow pattern k) (hpattern : pattern ≠ []) :
    ∃ found ∈ m.matches pattern, ∃ t < pattern.length, ∃ i, m.insnPositions[k + t]? = some i ∧
      i ∈ found.nodes := by
  obtain ⟨p, rest, rfl⟩ := List.exists_cons_of_ne_nil hpattern
  obtain ⟨ks, greedy, hmatches⟩ := exists_greedy (m := m) p rest
  obtain ⟨j, hj, hwindow, hjk, hkj⟩ := greedy.exists_overlap (Nat.zero_le k) window hpattern
  obtain ⟨start, hspan⟩ : ∃ start, m.span (rest.length + 1) start j ∈
      m.spans (rest.length + 1) 0 ks := exists_span hj
  rw [← hmatches] at hspan
  -- the later one of the two windows starts in the other
  obtain ⟨t, ht, hjt, hlt⟩ : ∃ t < (p :: rest).length, j ≤ k + t ∧ k + t < j + (rest.length + 1) := by
    rw [List.length_cons] at *
    rcases Nat.le_total j k with hle | hle
    · exact ⟨0, by omega, hle, hkj⟩
    · exact ⟨j - k, by omega, by omega, by omega⟩
  have hposition := List.getElem?_eq_getElem (window.lt_length ht)
  exact ⟨_, hspan, t, ht, _, hposition, mem_nodes_span hposition hjt hlt⟩

end Method

end Rewire
