import Mathlib
import Rewire.Proofs.Code.Labelled
import Rewire.Proofs.Code.LabelFaults
import Rewire.Proofs.Pattern.Edit
import Rewire.Proofs.Redirect.Calls
import Rewire.Transform.History

/-!
# Labels under edits

A decoded method places the labels below its counter, once each, and refers to no others. Labels
are handed out from the counter on, until it has come to the last number of a 32-bit word. This file
shows

* what handing out a label does, and when it fails (`Method.eq_of_freshLabel`,
  `Method.exists_freshLabel_iff`);
* the invariant of editing (`EditState.LabelsInOrder`), that a decoded method begins with it
  (`labelsInOrder_of_decode`) and that every edit keeps it, as long as what is injected jumps to
  labels that are there (`EditState.LabelsInOrder.perform`);
* what holds at the end of every history (`History.labels_of_decode`): the labels are in order, those
  handed out are new, assembling does not fail over labels, and one more label is handed out unless
  the numbers are used up.
-/

namespace Rewire

/-! ## 1. Handing out labels -/

namespace Method

variable {m m' : Method} {l : Label}

/-- The label handed out has the number of the counter, which goes on by one. -/
theorem eq_of_freshLabel (h : m.freshLabel = .ok (l, m')) :
    ∃ next : UInt32, next.toNat = m.nextLabel.toNat + 1 ∧ l = ⟨m.nextLabel.toNat⟩ ∧
      m' = { m with nextLabel := next } := by
  obtain ⟨next, hnext, h⟩ := bind_eq_ok.1 h
  cases h
  exact ⟨next, addWord32_eq_ok.1 hnext, rfl, rfl⟩

/-- A label is handed out unless there is no number behind it. -/
theorem exists_freshLabel_iff :
    (∃ out, m.freshLabel = .ok out) ↔ m.nextLabel.toNat < 0xffffffff := by
  constructor
  · rintro ⟨⟨l, m'⟩, h⟩
    obtain ⟨next, hnext, -, -⟩ := eq_of_freshLabel h
    have hlt := next.toNat_lt
    omega
  · intro hlt
    have hnext : (UInt32.ofNat (m.nextLabel.toNat + 1)).toNat = m.nextLabel.toNat + 1 :=
      toNat_ofNat32 (by omega)
    exact ⟨_, bind_eq_ok.2 ⟨_, addWord32_eq_ok.2 hnext, rfl⟩⟩

end Method

/-! ## 2. The invariant -/

/-- What holds of the labels of a method that first had `n` of them. -/
structure EditState.LabelsInOrder (n : Nat) (s : EditState) : Prop where
  distinct : s.method.LabelsDistinct
  placed : s.method.LabelsPlaced
  below : ∀ l ∈ s.method.placedLabels, l.id < n
  counter : s.method.nextLabel.toNat = n + s.taken.length
  taken : s.taken.reverse = (List.range' n s.taken.length).map Label.mk

namespace EditState.LabelsInOrder

variable {n : Nat} {s t : EditState}

/-- A change that places some of the labels and leaves the counter alone keeps the order. -/
theorem of_sublist (h : s.LabelsInOrder n) {m : Method}
    (hplaced : List.Sublist m.placedLabels s.method.placedLabels) (all : m.LabelsPlaced)
    (hcounter : m.nextLabel = s.method.nextLabel) :
    EditState.LabelsInOrder n { s with method := m } where
  distinct := h.distinct.sublist hplaced
  placed := all
  below l hl := h.below l (hplaced.subset hl)
  counter := hcounter ▸ h.counter
  taken := h.taken

/-- **An edit keeps the labels in order.** -/
theorem perform (h : s.LabelsInOrder n) {e : Edit} (may : e.JumpsToPlaced s.method)
    (done : e.perform s = .ok t) : t.LabelsInOrder n := by
  cases e with
  | inject pattern generate =>
    cases done
    have hsame : (s.method.inject pattern generate).2.placedLabels = s.method.placedLabels :=
      Method.placedLabels_inject
    refine h.of_sublist (hsame ▸ List.Sublist.refl _) (fun l hl => ?_) Method.nextLabel_inject
    rw [hsame]
    rcases Method.mem_references_inject hl with hold | ⟨k, i, hi, hl⟩
    · exact h.placed l hold
    · exact may k i hi l hl
  | remove pattern =>
    cases done
    exact h.of_sublist Method.placedLabels_remove h.placed.remove Method.nextLabel_remove
  | redirect className table filter =>
    obtain ⟨summary, hresult, rfl⟩ := map_eq_ok.1 done
    have hsame := placedLabels_redirectCalls hresult
    refine h.of_sublist (hsame ▸ List.Sublist.refl _) (fun l hl => ?_) ?_
    · rw [hsame]
      exact h.placed l (references_redirectCalls hresult hl)
    · obtain ⟨_, -, hmethod⟩ := redirectCalls_eq_ok hresult
      rw [hmethod]
  | takeLabel =>
    obtain ⟨⟨l, m⟩, hfresh, done⟩ := bind_eq_ok.1 done
    cases done
    obtain ⟨next, hnext, rfl, rfl⟩ := Method.eq_of_freshLabel hfresh
    refine ⟨h.distinct, h.placed, h.below, ?_, ?_⟩
    · show next.toNat = n + (s.taken.length + 1)
      rw [hnext, h.counter, Nat.add_assoc]
    · show (⟨s.method.nextLabel.toNat⟩ :: s.taken).reverse = _
      rw [List.reverse_cons, h.taken, h.counter, List.length_cons, List.range'_concat,
        List.map_append]
      simp

end EditState.LabelsInOrder

/-- **A history of edits keeps the labels in order.** -/
theorem History.labelsInOrder {n : Nat} {s t : EditState} (run : History Edit.JumpsToPlaced s t)
    (h : s.LabelsInOrder n) : t.LabelsInOrder n := by
  induction run with
  | start => exact h
  | edit _ may done ih => exact ih.perform may done

/-- Decoding puts the labels in order. -/
theorem labelsInOrder_of_decode {pool : ConstantPool} {blank m : Method} {body : Bytes}
    (h : decodeMethod pool blank body = .ok m) :
    EditState.LabelsInOrder m.nextLabel.toNat { method := m } := by
  have hplaced := placedLabels_of_decode h
  have hmem : ∀ l : Label, l ∈ m.placedLabels ↔ l.id < m.nextLabel.toNat := by
    intro l
    rw [hplaced, List.mem_map]
    constructor
    · rintro ⟨k, hk, rfl⟩
      exact List.mem_range.1 hk
    · exact fun hl => ⟨l.id, List.mem_range.2 hl, rfl⟩
  refine ⟨?_, fun l hl => (hmem l).2 (lt_of_mem_references h hl), fun l => (hmem l).1, rfl, rfl⟩
  rw [Method.LabelsDistinct, hplaced]
  exact List.nodup_range.map fun _ _ heq => congrArg Label.id heq

/-! ## 3. Whole histories -/

/-- **After every history of edits of a decoded method** the labels are placed once and those
    referred to are placed; the labels handed out are the next numbers, so they differ from each
    other and from all labels placed or referred to; assembling does not fail over labels; and one
    more label is handed out exactly if its number and the next one are 32-bit words. -/
theorem History.labels_of_decode {pool : ConstantPool} {blank m : Method} {body : Bytes}
    (h : decodeMethod pool blank body = .ok m) {s : EditState}
    (run : History Edit.JumpsToPlaced { method := m } s) :
    s.method.LabelsDistinct ∧ s.method.LabelsPlaced ∧ s.taken.Nodup ∧
      (∀ l ∈ s.taken, l ∉ s.method.placedLabels ∧ l ∉ s.method.references) ∧
      s.taken.reverse = (List.range' m.nextLabel.toNat s.taken.length).map Label.mk ∧
      (∀ (p p' : ConstantPool) (log log' : Log) (f : Failure),
        assemble s.method p log = ((.error f, p'), log') → ¬ f.fault.IsOfLabels) ∧
      ((∃ t, Edit.takeLabel.perform s = .ok t) ↔
        m.nextLabel.toNat + s.taken.length < 0xffffffff) := by
  have order := run.labelsInOrder (labelsInOrder_of_decode h)
  have hnodup : s.taken.Nodup := by
    rw [← List.nodup_reverse, order.taken]
    exact (List.nodup_range' 1).map fun _ _ heq => congrArg Label.id heq
  have hfresh : ∀ l ∈ s.taken, l ∉ s.method.placedLabels := by
    intro l hl hplaced
    rw [← List.mem_reverse, order.taken, List.mem_map] at hl
    obtain ⟨k, hk, rfl⟩ := hl
    have hbelow : k < m.nextLabel.toNat := order.below _ hplaced
    exact absurd (List.mem_range'_1.1 hk).1 (Nat.not_le.2 hbelow)
  refine ⟨order.distinct, order.placed, hnodup,
    fun l hl => ⟨hfresh l hl, fun hreferred => hfresh l hl (order.placed l hreferred)⟩,
    order.taken, fun p p' log log' f hf => ?_, ?_⟩
  · refine (assemble_sparesLabels order.distinct order.placed p log).other f ?_
    rw [hf]
  · rw [← order.counter, ← Method.exists_freshLabel_iff]
    constructor
    · rintro ⟨t, ht⟩
      obtain ⟨out, hout, -⟩ := bind_eq_ok.1 ht
      exact ⟨out, hout⟩
    · rintro ⟨out, hout⟩
      exact ⟨_, bind_eq_ok.2 ⟨out, hout, rfl⟩⟩

/-! ## 4. A loop -/

section Loop

/-- The body of a loop that drops a value and starts again. -/
def poppingBody : Bytes :=
  [0, 1, 0, 0, 0, 0, 0, 4, Opcode.pop, Opcode.goto, 0xff, 0xff, 0, 0, 0, 0]

/-- The loop, read. -/
def poppingLoop : Method where
  name := ""
  descriptor := ""
  flags := 0
  nodes := #[.label ⟨0⟩, .insn (.simple Opcode.pop), .insn (.jump Opcode.goto ⟨0⟩)]
  origin := some {
    maxStack := 1, maxLocals := 0, codeLength := 4, labelOffsets := [(⟨0⟩, 0)], attributes := [] }
  nextLabel := 1

theorem decodeMethod_poppingBody : decodeMethod .empty default poppingBody = .ok poppingLoop := by
  have htable : labelTable (numberLabels [0]) = (∅ : LabelTable).insert 0 ⟨0⟩ :=
    Std.HashMap.ofList_singleton
  have hread : CodeParts.read .empty poppingBody = .ok {
      maxStack := 1, maxLocals := 0, code := #[Opcode.pop, Opcode.goto, 0xff, 0xff]
      handlers := [] } := by cbv
  have hscan : scanCode #[Opcode.pop, Opcode.goto, 0xff, 0xff] =
      .ok { starts := #[0, 1], targets := #[0] } := by
    refine scanFrom_of_insn 1 [] rfl (by decide) (by decide) rfl ?_
    refine scanFrom_of_insn 3 [0] rfl (by decide) (by decide) rfl ?_
    exact scanFrom_of_end (by decide)
  have hoffsets : labelledOffsets {
      maxStack := 1, maxLocals := 0, code := #[Opcode.pop, Opcode.goto, 0xff, 0xff]
      handlers := [] } { starts := #[0, 1], targets := #[0] } = .ok [0] := by
    refine labelledOffsets_eq_ok.2 ⟨?_, ?_⟩
    · decide
    · decide
  refine decodeMethod_eq_ok.2 ⟨_, _, [0], [[.label ⟨0⟩, .insn (.simple Opcode.pop)],
    [.insn (.jump Opcode.goto ⟨0⟩)]], [], [], [], hread, hscan, hoffsets, ?_, ?_, ?_, ?_, ?_⟩
  · rw [htable]
    cbv
  · rw [htable]
    cbv
  · rw [htable]
    cbv
  · rw [htable]
    cbv
  · rw [htable]
    cbv

/-- The loop under edit, by the nodes after its start and the number of its next label. -/
def editedLoop (nodes : List Insn) (next : UInt32) : Method :=
  { poppingLoop with
    nodes := (.label ⟨0⟩ :: nodes.map Node.insn).toArray, modified := true, nextLabel := next }

/-- One more jump after the value is dropped. -/
theorem inject_poppingLoop :
    ({ poppingLoop with nextLabel := 2 }.inject [.opcode Opcode.pop]
      fun _ => [.jump Opcode.goto ⟨0⟩]).2 =
        editedLoop [.simple Opcode.pop, .jump Opcode.goto ⟨0⟩, .jump Opcode.goto ⟨0⟩] 2 := by
  have hmatches : { poppingLoop with nextLabel := 2 }.matches [.opcode Opcode.pop] =
      [⟨0, 1, 2⟩] := by cbv
  unfold Method.inject
  rw [hmatches]
  simp only [List.zipIdx_singleton, List.map_singleton]
  rw [Std.HashMap.ofList_singleton]
  cbv

/-- The value dropped and the first jump go. The start stays: the other jump leads there. -/
theorem remove_editedLoop :
    ((editedLoop [.simple Opcode.pop, .jump Opcode.goto ⟨0⟩, .jump Opcode.goto ⟨0⟩] 2).remove
      [.opcode Opcode.pop, .opcode Opcode.goto]).2 = editedLoop [.jump Opcode.goto ⟨0⟩] 2 := by
  have hmatches : (editedLoop [.simple Opcode.pop, .jump Opcode.goto ⟨0⟩, .jump Opcode.goto ⟨0⟩]
      2).matches [.opcode Opcode.pop, .opcode Opcode.goto] = [⟨0, 2, 3⟩] := by cbv
  unfold Method.remove
  rw [hmatches]
  simp [editedLoop, poppingLoop, coveredBy, Match.nodes, Match.labels, referencedLabels,
    Node.targets, Insn.targets, List.range']

/-- A label is taken, a jump added, calls are redirected, the first jump removed, a label taken. -/
theorem labels_of_decode_poppingBody :
    decodeMethod .empty default poppingBody = .ok poppingLoop ∧
      History Edit.JumpsToPlaced { method := poppingLoop }
        { method := editedLoop [.jump Opcode.goto ⟨0⟩] 3, taken := [⟨2⟩, ⟨1⟩] } ∧
      (∀ l ∈ [⟨2⟩, ⟨1⟩], l ∉ (editedLoop [.jump Opcode.goto ⟨0⟩] 3).placedLabels ∧
        l ∉ (editedLoop [.jump Opcode.goto ⟨0⟩] 3).references) ∧
      (∀ (p p' : ConstantPool) (log log' : Log) (f : Failure),
        assemble (editedLoop [.jump Opcode.goto ⟨0⟩] 3) p log = ((.error f, p'), log') →
          ¬ f.fault.IsOfLabels) ∧
      ∃ t, Edit.takeLabel.perform
        ⟨editedLoop [.jump Opcode.goto ⟨0⟩] 3, [⟨2⟩, ⟨1⟩]⟩ = .ok t := by
  have inject : (Edit.inject [.opcode Opcode.pop] fun _ => [.jump Opcode.goto ⟨0⟩]).perform
      { method := { poppingLoop with nextLabel := 2 }, taken := [⟨1⟩] } = .ok
        ⟨editedLoop [.simple Opcode.pop, .jump Opcode.goto ⟨0⟩, .jump Opcode.goto ⟨0⟩] 2, [⟨1⟩]⟩ := by
    rw [Edit.perform, inject_poppingLoop]
  have redirect : (Edit.redirect "A" ⟨∅⟩ {}).perform
      ⟨editedLoop [.simple Opcode.pop, .jump Opcode.goto ⟨0⟩, .jump Opcode.goto ⟨0⟩] 2, [⟨1⟩]⟩ = .ok
        ⟨editedLoop [.simple Opcode.pop, .jump Opcode.goto ⟨0⟩, .jump Opcode.goto ⟨0⟩] 2, [⟨1⟩]⟩ := by
    cbv
  have remove : (Edit.remove [.opcode Opcode.pop, .opcode Opcode.goto]).perform
      ⟨editedLoop [.simple Opcode.pop, .jump Opcode.goto ⟨0⟩, .jump Opcode.goto ⟨0⟩] 2, [⟨1⟩]⟩ =
        .ok ⟨editedLoop [.jump Opcode.goto ⟨0⟩] 2, [⟨1⟩]⟩ := by
    rw [Edit.perform, remove_editedLoop]
  have run : History Edit.JumpsToPlaced { method := poppingLoop }
      ⟨editedLoop [.jump Opcode.goto ⟨0⟩] 3, [⟨2⟩, ⟨1⟩]⟩ := by
    refine .edit (.edit (.edit (.edit (.edit (.start _) (e := .takeLabel) trivial rfl) ?_ inject)
      ?_ redirect) ?_ remove) (e := .takeLabel) trivial rfl
    case refine_2 | refine_3 => trivial
    intro _ i hi l hl
    rw [List.mem_singleton.1 hi] at hl
    rw [List.mem_singleton.1 hl]
    exact List.mem_singleton_self _
  obtain ⟨-, -, -, hfresh, -, hspares, hnext⟩ := run.labels_of_decode decodeMethod_poppingBody
  exact ⟨decodeMethod_poppingBody, run, hfresh, hspares, hnext.2 (by decide)⟩

end Loop

end Rewire
