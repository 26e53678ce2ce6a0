import Mathlib
import Rewire.Proofs.Code.Runs
import Rewire.Proofs.Descriptor.Reading
import Rewire.Proofs.Redirect.Calls

/-!
# The stack depth of redirected methods

Redirection puts a run of nodes with the same effect on the stack in place of each node, so the
stack walk comes to the same depth. This file shows

* that a stub is a run with the effect of its call (`exists_effects_of_stubFor`), and that every
  treatment is one (`Treatment.IsOf.hasRun`);
* that redirection keeps the limit of the stack (`maxStack_redirectCalls`), whatever the control
  flow is, and fails to find one for the same reason.
-/

namespace Rewire

/-! ## 1. Stubs -/

section Stubs

/-- What the instructions of a stub do to the stack. -/
def SimpleEffects (opcodes : List UInt8) (effects : List StackEffect) : Prop :=
  List.Forall₂ (fun i e => stackEffect i = .ok e) (opcodes.map Insn.simple) effects

theorem SimpleEffects.append {opcodes more : List UInt8} {effects others : List StackEffect}
    (h : SimpleEffects opcodes effects) (h' : SimpleEffects more others) :
    SimpleEffects (opcodes ++ more) (effects ++ others) := by
  unfold SimpleEffects
  rw [List.map_append]
  exact List.rel_append h h'

/-- Dropping values pops their widths. -/
theorem exists_popEffects (categories : List Category) :
    ∃ widths, SimpleEffects (categories.filterMap Category.popOpcode?) (popEffects widths) ∧
      widths.sum = (categories.map Category.width).sum := by
  induction categories with
  | nil => exact ⟨[], .nil, rfl⟩
  | cons c rest ih =>
    obtain ⟨widths, heffects, hsum⟩ := ih
    by_cases hvoid : c = .void
    · exact ⟨widths, by rwa [hvoid], by simp [hsum, hvoid, Category.width]⟩
    · refine ⟨c.width :: widths, ?_, by rw [List.sum_cons, hsum, List.map_cons, List.sum_cons]⟩
      cases c with
      | void => exact absurd rfl hvoid
      | long | double => exact .cons rfl heffects
      | int | float | reference => exact .cons rfl heffects

/-- The zero of a category is pushed in its width. -/
theorem exists_pushEffects (c : Category) :
    ∃ pushed, SimpleEffects c.zeroOpcode?.toList pushed ∧
      (pushed = [] ∧ c.width = 0 ∨ pushed = [⟨0, c.width⟩]) := by
  cases c with
  | void => exact ⟨[], .nil, .inl ⟨rfl, rfl⟩⟩
  | int | long | float | double | reference => exact ⟨[⟨0, _⟩], .cons rfl .nil, .inr rfl⟩

/-- **A stub has the effect of its call**, in as many steps as it has instructions, if a 16-bit word
    counts the words of the arguments. -/
theorem exists_effects_of_stubFor {site : CallSite} {insns : List Insn}
    (h : stubFor site = .ok insns)
    (few : ∀ d, Descriptor.parse site.descriptor = .ok d → d.argumentWords ≤ 0xffff) :
    ∃ e effects, stackEffect (.call site) = .ok e ∧
      List.Forall₂ (fun i e => stackEffect i = .ok e) insns effects ∧ e.IsOfRun effects := by
  obtain ⟨d, hd, h⟩ := bind_eq_ok.1 h
  cases h
  obtain ⟨widths, hpops, hsum⟩ := exists_popEffects d.arguments.reverse
  obtain ⟨pushed, hpushes, hpushed⟩ := exists_pushEffects d.result
  obtain ⟨width, hwidth, hwords⟩ := d.exists_argumentWidth (few d hd)
  rw [List.map_reverse, List.sum_reverse] at hsum
  let receiver : List Nat := if site.isStatic then [] else [1]
  have hreceiver : SimpleEffects (if site.isStatic then [] else [Opcode.pop])
      (popEffects receiver) := by
    simp only [receiver]
    split
    · exact .nil
    · exact .cons rfl .nil
  refine ⟨⟨width.toNat + if site.isStatic then 0 else 1, d.result.width⟩,
    popEffects (widths ++ receiver) ++ pushed, ?_, ?_, widths ++ receiver, pushed, rfl, ?_,
    hpushed⟩
  · exact bind_eq_ok.2 ⟨d, hd, bind_eq_ok.2 ⟨width, hwidth, rfl⟩⟩
  · have hall := (hpops.append hreceiver).append hpushes
    rwa [popEffects, popEffects, ← List.map_append] at hall
  · rw [List.sum_append, hsum, hwords]
    simp only [receiver]
    split <;> rfl

/-- The instructions of a stub only go on to the next node. -/
theorem isStraight_of_stubFor {site : CallSite} {insns : List Insn}
    (h : stubFor site = .ok insns) : ∀ i ∈ insns, i.IsStraight := by
  intro i hi
  obtain ⟨op, rfl, -, hop⟩ := isSimple_of_stubFor h i hi
  exact Insn.isStraight_simple hop

end Stubs

/-! ## 2. Methods -/

/-- A treatment leaves nodes with the effect of the treated one. -/
theorem Treatment.IsOf.hasRun {table : RedirectTable} {filter : CallFilter} {node : Node}
    {t : Treatment} (h : t.IsOf table filter node)
    (few : ∀ site, node = .insn (.call site) → ∀ d, Descriptor.parse site.descriptor = .ok d →
      d.argumentWords ≤ 0xffff) : node.HasRun t.nodes := by
  cases h with
  | keep node => exact .keep node
  | redirect site => exact .replace (Insn.isStraight_call _) (Insn.isStraight_call _) rfl
  | stub site hstub =>
    obtain ⟨e, effects, heffect, heffects, hof⟩ := exists_effects_of_stubFor hstub (few site rfl)
    exact .run (Insn.isStraight_call site) heffect (isStraight_of_stubFor hstub) heffects hof

/-- **Redirection keeps the limit of the stack**, or fails to find one for the same reason. -/
theorem maxStack_redirectCalls {className : String} {table : RedirectTable} {filter : CallFilter}
    {m : Method} {summary : RedirectSummary}
    (h : (redirectCalls className table filter m).result = .ok summary)
    (few : ∀ site, .call site ∈ m.insns → ∀ d, Descriptor.parse site.descriptor = .ok d →
      d.argumentWords ≤ 0xffff) :
    maxStack (redirectCalls className table filter m).method = maxStack m := by
  obtain ⟨ts, hall, hmethod⟩ := redirectCalls_eq_ok h
  have hruns : List.Forall₂ Node.HasRun m.nodes.toList (ts.map Treatment.nodes) := by
    have hmem := (List.forall₂_and_left _ _).2 ⟨fun _ hnode => hnode, hall⟩
    refine List.forall₂_map_right_iff.2 (hmem.imp fun node _ ⟨hnode, hof⟩ => ?_)
    refine hof.hasRun fun site hsite => few site (List.mem_filterMap.2 ⟨node, hnode, ?_⟩)
    rw [hsite]
    rfl
  have hdepth := greatestDepth_eq_of_runs (redirectCalls className table filter m).method
    hruns (by rw [hmethod, List.flatMap_def]) (by rw [hmethod])
  rw [maxStack, maxStack, hdepth]

/-! ## 3. A loop

A loop with a handler in it, which begins with a call without effect on the stack. -/

section Loop

/-- A static call of a method of `gl/A`. -/
def glCall (name descriptor : String) : Node :=
  .insn (.call { owner := "gl/A", name, descriptor, interface := false, kind := .static })

/-- The loop. It drops more from the stack than there is. -/
def glLoop : Method where
  name := "f"
  descriptor := "()V"
  flags := staticFlag
  nodes := #[glCall "draw" "()V", .label ⟨0⟩, glCall "draw" "()V", .insn (.int Opcode.bipush 5),
    .label ⟨1⟩, glCall "draw" "()V", glCall "scale" "(IJ)D", glCall "clear" "(I)V",
    .insn (.jump Opcode.goto ⟨0⟩)]
  handlers := [{ start := ⟨0⟩, stop := ⟨1⟩, handler := ⟨1⟩, catchType := none }]

/-- A filter that watches the calls of `gl/A`. -/
def glFilter : CallFilter := { watchedOwners := ["gl/A"] }

/-- A table with a replacement for `clear` only. -/
def clearTable : RedirectTable :=
  ⟨(∅ : Std.TreeMap Signature String Signature.compare).insert ⟨"clear", "(I)V"⟩ "gl/B"⟩

/-- What redirection does to the loop: three calls become nothing. -/
def glSummary : RedirectSummary where
  redirected := 1
  stubbed := ["()V", "()V", "()V", "(IJ)D"].map fun descriptor =>
    { place := { owner := "A", name := "f", descriptor := "()V" }
      call := { owner := "gl/A", name := if descriptor = "()V" then "draw" else "scale", descriptor } }

/-- The loop is as deep after redirection as before. -/
theorem maxStack_redirectCalls_glLoop :
    (redirectCalls "A" clearTable glFilter glLoop).result = .ok glSummary ∧
      maxStack (redirectCalls "A" clearTable glFilter glLoop).method = maxStack glLoop ∧
      maxStack glLoop = .ok 2 := by
  have hresult : (redirectCalls "A" clearTable glFilter glLoop).result = .ok glSummary := by cbv
  have hsites : ∀ site, .call site ∈ glLoop.insns → site.descriptor ∈ ["()V", "(IJ)D", "(I)V"] := by
    intro site hsite
    simp only [Method.insns, glLoop, glCall, List.filterMap_cons, Node.insn?, List.filterMap_nil,
      List.mem_cons, Insn.call.injEq, reduceCtorEq, List.not_mem_nil, or_false, false_or] at hsite
    rcases hsite with rfl | rfl | rfl | rfl | rfl <;> simp
  have hwords : ∀ text ∈ ["()V", "(IJ)D", "(I)V"],
      (Descriptor.parse text).toOption.all (·.argumentWords ≤ 0xffff) = true := by
    decide +kernel
  refine ⟨hresult, maxStack_redirectCalls hresult fun site hsite d hd => ?_, by cbv⟩
  have hle := hwords _ (hsites site hsite)
  rw [hd] at hle
  exact of_decide_eq_true hle

end Loop

end Rewire
