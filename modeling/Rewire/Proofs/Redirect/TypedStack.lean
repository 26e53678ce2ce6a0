import Mathlib
import Rewire.Redirect.TypedStack
import Rewire.Proofs.Redirect.Depth

/-!
# Stubs take what their calls take

The instructions of a stub drop the values of a call one by one, the last argument first. This file
shows

* what a stub consists of (`stubFor_eq`): a drop for each value that its call takes, and a zero;
* that each drop takes one whole value (`exists_drop`), so after any number of them the other values
  and what is below them are still there (`runTyped_take_drops`);
* that a stub ends with the zero of its result on what was below the values of its call, never
  reaches below them, and has the effect of the call in words (`typed_stubFor`).
-/

namespace Rewire

/-! ## 1. The instructions of a stub -/

section Stubs

variable {call : CallSite} {d : Descriptor}

/-- Drops for values of the given categories, the topmost first. -/
def drops (categories : List Category) : List Insn :=
  (categories.filterMap Category.popOpcode?).map Insn.simple

/-- The push of a zero, if there is a value. -/
def zeroPush (c : Category) : List Insn :=
  c.zeroOpcode?.toList.map Insn.simple

theorem stubFor_eq (hd : Descriptor.parse call.descriptor = .ok d) :
    stubFor call = .ok (drops (call.operandCategories d) ++ zeroPush d.result) := by
  have hreceiver : (if call.isStatic then [] else [Opcode.pop]) =
      (if call.isStatic then [] else [Category.reference]).filterMap Category.popOpcode? := by
    split <;> rfl
  rw [stubFor, hd]
  show Except.ok _ = _
  rw [hreceiver, ← List.filterMap_append, List.map_append]
  rfl

/-- No parameter is void. -/
theorem void_notMem_operandCategories (hd : Descriptor.parse call.descriptor = .ok d) :
    Category.void ∉ call.operandCategories d := by
  obtain ⟨t, -, hd⟩ := bind_eq_ok.1 hd
  by_cases hvoid : Category.void ∈ t.parameters.map Category.of
  · rw [if_pos hvoid] at hd
    cases hd
  · rw [if_neg hvoid] at hd
    cases hd
    rw [CallSite.operandCategories, List.mem_append, List.mem_reverse]
    rintro (hargument | hreceiver)
    · exact hvoid hargument
    · split at hreceiver
      · cases hreceiver
      · cases List.mem_singleton.1 hreceiver

end Stubs

/-! ## 2. Stubs on a typed stack -/

section Typed

variable {v : StackValue} {values below : List StackValue}

theorem runTyped_cons (i : Insn) (insns : List Insn) (stack : List StackValue) :
    runTyped (i :: insns) stack = (i.runTyped stack).bind (runTyped insns) :=
  List.foldlM_cons

theorem runTyped_append (insns more : List Insn) (stack : List StackValue) :
    runTyped (insns ++ more) stack = (runTyped insns stack).bind (runTyped more) :=
  List.foldlM_append

/-- The drop for a value takes this value off the stack. -/
theorem exists_drop (hvoid : .void ≠ v.category) :
    ∃ i, (∀ rest, drops (v.category :: rest) = i :: drops rest) ∧
      ∀ stack, i.runTyped (v :: stack) = some stack := by
  cases hcategory : v.category with
  | void => exact absurd hcategory.symm hvoid
  | long | double =>
    refine ⟨.simple Opcode.pop2, fun _ => rfl, fun stack => ?_⟩
    show dropTwo (v :: stack) = _
    rw [dropTwo, hcategory]
    rfl
  | int | float | reference =>
    refine ⟨.simple Opcode.pop, fun _ => rfl, fun stack => ?_⟩
    show dropOne (v :: stack) = _
    rw [dropOne, hcategory]
    rfl

theorem length_drops (hvoid : Category.void ∉ values.map StackValue.category) :
    (drops (values.map StackValue.category)).length = values.length := by
  induction values with
  | nil => rfl
  | cons v rest ih =>
    rw [List.map_cons, List.mem_cons, not_or] at hvoid
    obtain ⟨i, hdrops, -⟩ := exists_drop hvoid.1
    rw [List.map_cons, hdrops, List.length_cons, List.length_cons, ih hvoid.2]

/-- **Each drop takes one value**: after some of them, the other values are left, and what is below
    them. -/
theorem runTyped_take_drops (hvoid : Category.void ∉ values.map StackValue.category) (n : Nat) :
    runTyped ((drops (values.map StackValue.category)).take n) (values ++ below) =
      some (values.drop n ++ below) := by
  induction values generalizing n with
  | nil => simp [drops, runTyped]
  | cons v rest ih =>
    cases n with
    | zero => rfl
    | succ n =>
      rw [List.map_cons, List.mem_cons, not_or] at hvoid
      obtain ⟨i, hdrops, hdrop⟩ := exists_drop hvoid.1
      rw [List.map_cons, hdrops, List.take_succ_cons, runTyped_cons, List.cons_append, hdrop,
        Option.bind_some, ih hvoid.2, List.drop_succ_cons]

theorem runTyped_zeroPush (c : Category) (stack : List StackValue) :
    runTyped (zeroPush c) stack = some (zeroResult c ++ stack) := by
  cases c <;> rfl

end Typed

/-! ## 3. Stubs and their calls -/

theorem StackEffect.IsOfRun.sums {e : StackEffect} {effects : List StackEffect}
    (h : e.IsOfRun effects) :
    e = ⟨(effects.map StackEffect.pops).sum, (effects.map StackEffect.pushes).sum⟩ := by
  obtain ⟨widths, pushed, rfl, hpops, hpushed⟩ := h
  have hwidths : (popEffects widths).map StackEffect.pops = widths := by
    rw [popEffects, List.map_map]
    exact List.map_id widths
  have hnone : ((popEffects widths).map StackEffect.pushes).sum = 0 := by
    rw [popEffects, List.map_map]
    exact List.sum_eq_zero fun n hn => by
      obtain ⟨-, -, rfl⟩ := List.mem_map.1 hn
      rfl
  rw [List.map_append, List.sum_append, hwidths, hpops, List.map_append, List.sum_append, hnone]
  cases e
  rcases hpushed with ⟨rfl, hpushes⟩ | rfl
  · simpa using hpushes
  · simp

/-- **A stub has the typed effect of its call.** On any stack with the values of the call on top,
    its instructions run one by one and leave what is below these values; in the end, a zero of the
    result stands there in their place. In words, the stub pops and pushes what the call does; the
    words of the arguments are counted in 16 bits. -/
theorem typed_stubFor {call : CallSite} {d : Descriptor} {values : List StackValue}
    (hd : Descriptor.parse call.descriptor = .ok d)
    (hvalues : values.map StackValue.category = call.operandCategories d)
    (below : List StackValue) :
    ∃ insns, stubFor call = .ok insns ∧
      (∀ n, ∃ rest, runTyped (insns.take n) (values ++ below) = some (rest ++ below)) ∧
      runTyped insns (values ++ below) = some (zeroResult d.result ++ below) ∧
      (d.argumentWords ≤ 0xffff → ∃ effects,
        List.Forall₂ (fun i e => stackEffect i = .ok e) insns effects ∧
        stackEffect (.call call) =
          .ok ⟨(effects.map StackEffect.pops).sum, (effects.map StackEffect.pushes).sum⟩) := by
  have hstub := stubFor_eq hd
  have hvoid := void_notMem_operandCategories hd
  rw [← hvalues] at hstub hvoid
  have hlength := length_drops hvoid
  have hall : runTyped (drops (values.map StackValue.category)) (values ++ below) = some below := by
    have hdropped : runTyped _ (values ++ below) = _ := runTyped_take_drops hvoid values.length
    rwa [List.drop_length, List.nil_append, ← hlength, List.take_length] at hdropped
  have hend : runTyped (drops (values.map StackValue.category) ++ zeroPush d.result)
      (values ++ below) = some (zeroResult d.result ++ below) := by
    rw [runTyped_append, hall, Option.bind_some, runTyped_zeroPush]
  refine ⟨_, hstub, fun n => ?_, hend, fun few => ?_⟩
  · by_cases hn : n ≤ (drops (values.map StackValue.category)).length
    · rw [List.take_append_of_le_length hn]
      exact ⟨_, runTyped_take_drops hvoid n⟩
    · have hzero : (zeroPush d.result).length ≤ 1 := by cases d.result <;> decide
      rw [List.take_of_length_le (by rw [List.length_append]; omega)]
      exact ⟨_, hend⟩
  · obtain ⟨e, effects, hcall, heffects, hrun⟩ := exists_effects_of_stubFor hstub
      fun d' hd' => Except.ok.inj (hd.symm.trans hd') ▸ few
    exact ⟨effects, heffects, hrun.sums ▸ hcall⟩

/-- The call of an instance method on mixed arguments. -/
def scaleCall : CallSite where
  owner := "gl/A"
  name := "scale"
  descriptor := "(IJ[FD)D"
  interface := false
  kind := .virtual

namespace scaleCall

def signature : Descriptor := ⟨[.int, .long, .reference, .double], .double⟩

/-- The arguments, the last one first, and the receiver. -/
def values : List StackValue :=
  [.given .double, .given .reference, .zero .long, .given .int, .given .reference]

end scaleCall

/-- Values of different widths are dropped whole, down to the receiver; a value below it stays. In
    words, seven are popped and two pushed. -/
theorem typed_stubFor_scaleCall :
    Descriptor.parse scaleCall.descriptor = .ok scaleCall.signature ∧
      scaleCall.values.map StackValue.category =
        scaleCall.operandCategories scaleCall.signature ∧
      scaleCall.signature.argumentWords ≤ 0xffff ∧
      ∃ insns effects, stubFor scaleCall = .ok insns ∧
        runTyped insns (scaleCall.values ++ [.given .long]) =
          some [.zero .double, .given .long] ∧
        List.Forall₂ (fun i e => stackEffect i = .ok e) insns effects ∧
        (effects.map StackEffect.pops).sum = 7 ∧ (effects.map StackEffect.pushes).sum = 2 := by
  have hd : Descriptor.parse scaleCall.descriptor = .ok scaleCall.signature := by cbv
  have hvalues : scaleCall.values.map StackValue.category =
      scaleCall.operandCategories scaleCall.signature := by decide
  have few : scaleCall.signature.argumentWords ≤ 0xffff := by decide
  obtain ⟨insns, hstub, -, hend, hwords⟩ := typed_stubFor hd hvalues [.given .long]
  obtain ⟨effects, heffects, hcall⟩ := hwords few
  have hseven : stackEffect (.call scaleCall) = .ok ⟨7, 2⟩ := by
    refine bind_eq_ok.2 ⟨_, hd, ?_⟩
    rfl
  rw [hseven] at hcall
  obtain ⟨hpops, hpushes⟩ := StackEffect.mk.inj (Except.ok.inj hcall)
  exact ⟨hd, hvalues, few, insns, effects, hstub, hend, heffects, hpops.symm, hpushes.symm⟩

end Rewire
