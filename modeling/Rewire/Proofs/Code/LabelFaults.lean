import Mathlib
import Rewire.Code.WellFormed
import Rewire.Proofs.Code.Placement
import Rewire.Proofs.Code.Runs
import Rewire.Proofs.Code.Settled

/-!
# Failures over labels

Assembling fails over a label that is placed twice, and over one that is referred to and not placed.
This file shows that it does so only over methods that have such labels
(`assemble_sparesLabels`). Everything else spares labels: it succeeds or fails for another reason
(`SparesLabels`), which is followed through outcomes, through steps on a pool (`Step.SparesLabels`)
and through steps with a log (`Assembly.SparesLabels`).
-/

namespace Rewire

variable {α β : Type}

/-! ## 1. Other failures -/

/-- Whether a root cause is a label that is placed twice or nowhere. -/
def Fault.IsOfLabels : Fault → Prop
  | labelPlacedTwice _ | danglingLabel _ => True
  | _ => False

/-- Whether an outcome is a value or a failure that is not over labels. -/
structure SparesLabels (x : Outcome α) : Prop where
  other : ∀ f, x = .error f → ¬ f.fault.IsOfLabels

theorem sparesLabels_ok (a : α) : SparesLabels (.ok a : Outcome α) :=
  ⟨fun _ h => by cases h⟩

theorem sparesLabels_error {f : Failure} :
    SparesLabels (.error f : Outcome α) ↔ ¬ f.fault.IsOfLabels := by
  constructor
  · exact fun h => h.other f rfl
  · refine fun h => ⟨fun _ heq => ?_⟩
    cases heq
    exact h

theorem sparesLabels_pure (a : α) : SparesLabels (pure a : Outcome α) :=
  sparesLabels_ok a

theorem sparesLabels_fail {f : Fault} (h : ¬ f.IsOfLabels) : SparesLabels (fail f : Outcome α) :=
  sparesLabels_error.2 h

namespace SparesLabels

variable {x : Outcome α} {f : α → Outcome β}

/-- Sparing labels is failing over other root causes only. -/
theorem failsBy (hx : SparesLabels x) : FailsBy (fun fault => ¬ fault.IsOfLabels) x :=
  hx.other

theorem bind (hx : SparesLabels x) (hf : ∀ a, x = .ok a → SparesLabels (f a)) :
    SparesLabels (x >>= f) :=
  ⟨hx.failsBy.bind fun a ha => (hf a ha).failsBy⟩

theorem during {a : Activity} (hx : SparesLabels x) : SparesLabels (during a x) :=
  ⟨hx.failsBy.during⟩

theorem orFail {fault : Fault} {x : Option α} (h : ¬ fault.IsOfLabels) :
    SparesLabels (orFail fault x) := by
  have hfails : FailsBy (fun fault => ¬ fault.IsOfLabels) (Rewire.orFail fault x) := .orFail h
  exact ⟨hfails⟩

theorem mapM {l : List α} (hf : ∀ a ∈ l, SparesLabels (f a)) : SparesLabels (l.mapM f) :=
  ⟨FailsBy.mapM fun a ha => (hf a ha).failsBy⟩

theorem foldlM {f : β → α → Outcome β} {l : List α} {b : β} (hf : ∀ b a, SparesLabels (f b a)) :
    SparesLabels (l.foldlM f b) :=
  ⟨FailsBy.foldlM fun b a => (hf b a).failsBy⟩

end SparesLabels

/-! ## 2. Numbers -/

section Leaves

theorem sparesLabels_fitRange (a : Activity) (least greatest n : Int) :
    SparesLabels (fitRange a least greatest n) := by
  unfold fitRange
  split
  · exact (sparesLabels_fail id).during
  · split
    · exact (sparesLabels_fail id).during
    · exact sparesLabels_ok n

theorem sparesLabels_fitUnsigned8 (a : Activity) (n : Int) : SparesLabels (fitUnsigned8 a n) :=
  (sparesLabels_fitRange ..).bind fun _ _ => sparesLabels_pure _

theorem sparesLabels_fitUnsigned16 (a : Activity) (n : Int) : SparesLabels (fitUnsigned16 a n) :=
  (sparesLabels_fitRange ..).bind fun _ _ => sparesLabels_pure _

theorem sparesLabels_fitUnsigned32 (a : Activity) (n : Int) : SparesLabels (fitUnsigned32 a n) :=
  (sparesLabels_fitRange ..).bind fun _ _ => sparesLabels_pure _

theorem sparesLabels_fitSigned8 (a : Activity) (n : Int) : SparesLabels (fitSigned8 a n) :=
  (sparesLabels_fitRange ..).bind fun _ _ => sparesLabels_pure _

theorem sparesLabels_fitSigned16 (a : Activity) (n : Int) : SparesLabels (fitSigned16 a n) :=
  (sparesLabels_fitRange ..).bind fun _ _ => sparesLabels_pure _

theorem sparesLabels_fitSigned32 (a : Activity) (n : Int) : SparesLabels (fitSigned32 a n) :=
  (sparesLabels_fitRange ..).bind fun _ _ => sparesLabels_pure _

theorem sparesLabels_addWord16 (a b : UInt16) : SparesLabels (addWord16 a b) := by
  unfold addWord16
  split
  · exact sparesLabels_ok _
  · exact sparesLabels_fail id

end Leaves

/-! ## 3. Descriptors -/

section Descriptors

open Scanner

theorem sparesLabels_readSimpleType (cs : List Char) : SparesLabels (readSimpleType cs) := by
  unfold readSimpleType
  split
  · exact sparesLabels_fail id
  · split
    · exact sparesLabels_ok _
    · split
      · split
        · exact sparesLabels_ok _
        · exact sparesLabels_fail id
      · split
        · exact sparesLabels_ok _
        · exact sparesLabels_fail id

theorem sparesLabels_readElementType (dimensions : Nat) (cs : List Char) :
    SparesLabels (readElementType dimensions cs) := by
  fun_induction readElementType dimensions cs with
  | case1 _ _ _ ih => exact ih
  | case2 => exact sparesLabels_fail id
  | case3 => exact sparesLabels_ok _
  | case4 => exact sparesLabels_fail id
  | case5 _ cs _ f h =>
    have hspares := sparesLabels_readSimpleType cs
    rw [h] at hspares
    exact sparesLabels_error.2 (sparesLabels_error.1 hspares)

theorem sparesLabels_readType (cs : List Char) : SparesLabels (readType cs) := by
  unfold readType
  split
  · exact sparesLabels_readElementType ..
  · exact sparesLabels_readSimpleType _

theorem sparesLabels_readParameters (done : List TypeDescriptor) (cs : List Char) :
    SparesLabels (readParameters done cs) := by
  fun_induction readParameters done cs with
  | case1 _ _ _ _ _ _ ih => exact ih
  | case2 => exact sparesLabels_ok _
  | case3 _ cs f h =>
    have hspares := sparesLabels_readType cs
    rw [h] at hspares
    exact sparesLabels_error.2 (sparesLabels_error.1 hspares)

theorem sparesLabels_readMethodType (cs : List Char) : SparesLabels (readMethodType cs) := by
  unfold readMethodType
  split
  · refine (sparesLabels_readParameters ..).bind fun _ _ =>
      (sparesLabels_readType _).bind fun _ _ => ?_
    split
    · exact sparesLabels_pure _
    · exact sparesLabels_fail id
  · exact sparesLabels_fail id

theorem sparesLabels_readFieldType (cs : List Char) : SparesLabels (readFieldType cs) := by
  refine (sparesLabels_readType _).bind fun _ _ => ?_
  split
  · exact sparesLabels_pure _
  · exact sparesLabels_fail id

theorem sparesLabels_parse (text : String) : SparesLabels (Descriptor.parse text) := by
  refine SparesLabels.bind (sparesLabels_readMethodType _).during fun _ _ => ?_
  dsimp only
  split
  · exact sparesLabels_fail id
  · exact sparesLabels_pure _

theorem sparesLabels_argumentWidth (d : Descriptor) : SparesLabels d.argumentWidth :=
  .foldlM fun _ _ => sparesLabels_addWord16 _ _

theorem sparesLabels_fieldCategory (text : String) : SparesLabels (fieldCategory text) := by
  refine SparesLabels.bind (sparesLabels_readFieldType _).during fun _ _ => ?_
  split
  · exact sparesLabels_fail id
  · exact sparesLabels_pure _

end Descriptors

/-! ## 4. Instructions -/

section Instructions

theorem sparesLabels_encodeInt (op : UInt8) (value : Int32) :
    SparesLabels (encodeInt op value) := by
  unfold encodeInt
  split
  · exact (sparesLabels_fitSigned16 ..).bind fun _ _ => sparesLabels_pure _
  · split
    · exact (sparesLabels_fitSigned8 ..).bind fun _ _ => sparesLabels_pure _
    · exact (sparesLabels_fitUnsigned8 ..).bind fun _ _ => sparesLabels_pure _

theorem sparesLabels_shortForm (op slot : UInt8) : SparesLabels (shortForm op slot) := by
  unfold shortForm
  split
  · exact sparesLabels_ok _
  · split
    · exact sparesLabels_ok _
    · exact sparesLabels_fail id

theorem sparesLabels_oppositeCondition (op : UInt8) : SparesLabels (oppositeCondition op) := by
  unfold oppositeCondition
  split
  · exact sparesLabels_ok _
  · split
    · exact sparesLabels_ok _
    · split
      · exact sparesLabels_ok _
      · exact sparesLabels_fail id

theorem sparesLabels_encodeVar (op : UInt8) (slot : UInt16) :
    SparesLabels (encodeVar op slot) := by
  unfold encodeVar
  split
  · exact sparesLabels_ok _
  · split
    · exact (sparesLabels_shortForm ..).bind fun _ _ => sparesLabels_pure _
    · exact sparesLabels_ok _

theorem sparesLabels_encodeJump (op : UInt8) (wide : Bool) (delta : Int) :
    SparesLabels (encodeJump op wide delta) := by
  unfold encodeJump
  split
  · exact (sparesLabels_fitSigned16 ..).bind fun _ _ => sparesLabels_pure _
  · split
    · exact (sparesLabels_fitSigned32 ..).bind fun _ _ => sparesLabels_pure _
    · exact (sparesLabels_oppositeCondition _).bind fun _ _ =>
        (sparesLabels_fitSigned32 ..).bind fun _ _ => sparesLabels_pure _

/-- Writing an instruction does not fail over labels: their offsets are given. -/
theorem sparesLabels_encode (i : Insn) (offset : Nat) (operand : UInt16) (wide : Bool)
    (target : Label → Nat) : SparesLabels (i.encode offset operand wide target) := by
  cases i with
  | int => exact sparesLabels_encodeInt ..
  | var => exact sparesLabels_encodeVar ..
  | jump => exact sparesLabels_encodeJump ..
  | tableSwitch =>
    simp only [Insn.encode]
    split
    · exact sparesLabels_fail id
    · exact sparesLabels_ok _
  | call =>
    simp only [Insn.encode]
    split
    · exact (sparesLabels_parse _).bind fun _ _ => (sparesLabels_argumentWidth _).bind fun _ _ =>
        (sparesLabels_addWord16 ..).bind fun _ _ =>
          (sparesLabels_fitUnsigned8 ..).bind fun _ _ => sparesLabels_pure _
    · exact sparesLabels_ok _
  | simple | ldc | iinc | lookupSwitch | field | type | invokeDynamic | multiANewArray =>
    exact sparesLabels_ok _

theorem sparesLabels_layoutEncode (l : Layout) : SparesLabels l.encode := by
  refine SparesLabels.bind (.mapM fun placed _ => ?_) fun _ _ => sparesLabels_pure _
  unfold Piece.encode
  split
  · exact sparesLabels_encode ..
  · exact sparesLabels_ok _

theorem sparesLabels_stackEffect (i : Insn) : SparesLabels (stackEffect i) := by
  cases i with
  | simple => exact .orFail id
  | field => exact (sparesLabels_fieldCategory _).bind fun _ _ => sparesLabels_pure _
  | call | invokeDynamic =>
    exact (sparesLabels_parse _).bind fun _ _ => (sparesLabels_argumentWidth _).bind fun _ _ =>
      sparesLabels_pure _
  | int | ldc | var | iinc | jump | tableSwitch | lookupSwitch | type | multiANewArray =>
    exact sparesLabels_ok _

end Instructions

/-! ## 5. Steps -/

/-- Whether a step on a state succeeds or fails for another reason than labels. -/
def Step.SparesLabels {σ : Type} (x : ExceptT Failure (StateM σ) α) : Prop :=
  ∀ s, Rewire.SparesLabels (x s).1

/-- Whether a step with a log succeeds or fails for another reason than labels. -/
def Assembly.SparesLabels (x : Assembly α) : Prop :=
  ∀ p log, Rewire.SparesLabels (x p log).1.1

namespace Step

variable {σ : Type} {x : ExceptT Failure (StateM σ) α} {f : α → ExceptT Failure (StateM σ) β}

theorem sparesLabels_pure (a : α) : SparesLabels (pure a : ExceptT Failure (StateM σ) α) :=
  fun _ => sparesLabels_ok a

theorem sparesLabels_fail {fault : Fault} (h : ¬ fault.IsOfLabels) :
    SparesLabels (fail fault : ExceptT Failure (StateM σ) α) :=
  fun _ => Rewire.sparesLabels_fail h

theorem SparesLabels.bind (hx : SparesLabels x) (hf : ∀ a, SparesLabels (f a)) :
    SparesLabels (x >>= f) := by
  intro s
  have hs := hx s
  simp only [Bind.bind, ExceptT.bind, ExceptT.mk, StateT.bind, ExceptT.bindCont]
  rcases hrun : x s with ⟨e | a, t⟩
  · rw [hrun] at hs
    exact sparesLabels_error.2 (sparesLabels_error.1 hs)
  · exact hf a t

theorem sparesLabels_lift {x : Outcome α} (hx : Rewire.SparesLabels x) :
    SparesLabels (liftM x : ExceptT Failure (StateM σ) α) := by
  intro s
  cases x with
  | error e => exact hx
  | ok a => exact hx

theorem sparesLabels_bind_ok {x : Outcome α} {a : α} (hx : x = .ok a) (hf : SparesLabels (f a)) :
    SparesLabels ((liftM x : ExceptT Failure (StateM σ) α) >>= f) := by
  rw [hx]
  exact hf

theorem SparesLabels.mapM {l : List α} (hf : ∀ a, SparesLabels (f a)) :
    SparesLabels (l.mapM f) := by
  induction l with
  | nil => exact sparesLabels_pure []
  | cons a rest ih =>
    rw [List.mapM_cons]
    exact (hf a).bind fun b => ih.bind fun bs => sparesLabels_pure _

end Step

namespace Assembly

variable {x : Assembly α} {f : α → Assembly β}

theorem sparesLabels_pure (a : α) : SparesLabels (pure a : Assembly α) :=
  fun _ _ => sparesLabels_ok a

theorem sparesLabels_note (n : Notice) : SparesLabels (note n) :=
  fun _ _ => sparesLabels_ok ()

theorem SparesLabels.bind (hx : SparesLabels x) (hf : ∀ a, SparesLabels (f a)) :
    SparesLabels (x >>= f) := by
  intro p log
  have hs := hx p log
  simp only [Bind.bind, ExceptT.bind, ExceptT.mk, StateT.bind, ExceptT.bindCont]
  rcases hrun : x p log with ⟨⟨e | a, q⟩, l⟩
  · rw [hrun] at hs
    exact sparesLabels_error.2 (sparesLabels_error.1 hs)
  · exact hf a q l

theorem sparesLabels_lift {x : Outcome α} (hx : Rewire.SparesLabels x) :
    SparesLabels (liftM x : Assembly α) := by
  intro p log
  cases x with
  | error e => exact hx
  | ok a => exact hx

theorem sparesLabels_liftStep {x : ConstantPool.PoolStep α} (hx : Step.SparesLabels x) :
    SparesLabels (liftM x : Assembly α) :=
  fun p _ => hx p

theorem SparesLabels.filterMapM {f : α → Assembly (Option β)} {l : List α}
    (hf : ∀ a, SparesLabels (f a)) : SparesLabels (l.filterMapM f) := by
  induction l with
  | nil => exact sparesLabels_pure []
  | cons a rest ih =>
    rw [List.filterMapM_cons]
    refine (hf a).bind fun b => ?_
    split
    · exact ih
    · exact ih.bind fun bs => sparesLabels_pure _

theorem SparesLabels.foldlM {f : β → α → Assembly β} {l : List α} {b : β}
    (hf : ∀ b a, SparesLabels (f b a)) : SparesLabels (l.foldlM f b) := by
  induction l generalizing b with
  | nil => exact sparesLabels_pure b
  | cons a rest ih => exact (hf b a).bind fun b => ih

end Assembly

/-! ## 6. Operands and tables -/

section Tables

open ConstantPool

theorem sparesLabels_intern (c : Constant) : Step.SparesLabels (intern c) := by
  intro p
  simp only [intern, ExceptT.mk]
  split
  · exact sparesLabels_ok _
  · split
    · exact sparesLabels_ok _
    · exact sparesLabels_fail id

theorem sparesLabels_internText (s : String) : Step.SparesLabels (internText s) := by
  unfold internText
  simp only
  split
  · exact sparesLabels_intern _
  · exact Step.sparesLabels_fail id

theorem sparesLabels_internClass (name : String) : Step.SparesLabels (internClass name) :=
  (sparesLabels_internText name).bind fun _ => sparesLabels_intern _

theorem sparesLabels_internMember {name descriptor owner : String}
    {constant : UInt16 → UInt16 → Constant} : Step.SparesLabels (do
      let owner ← internClass owner
      let member ← internNameAndType name descriptor
      intern (constant owner member)) :=
  (sparesLabels_internClass _).bind fun _ => Step.SparesLabels.bind
    ((sparesLabels_internText _).bind fun _ => (sparesLabels_internText _).bind fun _ =>
      sparesLabels_intern _) fun _ => sparesLabels_intern _

theorem sparesLabels_internOperand (i : Insn) : Step.SparesLabels (internOperand i) := by
  cases i with
  | ldc value =>
    cases value with
    | int | float | long | double => exact sparesLabels_intern _
    | string text => exact (sparesLabels_internText text).bind fun _ => sparesLabels_intern _
    | classRef name => exact sparesLabels_internClass name
    | pooled => exact Step.sparesLabels_pure _
  | field | call => exact sparesLabels_internMember
  | type | multiANewArray => exact sparesLabels_internClass _
  | simple | int | var | iinc | jump | tableSwitch | lookupSwitch | invokeDynamic =>
    exact Step.sparesLabels_pure _

theorem sparesLabels_internPiece (node : Node) : Step.SparesLabels (internPiece node) := by
  cases node with
  | insn i => exact (sparesLabels_internOperand i).bind fun _ => Step.sparesLabels_pure _
  | label | line => exact Step.sparesLabels_pure _

theorem sparesLabels_encodeHandler (m : Method) (l : Layout) (h : Handler) :
    Assembly.SparesLabels (encodeHandler m l h) := by
  unfold encodeHandler
  split
  · exact (Assembly.sparesLabels_note _).bind fun _ => Assembly.sparesLabels_pure _
  · simp only
    split
    · exact (Assembly.sparesLabels_liftStep (sparesLabels_internClass _)).bind fun _ =>
        Assembly.sparesLabels_pure _
    · exact (Assembly.sparesLabels_pure _).bind fun _ => Assembly.sparesLabels_pure _

theorem sparesLabels_namedAttribute (name : String) (body : Bytes) :
    Step.SparesLabels (namedAttribute name body) :=
  (sparesLabels_internText name).bind fun _ => Step.sparesLabels_pure _

theorem sparesLabels_tableAttribute (name : String) (entries : List Bytes) :
    Step.SparesLabels (tableAttribute name entries) := by
  unfold tableAttribute
  split
  · exact Step.sparesLabels_pure _
  · exact (sparesLabels_namedAttribute _ _).bind fun _ => Step.sparesLabels_pure _

theorem sparesLabels_localsAttribute (name : String) (l : Layout) (records : List LocalRecord) :
    Step.SparesLabels (localsAttribute name l records) :=
  Step.SparesLabels.bind (.mapM fun _ => (sparesLabels_internText _).bind fun _ =>
    (sparesLabels_internText _).bind fun _ => Step.sparesLabels_pure _)
    fun _ => sparesLabels_tableAttribute _ _

theorem sparesLabels_carryAttribute (m : Method) (preserved : Bool) (newOffset : Nat → Option Nat)
    (c : Carryover) (name : String) (body : Bytes) :
    Assembly.SparesLabels (carryAttribute m preserved newOffset c name body) := by
  have hkeep : ∀ body, Assembly.SparesLabels (carryAttribute.keep c name body) := fun body =>
    (Assembly.sparesLabels_liftStep (sparesLabels_namedAttribute name body)).bind fun _ =>
      Assembly.sparesLabels_pure _
  have hdrop : Assembly.SparesLabels (carryAttribute.drop c name) := Assembly.sparesLabels_pure _
  unfold carryAttribute
  split
  · exact hkeep body
  · split
    · split
      · exact hkeep _
      · exact (Assembly.sparesLabels_note _).bind fun _ => hdrop
    · exact hdrop

theorem sparesLabels_attributesBytes (attributes : List RawAttribute) :
    SparesLabels (attributesBytes attributes) :=
  (sparesLabels_fitUnsigned16 ..).bind fun _ _ => .bind (.mapM fun _ _ =>
    (sparesLabels_fitUnsigned32 ..).bind fun _ _ => sparesLabels_pure _) fun _ _ =>
      sparesLabels_pure _

theorem sparesLabels_requiredLocals (m : Method) : SparesLabels (requiredLocals m) :=
  (sparesLabels_parse _).bind fun _ _ => (sparesLabels_argumentWidth _).bind fun _ _ =>
    sparesLabels_fitUnsigned16 ..

end Tables

/-! ## 7. Labels in order -/

section Placed

variable {m : Method}

/-- Labels that are placed are those with a position. -/
theorem mem_foldl_notePlace {nodes : List Node} {k : Nat} {found : Std.HashMap Label Nat}
    {l : Label} : l ∈ (nodes.zipIdx k).foldl notePlace found ↔
      l ∈ found ∨ l ∈ nodes.filterMap Node.label? := by
  induction nodes generalizing k found with
  | nil => simp
  | cons node rest ih =>
    rw [List.zipIdx_cons, List.foldl_cons, ih]
    cases node with
    | label l' =>
      have hcons : (Node.label l' :: rest).filterMap Node.label? =
        l' :: rest.filterMap Node.label? := rfl
      rw [hcons, List.mem_cons, notePlace, Std.HashMap.mem_insert, beq_iff_eq,
        or_comm (a := l' = l), or_assoc, eq_comm]
    | line | insn => rfl

theorem mem_labelPositions {l : Label} : l ∈ labelPositions m.nodes ↔ l ∈ m.placedLabels := by
  have hnodes := labelPositions_eq_foldl m.nodes.toList
  rw [Array.toArray_toList] at hnodes
  rw [hnodes, mem_foldl_notePlace, Method.placedLabels]
  exact or_iff_right Std.HashMap.not_mem_empty

/-- Noting positions succeeds if no label comes twice. -/
theorem foldlM_placeNode {nodes : List Node} {k : Nat} {found : Std.HashMap Label Nat}
    (nodup : (nodes.filterMap Node.label?).Nodup)
    (new : ∀ l ∈ nodes.filterMap Node.label?, l ∉ found) :
    (nodes.zipIdx k).foldlM placeNode found = .ok ((nodes.zipIdx k).foldl notePlace found) := by
  induction nodes generalizing k found with
  | nil => rfl
  | cons node rest ih =>
    rw [List.zipIdx_cons, List.foldlM_cons, List.foldl_cons]
    cases node with
    | label l =>
      have hcons : (Node.label l :: rest).filterMap Node.label? =
        l :: rest.filterMap Node.label? := rfl
      rw [hcons, List.nodup_cons] at nodup
      rw [hcons] at new
      have habsent : ¬ found.contains l = true := new l List.mem_cons_self
      simp only [placeNode, if_neg habsent]
      refine ih nodup.2 fun l' hl' => ?_
      rw [Std.HashMap.mem_insert, beq_iff_eq]
      rintro (rfl | hold)
      · exact nodup.1 hl'
      · exact new l' (List.mem_cons_of_mem _ hl') hold
    | line | insn => exact ih nodup new

/-- **Labels placed once each have positions.** -/
theorem distinctPositions_of_distinct (h : m.LabelsDistinct) :
    distinctPositions m.nodes = .ok (labelPositions m.nodes) := by
  have hnodes := labelPositions_eq_foldl m.nodes.toList
  rw [Array.toArray_toList] at hnodes
  rw [distinctPositions_eq, hnodes]
  exact foldlM_placeNode h fun _ _ => Std.HashMap.not_mem_empty

theorem checkReferences_of_placed (h : m.LabelsPlaced) :
    checkReferences m (labelPositions m.nodes) = .ok () := by
  have hnone : m.references.find? (fun l => !(labelPositions m.nodes).contains l) = none := by
    refine List.find?_eq_none.2 fun l hl => ?_
    have hmem : (labelPositions m.nodes).contains l = true := mem_labelPositions.2 (h l hl)
    simp [hmem]
  rw [checkReferences, hnone]

theorem sparesLabels_settle (positions : Std.HashMap Label Nat) (pieces : List Piece) :
    SparesLabels (Layout.settle positions pieces) := by
  have hfails : FailsBy (fun fault => ¬ fault.IsOfLabels) (Layout.settle positions pieces) :=
    Layout.failsBy_settle (fun _ => id) positions pieces
  exact ⟨hfails⟩

/-- Laying out does not fail over labels. -/
theorem sparesLabels_layOut (distinct : m.LabelsDistinct) (placed : m.LabelsPlaced) :
    Step.SparesLabels (layOut m) := by
  have hrest : Step.SparesLabels (do
      let positions ← distinctPositions m.nodes
      checkReferences m positions
      let pieces ← m.nodes.toList.mapM internPiece
      let l ← Layout.settle positions pieces
      if maxCodeLength < l.codeLength then fail (.codeTooLong l.codeLength maxCodeLength)
      return l : ConstantPool.PoolStep Layout) := by
    refine Step.sparesLabels_bind_ok (distinctPositions_of_distinct distinct) ?_
    refine Step.sparesLabels_bind_ok (checkReferences_of_placed placed) ?_
    refine .bind (.mapM sparesLabels_internPiece) fun pieces => ?_
    refine (Step.sparesLabels_lift (sparesLabels_settle _ pieces)).bind fun l => ?_
    split
    · exact (Step.sparesLabels_fail id).bind fun _ => Step.sparesLabels_pure _
    · exact Step.sparesLabels_pure _
  unfold layOut
  split
  · exact (Step.sparesLabels_fail id).bind fun _ => hrest
  · exact hrest

/-- A label that is placed has a place. -/
theorem sparesLabels_placeOf {l : Label} (h : l ∈ m.placedLabels) :
    SparesLabels (placeOf (labelPositions m.nodes) l) := by
  have hmem := mem_labelPositions.2 h
  rw [Std.HashMap.mem_iff_isSome_getElem?] at hmem
  obtain ⟨p, hp⟩ := Option.isSome_iff_exists.1 hmem
  have hplace : placeOf (labelPositions m.nodes) l = .ok p := orFail_eq_ok.2 hp
  rw [hplace]
  exact sparesLabels_ok p

/-- The walk does not fail over labels: it only looks for those that are jumped to. -/
theorem sparesLabels_walk (h : m.LabelsPlaced) (w : DepthWalk) (work : List Visit) :
    SparesLabels (walk m.nodes (labelPositions m.nodes) w work) := by
  fun_induction walk m.nodes (labelPositions m.nodes) w work with
  | case1 => exact sparesLabels_ok _
  | case2 w v work hnew _ i hi ih =>
    refine (sparesLabels_stackEffect i).bind fun effect _ => .bind ?_ fun next _ => ih _ _
    have htargets : SparesLabels (i.targets.mapM fun l => do
        return (⟨← placeOf (labelPositions m.nodes) l, effect.apply v.depth⟩ : Visit)) := by
      refine .mapM fun l hl => (sparesLabels_placeOf (h l ?_)).bind fun _ _ => sparesLabels_pure _
      exact Method.mem_references_of_target (Method.mem_insns_of_getElem? hi) hl
    refine htargets.bind fun jumps _ => ?_
    split
    · exact sparesLabels_pure _
    · exact sparesLabels_pure _
  | case3 _ _ _ _ _ _ ih => exact ih
  | case4 _ _ _ _ ih => exact ih

theorem sparesLabels_maxStack (h : m.LabelsPlaced) : SparesLabels (maxStack m) := by
  refine .bind (.bind (.mapM fun handler hhandler => ?_) fun handlers _ => ?_) fun _ _ =>
    sparesLabels_fitUnsigned16 ..
  · refine (sparesLabels_placeOf (h _ ?_)).bind fun _ _ => sparesLabels_pure _
    exact Method.mem_references_of_handler hhandler (by simp)
  · exact (sparesLabels_walk h _ _).bind fun _ _ => sparesLabels_pure _

/-- **Assembling does not fail over labels** if they are placed once each, and all that are referred
    to are placed. -/
theorem assemble_sparesLabels (distinct : m.LabelsDistinct) (placed : m.LabelsPlaced) :
    Assembly.SparesLabels (assemble m) := by
  unfold assemble
  refine (Assembly.sparesLabels_liftStep (sparesLabels_layOut distinct placed)).bind fun l => ?_
  refine (Assembly.sparesLabels_lift (sparesLabels_layoutEncode l)).bind fun code => ?_
  refine .bind (.filterMapM fun h => sparesLabels_encodeHandler m l h) fun handlers => ?_
  refine (Assembly.sparesLabels_liftStep (sparesLabels_tableAttribute _ _)).bind fun lines => ?_
  refine (Assembly.sparesLabels_liftStep (sparesLabels_localsAttribute _ _ _)).bind fun locals => ?_
  refine (Assembly.sparesLabels_liftStep (sparesLabels_localsAttribute _ _ _)).bind fun types => ?_
  have hrest : ∀ carried : Carryover, Assembly.SparesLabels (do
      let stack ← (maxStack m : Outcome UInt16)
      let slots ← (requiredLocals m : Outcome UInt16)
      let attributes ← (attributesBytes carried.kept : Outcome Bytes)
      let oldStack := (m.origin.map CodeOrigin.maxStack).getD 0
      let oldLocals := (m.origin.map CodeOrigin.maxLocals).getD 0
      return {
        body := be16 (max oldStack stack) ++ be16 (max oldLocals slots) ++
          be32 (UInt32.ofNat l.codeLength) ++ code ++ tableBytes handlers ++ attributes
        dropped := carried.dropped } : Assembly Assembled) := fun carried =>
    (Assembly.sparesLabels_lift (sparesLabels_maxStack placed)).bind fun _ =>
      (Assembly.sparesLabels_lift (sparesLabels_requiredLocals m)).bind fun _ =>
        (Assembly.sparesLabels_lift (sparesLabels_attributesBytes _)).bind fun _ =>
          Assembly.sparesLabels_pure _
  simp only
  split
  · exact (Assembly.sparesLabels_pure _).bind hrest
  · exact .bind (.foldlM fun c a => sparesLabels_carryAttribute m _ _ c a.1 a.2) hrest

end Placed

end Rewire
