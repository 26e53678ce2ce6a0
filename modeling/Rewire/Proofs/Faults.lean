import Mathlib
import Rewire.Code.Parts
import Rewire.Proofs.Bytes.Reads

/-!
# Why reading fails

Every failure has a root cause, and what a computation can fail over is told by the steps it is made
of. This file fixes

* outcomes that fail only over root causes of a kind (`FailsBy`), and readers that do
  (`Reader.FailsBy`), which follow the structure of the computation;
* what looking into a constant pool fails over (`Fault.IsOfPool`, `failsBy_text`, …);
* what reading a code attribute fails over (`Fault.IsOfInput`, `failsBy_read`): something is wrong
  with the bytes, and every byte is looked for before it is used.
-/

namespace Rewire

variable {α β σ : Type} {kind : Fault → Prop}

/-! ## 1. Outcomes -/

/-- Whether an outcome is a value or a failure whose root cause is of a kind. -/
def FailsBy (kind : Fault → Prop) (x : Outcome α) : Prop :=
  ∀ e, x = .error e → kind e.fault

theorem failsBy_ok (a : α) : FailsBy kind (.ok a : Outcome α) :=
  fun _ h => by cases h

theorem failsBy_pure (a : α) : FailsBy kind (pure a : Outcome α) :=
  failsBy_ok a

theorem failsBy_fail {f : Fault} (h : kind f) : FailsBy kind (fail f : Outcome α) := by
  intro e he
  cases he
  exact h

namespace FailsBy

variable {x : Outcome α} {f : α → Outcome β}

theorem of_ok {a : α} (h : x = .ok a) : FailsBy kind x :=
  h ▸ failsBy_ok a

theorem imp {other : Fault → Prop} (hx : FailsBy kind x) (h : ∀ f, kind f → other f) :
    FailsBy other x :=
  fun e he => h _ (hx e he)

theorem bind (hx : FailsBy kind x) (hf : ∀ a, x = .ok a → FailsBy kind (f a)) :
    FailsBy kind (x >>= f) := by
  intro e he
  rcases bind_eq_error.1 he with he | ⟨a, ha, he⟩
  · exact hx e he
  · exact hf a ha e he

theorem map (hx : FailsBy kind x) (g : α → β) : FailsBy kind (g <$> x) := by
  intro e he
  cases x with
  | error =>
    cases he
    exact hx e rfl
  | ok => cases he

theorem during {a : Activity} (hx : FailsBy kind x) : FailsBy kind (during a x) := by
  intro e he
  cases x with
  | error e' =>
    cases he
    exact hx e' rfl
  | ok b => cases he

theorem orFail {f : Fault} {x : Option α} (h : kind f) : FailsBy kind (orFail f x) := by
  cases x with
  | none => exact failsBy_fail h
  | some a => exact failsBy_ok a

theorem mapM {l : List α} (hf : ∀ a ∈ l, FailsBy kind (f a)) : FailsBy kind (l.mapM f) := by
  intro e he
  obtain ⟨a, ha, he⟩ := exists_of_mapM_error he
  exact hf a ha e he

theorem foldlM {f : β → α → Outcome β} {l : List α} {b : β} (hf : ∀ b a, FailsBy kind (f b a)) :
    FailsBy kind (l.foldlM f b) := by
  induction l generalizing b with
  | nil => exact failsBy_ok b
  | cons a rest ih => exact (hf b a).bind fun _ _ => ih

end FailsBy

/-! ## 2. Readers -/

namespace Reader

/-- Whether a reader fails only over root causes of a kind, wherever it starts. -/
def FailsBy (kind : Fault → Prop) (r : Reader α) : Prop :=
  ∀ c, Rewire.FailsBy kind (r c)

theorem failsBy_pure (a : α) : FailsBy kind (pure a : Reader α) :=
  fun _ => failsBy_ok _

theorem failsBy_lift {x : Outcome α} (h : Rewire.FailsBy kind x) :
    FailsBy kind (liftM x : Reader α) :=
  fun _ => h.bind fun _ _ => failsBy_ok _

namespace FailsBy

variable {r : Reader α} {f : α → Reader β}

theorem bind (hr : FailsBy kind r) (hf : ∀ a, FailsBy kind (f a)) : FailsBy kind (r >>= f) :=
  fun c => (hr c).bind fun ac _ => hf ac.1 ac.2

theorem during {a : Activity} (hr : FailsBy kind r) : FailsBy kind (during a r) :=
  fun c => (hr c).during

theorem repeated {step : σ → Reader σ} (h : ∀ s, FailsBy kind (step s)) (count : Nat) (s : σ) :
    FailsBy kind (repeated count step s) := by
  induction count with
  | zero => exact failsBy_pure s
  | succ count ih =>
    rw [repeated_succ]
    exact ih.bind h

theorem times (h : FailsBy kind r) (count : Nat) : FailsBy kind (times count r) := by
  induction count with
  | zero => exact failsBy_pure []
  | succ count ih =>
    rw [times_succ]
    exact h.bind fun a => ih.bind fun l => failsBy_pure _

theorem onBytes (h : FailsBy kind r) (input : Bytes) : Rewire.FailsBy kind (r.onBytes input) :=
  (h _).bind fun _ _ => failsBy_ok _

end FailsBy

end Reader

/-! ## 3. Constant pools -/

/-- Whether a root cause is a slot that holds something else than was expected. -/
def Fault.IsOfPool : Fault → Prop
  | truncatedText | invalidTextByte _ | invalidSlot _ | notText _ | notClass _ | notNameAndType _
  | notMember _ | notInvokeDynamic _ | notLoadable _ _ => True
  | _ => False

section Pool

variable (pool : ConstantPool) (index : UInt16)

theorem failsBy_decodeUnitsOnto (done : List UInt16) (bytes : Bytes) :
    FailsBy Fault.IsOfPool (Modified.decodeUnitsOnto done bytes) := by
  fun_induction Modified.decodeUnitsOnto done bytes with
  | case1 => exact failsBy_ok _
  | case2 _ _ _ _ ih => exact ih
  | case3 => exact failsBy_fail trivial
  | case4 _ _ _ _ _ _ _ ih => exact ih
  | case5 => exact failsBy_fail trivial
  | case6 _ _ _ _ _ _ _ _ _ ih => exact ih
  | case7 => exact failsBy_fail trivial
  | case8 => exact failsBy_fail trivial

theorem failsBy_decodeText (bytes : Bytes) : FailsBy Fault.IsOfPool (Modified.decodeText bytes) :=
  (failsBy_decodeUnitsOnto [] bytes).bind fun _ _ => failsBy_ok _

theorem failsBy_get : FailsBy Fault.IsOfPool (pool.get index) := by
  unfold ConstantPool.get
  split
  · exact failsBy_ok _
  · exact failsBy_fail trivial

theorem failsBy_text : FailsBy Fault.IsOfPool (pool.text index) := by
  refine (failsBy_get pool index).bind fun c _ => ?_
  cases c with
  | utf8 bytes => exact failsBy_decodeText bytes
  | _ => exact failsBy_fail trivial

theorem failsBy_className : FailsBy Fault.IsOfPool (pool.className index) := by
  refine (failsBy_get pool index).bind fun c _ => ?_
  cases c with
  | classRef name => exact failsBy_text pool name
  | _ => exact failsBy_fail trivial

theorem failsBy_nameAndType : FailsBy Fault.IsOfPool (pool.nameAndType index) := by
  refine (failsBy_get pool index).bind fun c _ => ?_
  cases c with
  | nameAndType name descriptor =>
    exact (failsBy_text pool name).bind fun _ _ => (failsBy_text pool descriptor).bind fun _ _ =>
      failsBy_ok _
  | _ => exact failsBy_fail trivial

theorem failsBy_memberRef : FailsBy Fault.IsOfPool (pool.memberRef index) := by
  have hresolve : ∀ owner member interface,
      FailsBy Fault.IsOfPool (ConstantPool.memberRef.resolve pool owner member interface) :=
    fun owner member interface => (failsBy_className pool owner).during.bind fun _ _ =>
      (failsBy_nameAndType pool member).during.bind fun _ _ => failsBy_ok _
  refine (failsBy_get pool index).bind fun c _ => ?_
  cases c with
  | fieldRef owner member | methodRef owner member => exact hresolve owner member false
  | interfaceMethodRef owner member => exact hresolve owner member true
  | _ => exact failsBy_fail trivial

end Pool

/-! ## 4. Code attributes -/

/-- Whether a root cause lies in the bytes that are read. The others could only come from the reader:
    a byte that it uses without looking whether it is there, a place that it gave no label, and a call
    that it has no kind for. -/
def Fault.IsOfInput : Fault → Prop
  | wordOutOfBounds bits => bits ≠ 8
  | noLabelAt _ | missingCallKind => False
  | _ => True

theorem Fault.IsOfPool.isOfInput {f : Fault} (h : f.IsOfPool) : f.IsOfInput := by
  cases f with
  | wordOutOfBounds | noLabelAt | missingCallKind => exact h.elim
  | _ => trivial

namespace Reader

theorem failsBy_u8 : FailsBy Fault.IsOfInput u8 := by
  intro c
  unfold u8
  split
  · exact failsBy_ok _
  · exact failsBy_fail trivial

theorem failsBy_u16At (data : Array UInt8) (i : Nat) :
    Rewire.FailsBy Fault.IsOfInput (u16At data i) := by
  unfold u16At
  split
  · exact failsBy_ok _
  · exact failsBy_fail (show 16 ≠ 8 by decide)

theorem failsBy_u32At (data : Array UInt8) (i : Nat) :
    Rewire.FailsBy Fault.IsOfInput (u32At data i) := by
  unfold u32At
  split
  · exact failsBy_ok _
  · exact failsBy_fail (show 32 ≠ 8 by decide)

theorem failsBy_u16 : FailsBy Fault.IsOfInput u16 :=
  fun _ => (failsBy_u16At _ _).during.bind fun _ _ => failsBy_ok _

theorem failsBy_u32 : FailsBy Fault.IsOfInput u32 :=
  fun _ => (failsBy_u32At _ _).during.bind fun _ _ => failsBy_ok _

theorem failsBy_bytes (length : Nat) : FailsBy Fault.IsOfInput (bytes length) := by
  intro c
  unfold bytes
  simp only
  split
  · exact failsBy_fail trivial
  · split
    · exact failsBy_ok _
    · exact failsBy_fail trivial

theorem FailsBy.counted {entry : Reader α} (h : FailsBy Fault.IsOfInput entry) :
    FailsBy Fault.IsOfInput (counted entry) :=
  failsBy_u16.bind fun count => h.times count.toNat

theorem failsBy_verificationType : FailsBy Fault.IsOfInput verificationType := by
  refine failsBy_u8.bind fun tag => ?_
  split
  case h_8 => exact failsBy_u16.bind fun _ => failsBy_pure _
  case h_9 => exact failsBy_u16.bind fun _ => failsBy_pure _
  case h_10 => exact failsBy_lift (failsBy_fail trivial)
  all_goals exact failsBy_pure _

theorem failsBy_frameDelta : FailsBy Fault.IsOfInput frameDelta := by
  have hitem : ∀ delta, FailsBy Fault.IsOfInput
      (do return ⟨delta, .same, [← verificationType]⟩ : Reader FrameDelta) :=
    fun _ => failsBy_verificationType.bind fun _ => failsBy_pure _
  refine failsBy_u8.bind fun tag => ?_
  split
  · exact failsBy_pure _
  split
  · exact hitem _
  split
  · exact failsBy_lift (failsBy_fail trivial)
  refine failsBy_u16.bind fun delta => ?_
  split
  · exact hitem _
  split
  · exact failsBy_pure _
  split
  · exact failsBy_pure _
  split
  · exact (failsBy_verificationType.times _).bind fun _ => failsBy_pure _
  · exact failsBy_u16.bind fun _ => (failsBy_verificationType.times _).bind fun _ =>
      failsBy_u16.bind fun _ => (failsBy_verificationType.times _).bind fun _ => failsBy_pure _

theorem failsBy_frames : FailsBy Fault.IsOfInput frames :=
  failsBy_u16.bind fun count => FailsBy.bind
    (.repeated (fun _ => failsBy_frameDelta.bind fun _ => failsBy_pure _) count.toNat [])
    fun _ => failsBy_pure _

theorem failsBy_rawHandler : FailsBy Fault.IsOfInput rawHandler :=
  failsBy_u16.bind fun _ => failsBy_u16.bind fun _ => failsBy_u16.bind fun _ =>
    failsBy_u16.bind fun _ => failsBy_pure _

theorem failsBy_lineEntry : FailsBy Fault.IsOfInput lineEntry :=
  failsBy_u16.bind fun _ => failsBy_u16.bind fun _ => failsBy_pure _

theorem failsBy_rawLocal : FailsBy Fault.IsOfInput rawLocal :=
  failsBy_u16.bind fun _ => failsBy_u16.bind fun _ => failsBy_u16.bind fun _ =>
    failsBy_u16.bind fun _ => failsBy_u16.bind fun _ => failsBy_pure _

theorem failsBy_rawAttribute : FailsBy Fault.IsOfInput rawAttribute :=
  failsBy_u16.bind fun _ => failsBy_u32.bind fun _ => (failsBy_bytes _).bind fun _ => failsBy_pure _

end Reader

namespace CodeParts

open Reader

theorem failsBy_take (parts : CodeParts) (name : String) (body : Bytes) :
    Rewire.FailsBy Fault.IsOfInput (parts.take name body) := by
  unfold take
  split
  · exact (failsBy_lineEntry.counted.onBytes body).bind fun _ _ => failsBy_ok _
  split
  · exact (failsBy_rawLocal.counted.onBytes body).bind fun _ _ => failsBy_ok _
  split
  · exact (failsBy_rawLocal.counted.onBytes body).bind fun _ _ => failsBy_ok _
  split
  · exact (failsBy_frames.onBytes body).during.bind fun _ _ => failsBy_ok _
  · exact failsBy_ok _

/-- **A code attribute is taken apart**, or there is something wrong with its bytes. -/
theorem failsBy_read (pool : ConstantPool) (body : Bytes) :
    Rewire.FailsBy Fault.IsOfInput (CodeParts.read pool body) := by
  have hattribute : ∀ parts : CodeParts, Reader.FailsBy Fault.IsOfInput (parts.readAttribute pool) :=
    fun parts => failsBy_rawAttribute.bind fun a =>
      (failsBy_lift ((failsBy_text pool a.name).imp fun _ => Fault.IsOfPool.isOfInput)).during.bind
        fun name => failsBy_lift (failsBy_take parts name a.body)
  refine Reader.FailsBy.onBytes ?_ body
  exact failsBy_u16.bind fun _ => failsBy_u16.bind fun _ => failsBy_u32.bind fun _ =>
    (failsBy_bytes _).bind fun _ => failsBy_rawHandler.counted.bind fun _ =>
      failsBy_u16.bind fun count => .repeated hattribute count.toNat _

end CodeParts

end Rewire
