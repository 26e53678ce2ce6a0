import Mathlib
import Rewire.Code.Assemble
import Rewire.Code.Decode
import Rewire.Code.WellFormed
import Rewire.Proofs.Pool.Intern

/-!
# Operands in the pool

The slot an operand is given denotes the operand. This file fixes

* slots that denote an instruction's operand as decoding reads it (`Insn.OperandIs`), which they
  still do when the pool grows (`Insn.OperandIs.growsTo`);
* the operand of every instruction is given its slot (`finds_internOperand`), which denotes it; one
  that is kept as a slot has to denote it before (`Insn.Interned.operandIs`).
-/

namespace Rewire

open ConstantPool

namespace ConstantPool.GrowsTo

variable {p q : ConstantPool} {i : UInt16}

theorem loadable (h : p.GrowsTo q) {wide : Bool} {value : Loadable}
    (hv : decodeLoadable p i wide = .ok value) : decodeLoadable q i wide = .ok value := by
  refine h.getBind (fun c hc => ?_) hv
  cases c with
  | string text =>
    obtain ⟨s, hs, hc⟩ := bind_eq_ok.1 hc
    exact bind_eq_ok.2 ⟨s, h.text hs, hc⟩
  | classRef name =>
    obtain ⟨s, hs, hc⟩ := bind_eq_ok.1 hc
    exact bind_eq_ok.2 ⟨s, h.text hs, hc⟩
  | _ => exact hc

theorem computedCall (h : p.GrowsTo q) {call : Insn}
    (hc : decodeComputedCall p i = .ok call) : decodeComputedCall q i = .ok call := by
  refine h.getBind (fun c hc => ?_) hc
  cases c with
  | invokeDynamic bootstrap member =>
    obtain ⟨nd, hnd, hc⟩ := bind_eq_ok.1 hc
    exact bind_eq_ok.2 ⟨nd, h.nameAndType hnd, hc⟩
  | _ => cases hc

end ConstantPool.GrowsTo

/-- Whether a slot denotes the operand of an instruction. -/
def Insn.OperandIs (pool : ConstantPool) (operand : UInt16) : Insn → Prop
  | ldc value => decodeLoadable pool operand value.isWide = .ok value
  | field _ m => ∃ interface, pool.memberRef operand = .ok { m with interface }
  | call site => pool.memberRef operand = .ok site.toMemberRef
  | invokeDynamic index name descriptor =>
    decodeComputedCall pool operand = .ok (.invokeDynamic index name descriptor)
  | type _ name | multiANewArray name _ => pool.className operand = .ok name
  | _ => True

theorem Insn.OperandIs.growsTo {p q : ConstantPool} {k : UInt16} {i : Insn} (h : p.GrowsTo q)
    (hi : i.OperandIs p k) : i.OperandIs q k := by
  cases i with
  | ldc value => exact h.loadable hi
  | field op m =>
    obtain ⟨interface, hm⟩ := hi
    exact ⟨interface, h.memberRef hm⟩
  | call site => exact h.memberRef hi
  | invokeDynamic index name descriptor => exact h.computedCall hi
  | type op name => exact h.className hi
  | multiANewArray name dimensions => exact h.className hi
  | _ => exact hi

/-- The slot an operand is kept as when it is not looked up. -/
def Insn.keptSlot? : Insn → Option UInt16
  | ldc (.pooled index _) => some index
  | invokeDynamic index _ _ => some index
  | _ => none

/-- The slot an operand is given: the one it is kept as, or one that denotes it. -/
structure Insn.Interned (pool : ConstantPool) (operand : UInt16) (i : Insn) : Prop where
  kept : ∀ index, i.keptSlot? = some index → operand = index
  found : i.keptSlot? = none → i.OperandIs pool operand

theorem Insn.Interned.growsTo {p q : ConstantPool} {k : UInt16} {i : Insn} (h : p.GrowsTo q)
    (hi : i.Interned p k) : i.Interned q k :=
  ⟨hi.kept, fun hslot => (hi.found hslot).growsTo h⟩

theorem Insn.AgreesWith.growsTo {p q : ConstantPool} {i : Insn} (h : p.GrowsTo q)
    (hi : i.AgreesWith p) : i.AgreesWith q := by
  cases i with
  | ldc value =>
    cases value with
    | pooled index wide =>
      obtain ⟨c, hc, hslot⟩ := hi
      exact ⟨c, h.get hc, hslot⟩
    | _ => trivial
  | invokeDynamic index name descriptor =>
    obtain ⟨bootstrap, member, hget, hname⟩ := hi
    exact ⟨bootstrap, member, h.get hget, h.nameAndType hname⟩
  | _ => trivial

/-- A slot that an operand is kept as denotes it where the pool says so. -/
theorem Insn.Interned.operandIs {p : ConstantPool} {k : UInt16} {i : Insn} (hi : i.Interned p k)
    (agrees : i.AgreesWith p) : i.OperandIs p k := by
  cases i with
  | ldc value =>
    cases value with
    | pooled index wide =>
      obtain ⟨c, hc, hslot⟩ := agrees
      rw [hi.kept index rfl]
      refine bind_eq_ok.2 ⟨c, hc, ?_⟩
      cases c with
      | methodType _ => rfl
      | methodHandle _ _ => rfl
      | dynamic _ _ => rfl
      | _ => cases hslot
    | _ => exact hi.found rfl
  | invokeDynamic index name descriptor =>
    obtain ⟨bootstrap, member, hget, hname⟩ := agrees
    rw [hi.kept index rfl]
    exact bind_eq_ok.2 ⟨_, hget, bind_eq_ok.2 ⟨_, hname, rfl⟩⟩
  | _ => exact hi.found rfl

/-- **Every operand is given its slot.** -/
theorem finds_internOperand (i : Insn) : Finds (internOperand i) fun q k => i.Interned q k := by
  have hrequest : ∀ r : Request, i.keptSlot? = none → (∀ q k, r.IsAt q k → i.OperandIs q k) →
      Finds r.intern fun q k => i.Interned q k :=
    fun r hslot hr => (Request.finds_request r).weaken fun q k hk =>
      ⟨fun _ hindex => (nomatch hslot.symm.trans hindex), fun _ => hr q k hk.isAt⟩
  have hpure : ∀ index : UInt16, (∀ q, i.Interned q index) →
      Finds (pure index) fun q k => i.Interned q k :=
    fun index hindex => (finds_pure index).weaken fun q k hk => hk ▸ hindex q
  cases i with
  | ldc value =>
    cases value with
    | int value => exact hrequest (.integer value) rfl fun q k hk => bind_eq_ok.2 ⟨_, hk, rfl⟩
    | float bits => exact hrequest (.float bits) rfl fun q k hk => bind_eq_ok.2 ⟨_, hk, rfl⟩
    | long value => exact hrequest (.long value) rfl fun q k hk => bind_eq_ok.2 ⟨_, hk, rfl⟩
    | double bits => exact hrequest (.double bits) rfl fun q k hk => bind_eq_ok.2 ⟨_, hk, rfl⟩
    | string text =>
      refine hrequest (.string text) rfl fun q k hk => ?_
      obtain ⟨n, hn, htext⟩ := hk
      exact bind_eq_ok.2 ⟨_, hn, bind_eq_ok.2 ⟨_, htext, rfl⟩⟩
    | classRef name =>
      refine hrequest (.classRef name) rfl fun q k hk => ?_
      obtain ⟨c, hc, hname⟩ := bind_eq_ok.1 hk
      cases c with
      | classRef n => exact bind_eq_ok.2 ⟨_, hc, bind_eq_ok.2 ⟨_, hname, rfl⟩⟩
      | _ => cases hname
    | pooled index wide =>
      exact hpure index fun _ => ⟨fun _ h => Option.some.inj h, fun h => (nomatch h)⟩
  | field op m =>
    exact hrequest (.field m) rfl fun q k hk => ⟨false, hk.2⟩
  | call site => exact hrequest (.method site.toMemberRef) rfl fun q k hk => hk.2
  | invokeDynamic index name descriptor =>
    exact hpure index fun _ => ⟨fun _ h => Option.some.inj h, fun h => (nomatch h)⟩
  | type op name => exact hrequest (.classRef name) rfl fun q k hk => hk
  | multiANewArray name dimensions => exact hrequest (.classRef name) rfl fun q k hk => hk
  | _ => exact hpure 0 fun _ => ⟨fun _ h => (nomatch h), fun _ => trivial⟩

end Rewire
