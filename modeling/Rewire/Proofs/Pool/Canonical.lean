import Mathlib
import Rewire.Proofs.Pool.Requests

/-!
# Pools without duplicates

In a pool that holds each constant once, and each text as texts are written, a value is found where
it stands. This file shows

* that in such a pool (`ConstantPool.IsCanonical`) a slot that holds what is requested is the first
  one to do so, and so are the slots it refers to (`Request.IsAt.holds`);
* so what a slot denotes is answered with that slot when it is requested, and nothing is added
  (`Request.IsAt.intern`).
-/

namespace Rewire

namespace ConstantPool

/-- Whether no two slots hold the same constant, and every text is spelled as texts are written. -/
structure IsCanonical (p : ConstantPool) : Prop where
  distinct : ∀ (m n : Nat) (c : Constant), p.slots[m]? = some (some c) →
    p.slots[n]? = some (some c) → m = n
  written : ∀ c, some c ∈ p.slots → c.TextIsWritten

variable {p : ConstantPool} {i : UInt16}

theorem WellFormed.textFits (wf : p.WellFormed) {n : Nat} {c : Constant}
    (h : p.slots[n]? = some (some c)) : c.TextFits := by
  induction wf with
  | empty =>
    have hmem := Array.mem_of_getElem? h
    simp [ConstantPool.empty] at hmem
  | push _ _ fits ih =>
    rcases (slots_push n).1 h with h | ⟨-, rfl⟩
    · exact ih h
    · exact fits

theorem IsCanonical.empty : ConstantPool.empty.IsCanonical where
  distinct m n c hm _ := by
    have hmem := Array.mem_of_getElem? hm
    simp [ConstantPool.empty] at hmem
  written c hc := by simp [ConstantPool.empty] at hc

/-- A constant that is not there can be added. -/
theorem IsCanonical.push (canonical : p.IsCanonical) {c : Constant} (absent : some c ∉ p.slots)
    (written : c.TextIsWritten) : (p.push c).IsCanonical where
  distinct m n d hm hn := by
    have hnot : ∀ k : Nat, p.slots[k]? ≠ some (some c) := fun k hk =>
      absent (Array.mem_of_getElem? hk)
    rcases (slots_push m).1 hm with hold | ⟨hlast, rfl⟩
    · rcases (slots_push n).1 hn with hold' | ⟨-, rfl⟩
      · exact canonical.distinct m n d hold hold'
      · exact absurd hold (hnot m)
    · rcases (slots_push n).1 hn with hold' | ⟨hlast', -⟩
      · exact absurd hold' (hnot n)
      · rw [hlast, hlast']
  written d hd := by
    obtain ⟨n, hn⟩ := Array.mem_iff_getElem?.1 hd
    rcases (slots_push n).1 hn with hn | ⟨-, rfl⟩
    · exact canonical.written d (Array.mem_of_getElem? hn)
    · exact written

/-! ## 1. First slots -/

section First

variable (wf : p.WellFormed) (canonical : p.IsCanonical)
include canonical

/-- A constant stands at its first slot. -/
theorem IsCanonical.isFirstSlot {c : Constant} (h : p.get i = .ok c) : p.IsFirstSlot c i := by
  have hslot := get_eq_ok.1 h
  exact ⟨hslot, fun j hj hother => hj.ne (canonical.distinct j i.toNat c hother hslot)⟩

include wf

theorem IsCanonical.holdsText {s : String} (h : p.text i = .ok s) : p.HoldsText s i := by
  obtain ⟨bytes, hget, hdecode⟩ := text_eq_ok.1 h
  have hslot := get_eq_ok.1 hget
  obtain ⟨t, rfl⟩ := canonical.written _ (Array.mem_of_getElem? hslot) bytes rfl
  obtain rfl : t = s := Except.ok.inj ((Modified.decodeText_encodeText t).symm.trans hdecode)
  exact ⟨Constant.textFits_utf8.1 (wf.textFits hslot), canonical.isFirstSlot hget⟩

theorem IsCanonical.holdsClass {name : String} (h : p.className i = .ok name) :
    p.HoldsClass name i := by
  obtain ⟨c, hc, h⟩ := bind_eq_ok.1 h
  cases c with
  | classRef n => exact ⟨n, canonical.holdsText wf h, canonical.isFirstSlot hc⟩
  | _ => cases h

theorem IsCanonical.holdsNameAndType {name descriptor : String}
    (h : p.nameAndType i = .ok (name, descriptor)) : p.HoldsNameAndType name descriptor i := by
  obtain ⟨c, hc, h⟩ := bind_eq_ok.1 h
  cases c with
  | nameAndType n d =>
    obtain ⟨_, hn, h⟩ := bind_eq_ok.1 h
    obtain ⟨_, hd, h⟩ := bind_eq_ok.1 h
    cases h
    exact ⟨n, d, canonical.holdsText wf hn, canonical.holdsText wf hd, canonical.isFirstSlot hc⟩
  | _ => cases h

theorem IsCanonical.holdsMember (make : UInt16 → UInt16 → Constant) {owner member : UInt16}
    {interface : Bool} {m : MemberRef} (hget : p.get i = .ok (make owner member))
    (h : memberRef.resolve p owner member interface = .ok m) :
    p.HoldsMember make m.toMember i := by
  obtain ⟨howner, hmember, -⟩ := resolve_eq_ok.1 h
  exact ⟨owner, member, canonical.holdsClass wf howner, canonical.holdsNameAndType wf hmember,
    canonical.isFirstSlot hget⟩

end First

end ConstantPool

/-! ## 2. Requests -/

open ConstantPool

namespace Request

variable {p : ConstantPool} {i : UInt16} {r : Request}

/-- **A slot that holds a request** is the first one to do so, and so are the slots it refers to. -/
theorem IsAt.holds (h : r.IsAt p i) (wf : p.WellFormed) (canonical : p.IsCanonical) :
    r.Holds p i := by
  cases r with
  | text s => exact canonical.holdsText wf h
  | classRef name => exact canonical.holdsClass wf h
  | string s =>
    obtain ⟨n, hget, htext⟩ := h
    exact ⟨n, canonical.holdsText wf htext, canonical.isFirstSlot hget⟩
  | integer value => exact canonical.isFirstSlot h
  | float bits => exact canonical.isFirstSlot h
  | long value => exact canonical.isFirstSlot h
  | double bits => exact canonical.isFirstSlot h
  | nameAndType name descriptor => exact canonical.holdsNameAndType wf h
  | field m =>
    obtain ⟨⟨owner, member, hget⟩, h⟩ := h
    obtain ⟨_, hc, hresolve⟩ := bind_eq_ok.1 h
    obtain rfl := Except.ok.inj (hget.symm.trans hc)
    have held := IsCanonical.holdsMember wf canonical .fieldRef hget hresolve
    exact held
  | method m =>
    obtain ⟨notField, h⟩ := h
    obtain ⟨c, hc, h⟩ := bind_eq_ok.1 h
    -- the kind of reference is the one that the resolved member says
    cases c with
    | fieldRef owner member => exact absurd ⟨owner, member, hc⟩ notField
    | methodRef owner member =>
      have hkind : m.interface = false := (resolve_eq_ok.1 h).2.2
      have held := IsCanonical.holdsMember wf canonical .methodRef hc h
      show p.HoldsMember (methodConstant m.interface) m.toMember i
      rwa [hkind]
    | interfaceMethodRef owner member =>
      have hkind : m.interface = true := (resolve_eq_ok.1 h).2.2
      have held := IsCanonical.holdsMember wf canonical .interfaceMethodRef hc h
      show p.HoldsMember (methodConstant m.interface) m.toMember i
      rwa [hkind]
    | _ => cases h

/-- **What a slot denotes is answered with that slot**, and nothing is added. -/
theorem IsAt.intern (h : r.IsAt p i) (wf : p.WellFormed) (canonical : p.IsCanonical) :
    r.intern p = (.ok i, p) :=
  (h.holds wf canonical).intern wf

end Request

end Rewire
