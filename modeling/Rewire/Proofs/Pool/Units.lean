import Mathlib
import Rewire.Proofs.Pool.Intern
import Rewire.Proofs.Text.Surrogates

/-!
# Units in the pool

A constant denotes texts through the constants it refers to. The units of those texts are what a
running program sees. This file fixes

* the units of the text in a slot (`unitsAt`) and of all texts that the constant in a slot leads to
  (`reachedUnits`);
* what resolving a slot says about them: the texts are those units, read (`units_of_text`,
  `reachedUnits_of_className`, …);
* what they are in a slot that holds a request: the units of the texts requested
  (`Request.Holds.reachedUnits`).
-/

namespace Rewire

namespace ConstantPool

/-! ## 1. Units that are reached -/

/-- The units of the text in a slot. -/
def unitsAt (p : ConstantPool) (index : UInt16) : Outcome (List UInt16) := do
  match ← p.get index with
  | .utf8 bytes => Modified.decodeUnits bytes
  | _ => fail (.notText index)

/-- The units of the name of the class in a slot. -/
def classUnits (p : ConstantPool) (index : UInt16) : Outcome (List UInt16) := do
  match ← p.get index with
  | .classRef name => p.unitsAt name
  | _ => fail (.notClass index)

/-- The units of the name and of the descriptor in a slot. -/
def nameAndTypeUnits (p : ConstantPool) (index : UInt16) : Outcome (List (List UInt16)) := do
  match ← p.get index with
  | .nameAndType name descriptor => return [← p.unitsAt name, ← p.unitsAt descriptor]
  | _ => fail (.notNameAndType index)

/-- The units of the texts that the constant in a slot leads to: of a class its name, of a string
    its text, of a member its owner, name and descriptor. No other constant is looked into. -/
def reachedUnits (p : ConstantPool) (index : UInt16) : Outcome (List (List UInt16)) := do
  match ← p.get index with
  | .classRef name => return [← p.unitsAt name]
  | .string text => return [← p.unitsAt text]
  | .fieldRef owner member | .methodRef owner member | .interfaceMethodRef owner member =>
    return (← p.classUnits owner) :: (← p.nameAndTypeUnits member)
  | _ => return []

section Resolved

variable {p : ConstantPool} {i : UInt16} {s : String}

/-- A text was read from units. -/
theorem units_of_text (h : p.text i = .ok s) :
    ∃ units, p.unitsAt i = .ok units ∧ ofUnits16 units = s := by
  obtain ⟨c, hc, h⟩ := bind_eq_ok.1 h
  cases c with
  | utf8 bytes =>
    obtain ⟨units, hunits, rfl⟩ := map_eq_ok.1 h
    exact ⟨units, bind_eq_ok.2 ⟨_, hc, hunits⟩, rfl⟩
  | _ => cases h

theorem units_of_className (h : p.className i = .ok s) :
    ∃ units, p.classUnits i = .ok units ∧ ofUnits16 units = s := by
  obtain ⟨c, hc, h⟩ := bind_eq_ok.1 h
  cases c with
  | classRef name =>
    obtain ⟨units, hunits, rfl⟩ := units_of_text h
    exact ⟨units, bind_eq_ok.2 ⟨_, hc, hunits⟩, rfl⟩
  | _ => cases h

theorem units_of_nameAndType {name descriptor : String}
    (h : p.nameAndType i = .ok (name, descriptor)) :
    ∃ texts, p.nameAndTypeUnits i = .ok texts ∧ texts.map ofUnits16 = [name, descriptor] := by
  obtain ⟨c, hc, h⟩ := bind_eq_ok.1 h
  cases c with
  | nameAndType n d =>
    obtain ⟨_, hname, h⟩ := bind_eq_ok.1 h
    obtain ⟨_, hdescriptor, h⟩ := bind_eq_ok.1 h
    cases h
    obtain ⟨first, hfirst, rfl⟩ := units_of_text hname
    obtain ⟨second, hsecond, rfl⟩ := units_of_text hdescriptor
    exact ⟨[first, second], bind_eq_ok.2 ⟨_, hc, bind_eq_ok.2 ⟨_, hfirst,
      bind_eq_ok.2 ⟨_, hsecond, rfl⟩⟩⟩, rfl⟩
  | _ => cases h

/-- **The class in a slot** leads to its name. -/
theorem reachedUnits_of_className (h : p.className i = .ok s) :
    ∃ texts, p.reachedUnits i = .ok texts ∧ texts.map ofUnits16 = [s] := by
  obtain ⟨c, hc, h⟩ := bind_eq_ok.1 h
  cases c with
  | classRef name =>
    obtain ⟨units, hunits, rfl⟩ := units_of_text h
    exact ⟨[units], bind_eq_ok.2 ⟨_, hc, bind_eq_ok.2 ⟨_, hunits, rfl⟩⟩, rfl⟩
  | _ => cases h

/-- **The member in a slot** leads to its owner, its name and its descriptor. -/
theorem reachedUnits_of_memberRef {m : MemberRef} (h : p.memberRef i = .ok m) :
    ∃ texts, p.reachedUnits i = .ok texts ∧
      texts.map ofUnits16 = [m.owner, m.name, m.descriptor] := by
  obtain ⟨c, hc, h⟩ := bind_eq_ok.1 h
  have hresolve : ∀ {owner member : UInt16} {interface : Bool},
      memberRef.resolve p owner member interface = .ok m → ∃ units texts,
        p.classUnits owner = .ok units ∧ p.nameAndTypeUnits member = .ok texts ∧
          (units :: texts).map ofUnits16 = [m.owner, m.name, m.descriptor] := by
    intro owner member interface h
    obtain ⟨howner, hmember, -⟩ := resolve_eq_ok.1 h
    obtain ⟨units, hunits, hname⟩ := units_of_className howner
    obtain ⟨texts, htexts, hnames⟩ := units_of_nameAndType hmember
    exact ⟨units, texts, hunits, htexts, by rw [List.map_cons, hname, hnames]⟩
  cases c with
  | fieldRef owner member | methodRef owner member | interfaceMethodRef owner member =>
    obtain ⟨units, texts, hunits, htexts, hall⟩ := hresolve h
    exact ⟨units :: texts, bind_eq_ok.2 ⟨_, hc, bind_eq_ok.2 ⟨_, hunits,
      bind_eq_ok.2 ⟨_, htexts, rfl⟩⟩⟩, hall⟩
  | _ => cases h

end Resolved

/-! ## 2. Units of what was requested -/

section Requested

variable {p : ConstantPool} {i : UInt16} {s : String}

theorem HoldsText.unitsAt (h : p.HoldsText s i) : p.unitsAt i = .ok (units16 s) :=
  bind_eq_ok.2 ⟨_, h.2.get, Modified.decodeUnits_encodeUnits _⟩

theorem HoldsClass.classUnits (h : p.HoldsClass s i) : p.classUnits i = .ok (units16 s) := by
  obtain ⟨n, hn, hi⟩ := h
  exact bind_eq_ok.2 ⟨_, hi.get, hn.unitsAt⟩

theorem HoldsNameAndType.nameAndTypeUnits {name descriptor : String}
    (h : p.HoldsNameAndType name descriptor i) :
    p.nameAndTypeUnits i = .ok [units16 name, units16 descriptor] := by
  obtain ⟨n, d, hn, hd, hi⟩ := h
  exact bind_eq_ok.2 ⟨_, hi.get, bind_eq_ok.2 ⟨_, hn.unitsAt, bind_eq_ok.2 ⟨_, hd.unitsAt, rfl⟩⟩⟩

end Requested

end ConstantPool

namespace Request

open ConstantPool

/-- The texts that the constant for a request leads to. -/
def texts : Request → List String
  | classRef name => [name]
  | string s => [s]
  | field m => [m.owner, m.name, m.descriptor]
  | method m => [m.owner, m.name, m.descriptor]
  | _ => []

/-- **A slot that holds a request** leads to the units of the texts requested. -/
theorem Holds.reachedUnits {p : ConstantPool} {i : UInt16} {r : Request} (h : r.Holds p i) :
    p.reachedUnits i = .ok (r.texts.map units16) := by
  cases r with
  | text s =>
    obtain ⟨-, hi⟩ := h
    exact bind_eq_ok.2 ⟨_, hi.get, rfl⟩
  | classRef name =>
    obtain ⟨n, hn, hi⟩ := h
    exact bind_eq_ok.2 ⟨_, hi.get, bind_eq_ok.2 ⟨_, hn.unitsAt, rfl⟩⟩
  | string s =>
    obtain ⟨n, hn, hi⟩ := h
    exact bind_eq_ok.2 ⟨_, hi.get, bind_eq_ok.2 ⟨_, hn.unitsAt, rfl⟩⟩
  | integer value => exact bind_eq_ok.2 ⟨_, IsFirstSlot.get h, rfl⟩
  | float bits => exact bind_eq_ok.2 ⟨_, IsFirstSlot.get h, rfl⟩
  | long value => exact bind_eq_ok.2 ⟨_, IsFirstSlot.get h, rfl⟩
  | double bits => exact bind_eq_ok.2 ⟨_, IsFirstSlot.get h, rfl⟩
  | nameAndType name descriptor =>
    obtain ⟨n, d, -, -, hi⟩ := h
    exact bind_eq_ok.2 ⟨_, hi.get, rfl⟩
  | field m =>
    obtain ⟨owner, member, howner, hmember, hi⟩ := h
    exact bind_eq_ok.2 ⟨_, hi.get, bind_eq_ok.2 ⟨_, howner.classUnits,
      bind_eq_ok.2 ⟨_, hmember.nameAndTypeUnits, rfl⟩⟩⟩
  | method m =>
    obtain ⟨owner, member, howner, hmember, hi⟩ := h
    have hreached : (do return (← p.classUnits owner) :: (← p.nameAndTypeUnits member)) =
        Except.ok [units16 m.owner, units16 m.name, units16 m.descriptor] :=
      bind_eq_ok.2 ⟨_, howner.classUnits, bind_eq_ok.2 ⟨_, hmember.nameAndTypeUnits, rfl⟩⟩
    obtain ⟨m, interface⟩ := m
    cases interface with
    | false => exact bind_eq_ok.2 ⟨_, hi.get, hreached⟩
    | true => exact bind_eq_ok.2 ⟨_, hi.get, hreached⟩

end Request

end Rewire
