import Rewire.Pool.Basic

/-!
# Requests to a constant pool

What the pool is asked for, as data. This file fixes

* requests (`Request`) and the step that answers each (`Request.intern`);
* what it means that a slot holds what was requested (`Request.IsAt`);
* the pool after a sequence of requests, answered or not (`ConstantPool.serve`);
* the slots that are in use as numbers (`ConstantPool.IsFirstSlot`).
-/

namespace Rewire

/-- A value that is wanted in a constant pool. -/
inductive Request where
  | text (s : String)
  | classRef (name : String)
  | string (s : String)
  | integer (value : Int32)
  | float (bits : UInt32)
  | long (value : Int64)
  | double (bits : UInt64)
  | nameAndType (name descriptor : String)
  | field (m : Member)
  | method (m : MemberRef)
  deriving DecidableEq, Repr

namespace Request

open ConstantPool in
/-- The slot of the wanted value. -/
def intern : Request → PoolStep UInt16
  | text s => internText s
  | classRef name => internClass name
  | string s => internString s
  | integer value => internInteger value
  | float bits => internFloat bits
  | long value => internLong value
  | double bits => internDouble bits
  | nameAndType name descriptor => internNameAndType name descriptor
  | field m => internField m
  | method m => internMethod m

/-- Whether a slot of a pool holds the wanted value. -/
def IsAt (p : ConstantPool) (index : UInt16) : Request → Prop
  | text s => p.text index = .ok s
  | classRef name => p.className index = .ok name
  | string s => ∃ i, p.get index = .ok (.string i) ∧ p.text i = .ok s
  | integer value => p.get index = .ok (.integer value)
  | float bits => p.get index = .ok (.float bits)
  | long value => p.get index = .ok (.long value)
  | double bits => p.get index = .ok (.double bits)
  | nameAndType name descriptor => p.nameAndType index = .ok (name, descriptor)
  | field m =>
    (∃ owner member, p.get index = .ok (.fieldRef owner member)) ∧
      p.memberRef index = .ok { m with interface := false }
  | method m =>
    (¬ ∃ owner member, p.get index = .ok (.fieldRef owner member)) ∧ p.memberRef index = .ok m

end Request

namespace ConstantPool

/-- The pool after a sequence of requests, each answered as far as there is room. -/
def serve (p : ConstantPool) (requests : List Request) : ConstantPool :=
  requests.foldl (fun p r => (r.intern p).2) p

/-- Whether a slot is the first one that holds a constant. -/
def IsFirstSlot (p : ConstantPool) (c : Constant) (index : UInt16) : Prop :=
  p.slots[index.toNat]? = some (some c) ∧ ∀ j < index.toNat, p.slots[j]? ≠ some (some c)

end ConstantPool

end Rewire
