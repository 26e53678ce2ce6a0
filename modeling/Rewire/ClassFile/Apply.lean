import Rewire.ClassFile.Decode
import Rewire.Code.Assemble

/-!
# Writing edited methods back

Only the code attributes of modified methods are written again. This file fixes

* where a new code attribute goes (`MemberInfo.setCode`): in place of the first attribute that has
  the slot of the name `Code`, or after all others;
* the methods that lost attributes (`DroppedAttributes`). From class version 51 on a stack map table
  is required, so there losing one is a failure;
* writing back a whole class (`ClassFile.apply`). The slot of the name `Code` is added even if no
  method was modified.
-/

namespace Rewire

/-- The attributes that a method lost because its code changed. -/
structure DroppedAttributes where
  method : String
  descriptor : String
  attributes : List String
  deriving DecidableEq, Repr, Inhabited

/-- The first class version that requires stack map tables. -/
def framesRequiredSince : UInt16 := 51

/-- The list with the first element that satisfies `p` replaced, or with the new element after all
    others if there is none. -/
def replaceFirstOrAppend {α : Type} (p : α → Bool) (new : α) (l : List α) : List α :=
  match l.findIdx? p with
  | some i => l.set i new
  | none => l ++ [new]

/-- The entry with a new code attribute. -/
def MemberInfo.setCode (m : MemberInfo) (codeName : UInt16) (body : Bytes) : MemberInfo :=
  { m with
    attributes := replaceFirstOrAppend (fun a => a.name == codeName) ⟨codeName, body⟩ m.attributes }

/-- The entry with the method's code written into it, and what the method lost. -/
def applyMethod (version : UInt16) (owner : String) (codeName : UInt16) (entry : MemberInfo)
    (m : Method) : Assembly (MemberInfo × Option DroppedAttributes) := do
  if !m.modified then return (entry, none)
  let assembled ← during (.assembling owner m.name m.descriptor) (assemble m)
  if framesRequiredSince ≤ version ∧ AttributeName.stackMap ∈ assembled.dropped then
    fail (.framesRequired owner m.name m.descriptor version)
  let entry := entry.setCode codeName assembled.body
  if assembled.dropped.isEmpty then return (entry, none)
  Assembly.note (.attributesLost assembled.dropped ⟨owner, m.name, m.descriptor⟩)
  return (entry, some ⟨m.name, m.descriptor, assembled.dropped⟩)

/-- Writes the methods of a class back into a class file, with the pool of the file growing on the
    way. -/
def ClassFile.applySteps (c : ClassFile) (edited : ClassBody) :
    Assembly (List (MemberInfo × Option DroppedAttributes)) := do
  let codeName ← (ConstantPool.internText AttributeName.code : ConstantPool.PoolStep UInt16)
  (c.methods.zip edited.methods).mapM fun (entry, m) =>
    applyMethod c.majorVersion edited.name codeName entry m

/-- The class file with the modified methods of a class written into it, and the methods that lost
    attributes. -/
def ClassFile.apply (c : ClassFile) (edited : ClassBody) :
    Logged (ClassFile × List DroppedAttributes) := do
  if edited.methods.length ≠ c.methods.length then
    fail (.methodCountChanged c.methods.length edited.methods.length)
  let (results, pool) ← (c.applySteps edited).onPool c.pool
  return ({ c with methods := results.map Prod.fst, pool }, results.filterMap Prod.snd)

end Rewire
