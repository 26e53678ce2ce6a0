import Rewire.ClassFile.Basic
import Rewire.Code.Decode

/-!
# From class files to editable methods

This file fixes the editable view of a class file (`ClassFile.decode`): its name, the name of its
superclass, and one method per method entry, in order, with the code of the first attribute named
`Code` if there is one.
-/

namespace Rewire.ClassFile

/-- The first attribute with the given name. Attributes after it are not looked at. -/
def findAttribute (c : ClassFile) (wanted : String) :
    List RawAttribute → Outcome (Option RawAttribute)
  | [] => .ok none
  | a :: rest => do
    if (← c.attributeName a) = wanted then return some a
    else c.findAttribute wanted rest

/-- The method of an entry of the class named `owner`. -/
def decodeMember (c : ClassFile) (owner : String) (m : MemberInfo) : Outcome Method := do
  let name ← c.pool.text m.name
  let descriptor ← c.pool.text m.descriptor
  let method : Method := { name, descriptor, flags := m.flags }
  match ← c.findAttribute AttributeName.code m.attributes with
  | some a =>
    during (.decodingMethod owner name descriptor) (decodeMethod c.pool method a.body)
  | none => return method

/-- The editable view of a class file. -/
def decode (c : ClassFile) : Outcome ClassBody := do
  let name ← c.name
  let methods ← c.methods.mapM (c.decodeMember name)
  let superName ← c.superName
  return { name, superName, methods }

end Rewire.ClassFile
