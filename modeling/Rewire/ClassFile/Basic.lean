import Rewire.Attribute
import Rewire.Pool.Codec

/-!
# Class files

A class file as a structure whose attributes are kept as byte strings: whatever is not edited
is written back as it was read. This file fixes

* fields and methods (`MemberInfo`) and class files (`ClassFile`);
* reading a class file (`ClassFile.read`), which has to end where the last attribute ends;
* writing it (`ClassFile.bytes`);
* the names of the class and of its superclass.
-/

namespace Rewire

/-! ## 1. Structure -/

/-- A field or method: its flags, the slots of its name and descriptor, and its attributes. -/
structure MemberInfo where
  flags : UInt16
  name : UInt16
  descriptor : UInt16
  attributes : List RawAttribute
  deriving DecidableEq, Repr, Inhabited

/-- A class file. -/
structure ClassFile where
  minorVersion : UInt16
  majorVersion : UInt16
  pool : ConstantPool
  flags : UInt16
  /-- The slot of the class itself. -/
  thisClass : UInt16
  /-- The slot of the superclass, or 0. -/
  superClass : UInt16
  interfaces : List UInt16
  fields : List MemberInfo
  methods : List MemberInfo
  attributes : List RawAttribute
  deriving Inhabited

/-- The word every class file starts with. -/
def classMagic : UInt32 := 0xcafebabe

/-! ## 2. Reading -/

namespace Reader

/-- Reads a field or method. -/
def memberInfo : Reader MemberInfo := do
  let flags ← u16
  let name ← u16
  let descriptor ← u16
  let attributes ← rawAttributes
  return { flags, name, descriptor, attributes }

/-- Reads a counted list of fields or methods. -/
def members : Reader (List MemberInfo) := do
  let count ← u16
  times count.toNat memberInfo

/-- The version numbers and the constant pool at the start of a class file. -/
structure ClassHead where
  minorVersion : UInt16
  majorVersion : UInt16
  pool : ConstantPool

/-- Reads a class file up to the end of its constant pool. -/
def classHead : Reader ClassHead := do
  let magic ← u32
  if magic ≠ classMagic then fail (.invalidMagic magic)
  let minorVersion ← u16
  let majorVersion ← u16
  let pool ← during .readingPool pool
  return { minorVersion, majorVersion, pool }

/-- Requires that nothing is left to read. -/
def finish : Reader Unit := fun c =>
  if c.remaining = 0 then .ok ((), c) else fail (.trailingBytes c.remaining)

/-- Reads a whole class file. -/
def classFile : Reader ClassFile := do
  let head ← classHead
  let flags ← u16
  let thisClass ← u16
  let superClass ← u16
  let interfaceCount ← u16
  let interfaces ← times interfaceCount.toNat u16
  let fields ← during .readingFields members
  let methods ← during .readingMethods members
  let attributes ← during .readingClassAttributes rawAttributes
  finish
  return {
    minorVersion := head.minorVersion
    majorVersion := head.majorVersion
    pool := head.pool
    flags, thisClass, superClass, interfaces, fields, methods, attributes }

end Reader

/-- The class file in a byte string. -/
def ClassFile.read (data : Bytes) : Outcome ClassFile :=
  Reader.classFile.onBytes data

/-! ## 3. Writing -/

/-- The bytes of a field or method. -/
def MemberInfo.bytes (m : MemberInfo) : Outcome Bytes := do
  let attributes ← attributesBytes m.attributes
  return be16 m.flags ++ be16 m.name ++ be16 m.descriptor ++ attributes

/-- The bytes of a counted list of fields or methods. -/
def membersBytes (members : List MemberInfo) : Outcome Bytes := do
  let count ← fitUnsigned16 .countingMembers members.length
  return be16 count ++ (← members.mapM MemberInfo.bytes).flatten

/-- The bytes of a class file. -/
def ClassFile.bytes (c : ClassFile) : Outcome Bytes := do
  let fields ← membersBytes c.fields
  let methods ← membersBytes c.methods
  let attributes ← attributesBytes c.attributes
  return be32 classMagic ++ be16 c.minorVersion ++ be16 c.majorVersion ++ c.pool.bytes ++
    be16 c.flags ++ be16 c.thisClass ++ be16 c.superClass ++
    be16 (UInt16.ofNat c.interfaces.length) ++ c.interfaces.flatMap be16 ++
    fields ++ methods ++ attributes

/-! ## 4. Names -/

namespace ClassFile

/-- The name of the class, with slashes between its parts. -/
def name (c : ClassFile) : Outcome String :=
  during .resolvingThis (c.pool.className c.thisClass)

/-- The name of the superclass, if there is one. -/
def superName (c : ClassFile) : Outcome (Option String) :=
  if c.superClass = 0 then .ok none
  else during .resolvingSuper (some <$> c.pool.className c.superClass)

/-- The name of an attribute. -/
def attributeName (c : ClassFile) (a : RawAttribute) : Outcome String :=
  c.pool.text a.name

end ClassFile

end Rewire
