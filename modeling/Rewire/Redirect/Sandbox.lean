import Rewire.ClassFile.Basic
import Rewire.Descriptor.Scanner
import Rewire.Log
import Rewire.Redirect.Table

/-!
# Redirect tables from sandbox classes

A sandbox class declares its methods as replacements. There are two ways of reading one: strictly,
for class files with known attributes only, and leniently, for everything else that can be read.
They differ in how they report slots that do not hold what they should. This file fixes

* which class files are read strictly (`ClassFile.isStandard`): everything has to be in order down
  to the attributes inside code, and every attribute and text has to be one the format defines;
* the declared methods (`declaredMethods`), without constructors and static initialisers;
* the table of a sandbox class (`RedirectTable.ofSandbox`).
-/

namespace Rewire

/-! ## 1. Standard class files -/

/-- The attributes that the class-file format defines. -/
def standardAttributes : List String :=
  ["ConstantValue", "Code", "StackMapTable", "Exceptions", "InnerClasses", "EnclosingMethod",
    "Synthetic", "Signature", "SourceFile", "SourceDebugExtension", "LineNumberTable",
    "LocalVariableTable", "LocalVariableTypeTable", "Deprecated", "RuntimeVisibleAnnotations",
    "RuntimeInvisibleAnnotations", "RuntimeVisibleParameterAnnotations",
    "RuntimeInvisibleParameterAnnotations", "RuntimeVisibleTypeAnnotations",
    "RuntimeInvisibleTypeAnnotations", "AnnotationDefault", "BootstrapMethods",
    "MethodParameters", "Module", "ModulePackages", "ModuleMainClass", "NestHost", "NestMembers",
    "Record", "PermittedSubclasses"]

/-- Reads the attributes nested in the body of a code attribute. -/
def Reader.codeAttributes : Reader (List RawAttribute) := do
  let _ ← u16
  let _ ← u16
  let length ← u32
  let _ ← bytes length.toNat
  let handlers ← u16
  let _ ← bytes (8 * handlers.toNat)
  rawAttributes

namespace ClassFile

/-- Whether an attribute is one the format defines. -/
def hasStandardName (c : ClassFile) (a : RawAttribute) : Bool :=
  match c.attributeName a with
  | .ok name => standardAttributes.contains name
  | .error _ => false

/-- Whether an attribute and, if it holds code, those nested in it are ones the format defines. -/
def isStandardAttribute (c : ClassFile) (a : RawAttribute) : Bool :=
  c.hasStandardName a &&
    ((c.attributeName a).toOption != some AttributeName.code ||
      match Reader.codeAttributes.onBytes a.body with
      | .ok nested => nested.all c.hasStandardName
      | .error _ => false)

/-- Whether every text can be decoded and every attribute is one the format defines. -/
def isStandard (c : ClassFile) : Bool :=
  c.pool.constants.all (fun entry =>
    match entry with
    | .utf8 bytes => (Modified.decodeText bytes).isOk
    | _ => true) &&
    (c.attributes ++ (c.fields ++ c.methods).flatMap MemberInfo.attributes).all
      c.isStandardAttribute

end ClassFile

/-! ## 2. Declared methods -/

/-- A class and the methods it declares. -/
structure DeclaredMethods where
  owner : String
  methods : List Signature

namespace ConstantPool

/-- The text in a slot of a standard class file. -/
def standardText (p : ConstantPool) (index : UInt16) : Outcome String := do
  match ← orFail .missingTextEntry p.slots[index.toNat]? with
  | some (.utf8 bytes) => Modified.decodeText bytes
  | _ => fail .unexpectedTextEntry

/-- The name of the class in a slot of a standard class file. -/
def standardClassName (p : ConstantPool) (index : UInt16) : Outcome String := do
  match ← orFail .missingClassEntry p.slots[index.toNat]? with
  | some (.classRef name) => p.standardText name
  | _ => fail .unexpectedClassEntry

end ConstantPool

/-- The methods of a standard class file. -/
def ClassFile.standardMethods (c : ClassFile) : Outcome DeclaredMethods := do
  let owner ← c.pool.standardClassName c.thisClass
  let methods ← c.methods.mapM fun m => do
    let name ← during .resolvingMethodName (c.pool.standardText m.name)
    let descriptor ← during .resolvingMethodDescriptor (c.pool.standardText m.descriptor)
    return (⟨name, descriptor⟩ : Signature)
  return { owner, methods }

/-- The methods of any class file. -/
def ClassFile.declaredMethods (c : ClassFile) : Outcome DeclaredMethods := do
  let methods ← c.methods.mapM fun m => do
    return (⟨← c.pool.text m.name, ← c.pool.text m.descriptor⟩ : Signature)
  return { owner := ← c.name, methods }

/-- Why a class file is not read as a standard one. -/
def nonStandardReason : Outcome ClassFile → Failure
  | .error f => f
  | .ok _ => ⟨[], .nonStandardClass⟩

/-- The methods declared by the class file in a byte string. -/
def declaredMethods (data : Bytes) : Logged DeclaredMethods := do
  let parsed := ClassFile.read data
  match parsed.toOption.filter ClassFile.isStandard with
  | some c => (c.standardMethods : Outcome DeclaredMethods)
  | none =>
    Logged.note (.sandboxReadDirectly (nonStandardReason parsed))
    let c ← (during .readingSandbox parsed : Outcome ClassFile)
    (c.declaredMethods : Outcome DeclaredMethods)

/-! ## 3. Tables -/

/-- Methods that are not called by name. -/
def isInitializer (name : String) : Bool :=
  name == "<init>" || name == "<clinit>"

/-- The table of the methods that a sandbox class declares. -/
def RedirectTable.ofSandbox (data : Bytes) : Logged RedirectTable := do
  let declared ← declaredMethods data
  let methods := declared.methods.filter fun s => !isInitializer s.name
  (RedirectTable.ofReplacements (methods.map fun s =>
    { owner := declared.owner, name := s.name, descriptor := s.descriptor }) :
    Outcome RedirectTable)

end Rewire
