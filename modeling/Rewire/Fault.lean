import Rewire.Pool.Constant
import Rewire.Text.Hex

/-!
# Failures

Every operation that can fail says why with a value. This file fixes

* the root causes (`Fault`), one constructor per rule that input can break;
* the activities a failure is reported from (`Activity`);
* a failure (`Failure`): a root cause below the activities that were under way, outermost first;
* the one wording of each (`Fault.text`, `Activity.text`) and of the whole (`Failure.message`).
-/

namespace Rewire

/-! ## 1. Root causes -/

/-- The rule that was broken. -/
inductive Fault where
  -- reading bytes
  /-- The input ends before the byte or byte string asked for. -/
  | truncated
  /-- A word of so many bits does not lie inside the input. -/
  | wordOutOfBounds (bits : Nat)
  /-- The end of a byte string is not a position. -/
  | lengthOverflow
  -- fitting numbers into words
  | numberTooLarge
  | numberTooSmall
  /-- The result of an arithmetic operation, named by its verb, is no word. -/
  | overflow (verb : String)
  -- descriptors
  | descriptorEnded
  | missingSemicolon
  | tooManyDimensions
  | invalidDescriptor
  | unrecognizedType
  | missingParameterList
  | missingReturnType
  | notAFieldType
  | voidParameter (text : String)
  | voidField (text : String)
  -- text
  | truncatedText
  | invalidTextByte (byte : UInt8)
  -- the constant pool
  | unknownConstantTag (tag : UInt8) (slot : Nat)
  | slotCountMismatch
  | invalidSlot (index : UInt16)
  | notText (index : UInt16)
  | notClass (index : UInt16)
  | notNameAndType (index : UInt16)
  | notMember (index : UInt16)
  | poolOverflow
  | textTooLong
  -- stack map frames
  | reservedFrameKind (tag : UInt8)
  | unknownTypeTag (tag : UInt8)
  | framesCollide (old landing previous : Nat)
  | noCompactFrame (stackItems : Nat)
  | inexpressibleLocals (chopped appended : Nat)
  | allocationSiteRemoved (site : Nat)
  -- reading code
  | unsupportedOpcode (opcode : UInt8)
  | invalidInstructionLength (offset : Nat)
  | branchOutOfRange (target : Int) (offset : Nat)
  | notInstructionBoundary (offset : Nat)
  | noLabelAt (offset : Nat)
  | invalidTableRange
  | invalidPairCount
  | missingWideOpcode
  | missingCallKind
  | notInvokeDynamic (index : UInt16)
  | notLoadable (index : UInt16) (entry : Constant)
  -- writing code
  | noInstructions
  | labelPlacedTwice (label : Nat)
  | danglingLabel (label : Nat)
  | codeTooLong (length limit : Nat)
  | tableArity (low high : Int32) (targets : Nat)
  | notLocalAccess (opcode : UInt8)
  | notConditional (opcode : UInt8)
  | notOperandLess (opcode : UInt8)
  -- class files
  | invalidMagic (magic : UInt32)
  | trailingBytes (count : Nat)
  | methodCountChanged (before after : Nat)
  | framesRequired (owner name descriptor : String) (version : UInt16)
  -- sandbox classes
  | nonStandardClass
  | missingClassEntry
  | missingTextEntry
  | unexpectedClassEntry
  | unexpectedTextEntry
  -- patch rules
  | ruleFoundNothing (id name owner method : String)
  | ruleWithoutPredicates (id : String)
  -- settings
  | malformedSettings
  -- files
  | noSuchFile
  | notADirectory
  | isADirectory
  | fileExists
  | notText8
  | notAnArchive
  | malformedArchive
  | unsupportedMethod
  | corruptEntry
  | checksumMismatch
  | unsupportedInput (path : String)
  | inputNotFound (path : String)
  | sandboxNotFound (path : String)
  deriving DecidableEq, Repr

/-- The wording of a root cause. -/
def Fault.text : Fault → String
  | .truncated => "class file truncated"
  | .wordOutOfBounds bits => s!"bytecode u{bits} out of bounds"
  | .lengthOverflow => "class file length overflow"
  | .numberTooLarge => "number too large to fit in target type"
  | .numberTooSmall => "number too small to fit in target type"
  | .overflow verb => s!"attempt to {verb} with overflow"
  | .descriptorEnded => "Unexpected end of input."
  | .missingSemicolon => "Invalid descriptor: Missing semicolon in class name descriptor."
  | .tooManyDimensions => "Array has too many dimensions."
  | .invalidDescriptor => "Invalid descriptor: Invalid descriptor."
  | .unrecognizedType => "Invalid descriptor: Unrecognized type descriptor."
  | .missingParameterList => "Invalid descriptor: Method descriptor must start with '('."
  | .missingReturnType => "Invalid descriptor: Missing return type."
  | .notAFieldType => "Invalid descriptor: Invalid descriptor"
  | .voidParameter text => s!"malformed method descriptor {text}: void parameter"
  | .voidField text => s!"malformed field descriptor {text}: void field"
  | .truncatedText => "truncated utf8 sequence"
  | .invalidTextByte byte => "invalid modified utf8 byte 0x" ++ hexadecimal 2 byte.toNat
  | .unknownConstantTag tag slot => s!"unknown constant pool tag {tag} at slot {slot}"
  | .slotCountMismatch => "constant pool slot count mismatch"
  | .invalidSlot index => s!"invalid constant pool index {index}"
  | .notText index => s!"constant {index} is not a utf8 entry"
  | .notClass index => s!"constant {index} is not a class entry"
  | .notNameAndType index => s!"constant {index} is not a name and type entry"
  | .notMember index => s!"constant {index} is not a member reference"
  | .poolOverflow => "constant pool overflow"
  | .textTooLong => "utf8 constant too long"
  | .reservedFrameKind tag => s!"reserved stack map frame type {tag}"
  | .unknownTypeTag tag => s!"unknown verification type tag {tag}"
  | .framesCollide old landing previous =>
    s!"frame at offset {old} lands at {landing} after the frame at {previous}"
  | .noCompactFrame stackItems => s!"frame with {stackItems} stack items has no compact form"
  | .inexpressibleLocals chopped appended =>
    s!"locals change (chop {chopped}, append {appended}) of removed frames cannot be expressed"
  | .allocationSiteRemoved site => s!"allocation site {site} was removed"
  | .unsupportedOpcode opcode => "unsupported opcode 0x" ++ hexadecimal 2 opcode.toNat
  | .invalidInstructionLength offset => s!"invalid bytecode length at offset {offset}"
  | .branchOutOfRange target offset =>
    s!"branch target {target} out of range at offset {offset}"
  | .notInstructionBoundary offset => s!"offset {offset} is not an instruction boundary"
  | .noLabelAt offset => s!"no label at offset {offset}"
  | .invalidTableRange => "invalid tableswitch range"
  | .invalidPairCount => "invalid lookupswitch pairs"
  | .missingWideOpcode => "missing wide opcode"
  | .missingCallKind => "call kind"
  | .notInvokeDynamic index => s!"invokedynamic operand {index} is not an InvokeDynamic"
  | .notLoadable index entry =>
    s!"ldc operand {index} is not loadable: " ++ entry.describe
  | .noInstructions => "method has no instructions"
  | .labelPlacedTwice label => s!"label Label({label}) placed twice"
  | .danglingLabel label => s!"dangling label Label({label})"
  | .codeTooLong length limit => s!"code length {length} exceeds {limit}"
  | .tableArity low high targets => s!"tableswitch {low}..={high} has {targets} targets"
  | .notLocalAccess opcode =>
    "opcode 0x" ++ hexadecimal 2 opcode.toNat ++ " is not a local variable access"
  | .notConditional opcode =>
    "opcode 0x" ++ hexadecimal 2 opcode.toNat ++ " is not a conditional branch"
  | .notOperandLess opcode =>
    "opcode 0x" ++ hexadecimal 2 opcode.toNat ++ " is not an operand-less instruction"
  | .invalidMagic magic => "invalid class file magic 0x" ++ hexadecimal 8 magic.toNat
  | .trailingBytes count => s!"{count} trailing bytes after class file"
  | .methodCountChanged before after => s!"method count changed from {before} to {after}"
  | .framesRequired owner name descriptor version =>
    s!"cannot rewrite {owner}.{name}{descriptor}: its StackMapTable no longer fits the code and " ++
      s!"class version {version} requires one"
  | .nonStandardClass => "unknown attribute or malformed text"
  | .missingClassEntry => "missing class entry"
  | .missingTextEntry => "missing utf8 entry"
  | .unexpectedClassEntry => "unexpected class entry"
  | .unexpectedTextEntry => "unexpected utf8 entry"
  | .ruleFoundNothing id name owner method =>
    s!"patch rule {id} ({name}) found no match in {owner}.{method}"
  | .ruleWithoutPredicates id => s!"patch rule {id} has no predicates"
  | .malformedSettings => "malformed settings"
  | .noSuchFile => "No such file or directory (os error 2)"
  | .notADirectory => "Not a directory (os error 20)"
  | .isADirectory => "Is a directory (os error 21)"
  | .fileExists => "File exists (os error 17)"
  | .notText8 => "stream did not contain valid UTF-8"
  | .notAnArchive => "invalid Zip archive: Could not find EOCD"
  | .malformedArchive => "invalid Zip archive: Invalid local file header"
  | .unsupportedMethod => "unsupported Zip archive: Compression method not supported"
  | .corruptEntry => "corrupt deflate stream"
  | .checksumMismatch => "Invalid checksum"
  | .unsupportedInput path => s!"unsupported input file: {path}"
  | .inputNotFound path => s!"input not found: {path}"
  | .sandboxNotFound path => s!"sandbox class not found: {path}"

/-! ## 2. Activities -/

/-- What was being done when a failure arose. -/
inductive Activity where
  -- reading
  | readingWord
  | readingMethodDescriptor (text : String)
  | readingFieldDescriptor (text : String)
  | resolvingOwner
  | resolvingNameAndType
  | resolvingThis
  | resolvingSuper
  | resolvingAttributeName
  | resolvingCatchType
  | resolvingLocalName
  | resolvingLocalDescriptor
  | resolvingField
  | resolvingMethod
  | resolvingType
  | resolvingArrayType
  | resolvingMethodName
  | resolvingMethodDescriptor
  | readingStackMap
  | readingInstruction (offset : Nat)
  | readingPool
  | readingFields
  | readingMethods
  | readingClassAttributes
  | readingSandbox
  | decodingMethod (owner name descriptor : String)
  -- writing
  | writingFrameDelta
  | writingFrameLocals
  | writingFrameStack
  | writingShortPush
  | writingBytePush
  | writingArrayType
  | writingJump
  | writingArgumentCount
  | countingLocals
  | countingStack
  | countingMembers
  | countingAttributes
  | measuringAttribute
  | assembling (owner name descriptor : String)
  -- redirecting
  | declaringRedirect (name descriptor owner : String)
  | stubbing (owner name descriptor : String)
  -- transforming one class
  | parsingClass (name : String)
  | decodingClass (name : String)
  | patchingClass (name : String)
  | redirectingCalls (name : String)
  | writingClass (name : String)
  -- files
  | reading (path : String)
  | parsing (path : String)
  | opening (path : String)
  | creating (path : String)
  | writing (path : String)
  | copying (source destination : String)
  | transforming (path : String)
  | listing (path : String)
  | loadingSandbox (path : String)
  deriving DecidableEq, Repr

/-- The wording of an activity. -/
def Activity.text : Activity → String
  | .readingWord => "class file truncated"
  | .readingMethodDescriptor text => s!"malformed method descriptor {text}"
  | .readingFieldDescriptor text => s!"malformed field descriptor {text}"
  | .resolvingOwner => "resolve owner"
  | .resolvingNameAndType => "resolve name and type"
  | .resolvingThis => "resolve this_class"
  | .resolvingSuper => "resolve super_class"
  | .resolvingAttributeName => "resolve code attribute name"
  | .resolvingCatchType => "resolve catch type"
  | .resolvingLocalName => "resolve local name"
  | .resolvingLocalDescriptor => "resolve local descriptor"
  | .resolvingField => "resolve field ref"
  | .resolvingMethod => "resolve method ref"
  | .resolvingType => "resolve type operand"
  | .resolvingArrayType => "resolve array type"
  | .resolvingMethodName => "resolve method name"
  | .resolvingMethodDescriptor => "resolve method descriptor"
  | .readingStackMap => "parse StackMapTable"
  | .readingInstruction offset => s!"decode instruction at offset {offset}"
  | .readingPool => "parse constant pool"
  | .readingFields => "parse fields"
  | .readingMethods => "parse methods"
  | .readingClassAttributes => "parse class attributes"
  | .readingSandbox => "failed to parse sandbox class"
  | .decodingMethod owner name descriptor => s!"decode {owner}.{name}{descriptor}"
  | .writingFrameDelta => "frame offset delta out of range"
  | .writingFrameLocals => "too many frame locals"
  | .writingFrameStack => "too many frame stack items"
  | .writingShortPush => "sipush operand out of range"
  | .writingBytePush => "bipush operand out of range"
  | .writingArrayType => "newarray type out of range"
  | .writingJump => "jump displacement"
  | .writingArgumentCount => "too many interface arguments"
  | .countingLocals => "too many locals"
  | .countingStack => "operand stack too deep"
  | .countingMembers => "too many members"
  | .countingAttributes => "too many attributes"
  | .measuringAttribute => "attribute too long"
  | .assembling owner name descriptor => s!"assemble {owner}.{name}{descriptor}"
  | .declaringRedirect name descriptor owner =>
    s!"invalid redirect {name}{descriptor} -> {owner}"
  | .stubbing owner name descriptor => s!"stub {owner}.{name}{descriptor}"
  | .parsingClass name => s!"failed to parse class {name}"
  | .decodingClass name => s!"failed to decode class {name}"
  | .patchingClass name => s!"failed to patch class {name}"
  | .redirectingCalls name => s!"failed to redirect calls in {name}"
  | .writingClass name => s!"failed to write class {name}"
  | .reading path => s!"failed to read {path}"
  | .parsing path => s!"failed to parse {path}"
  | .opening path => s!"failed to open {path}"
  | .creating path => s!"failed to create {path}"
  | .writing path => s!"failed to write {path}"
  | .copying source destination => s!"failed to copy {source} to {destination}"
  | .transforming path => s!"failed to transform {path}"
  | .listing path => s!"failed to read directory {path}"
  | .loadingSandbox path => s!"failed to load sandbox {path}"

/-! ## 3. Failures -/

/-- A root cause and the activities under way when it arose, outermost first. -/
structure Failure where
  activities : List Activity
  fault : Fault
  deriving DecidableEq, Repr

namespace Failure

/-- The texts from the outermost activity down to the root cause. -/
def chain (f : Failure) : List String :=
  f.activities.map Activity.text ++ [f.fault.text]

/-- The failure on one line: activities and root cause, outermost first, joined by colons. -/
def message (f : Failure) : String :=
  ": ".intercalate f.chain

/-- The failure seen from one activity further out. -/
def within (f : Failure) (a : Activity) : Failure :=
  { f with activities := a :: f.activities }

@[simp] theorem fault_within (f : Failure) (a : Activity) : (f.within a).fault = f.fault := rfl

@[simp] theorem chain_within (f : Failure) (a : Activity) :
    (f.within a).chain = a.text :: f.chain := rfl

end Failure

/-- An outcome: a value, or the failure that prevented it. -/
abbrev Outcome (α : Type) := Except Failure α

/-- Stops with a root cause. -/
def fail {m : Type → Type} [MonadExceptOf Failure m] {α : Type} (f : Fault) : m α :=
  throwThe Failure ⟨[], f⟩

/-- Runs `x`, reporting its failures from the activity `a`. -/
def during {m : Type → Type} [MonadExceptOf Failure m] {α : Type} (a : Activity) (x : m α) : m α :=
  tryCatchThe Failure x fun f => throwThe Failure (f.within a)

/-- The value of an option, or the root cause that reports its absence. -/
def orFail {α : Type} (f : Fault) : Option α → Outcome α
  | some a => .ok a
  | none => .error ⟨[], f⟩

@[simp] theorem during_ok {α : Type} (a : Activity) (x : α) :
    during a (.ok x : Outcome α) = .ok x := rfl

@[simp] theorem during_error {α : Type} (a : Activity) (f : Failure) :
    during a (.error f : Outcome α) = .error (f.within a) := rfl

end Rewire
