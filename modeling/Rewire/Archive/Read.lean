import Rewire.Archive.Write
import Rewire.Fault

/-!
# Reading archives

An archive is read from its end: the end record tells where the directory is, and the directory
where the entries are. Bytes in front of an archive do not matter. This file fixes

* the text of a name (`nameText`), which before Unicode was written in code page 437;
* what the directory says about an entry (`ArchiveItem`), and the whole directory
  (`readArchive`);
* the entry itself (`ArchiveItem.entry`), whose data has to pass its check.
-/

namespace Rewire

/-! ## 1. Names -/

/-- The characters of code page 437 from 128 on. -/
def codePage437 : Array Char :=
  ("ÇüéâäàåçêëèïîìÄÅÉæÆôöòûùÿÖÜ¢£¥₧ƒáíóúñÑªº¿⌐¬½¼¡«»░▒▓│┤╡╢╖╕╣║╗╝╜╛┐└┴┬├─┼╞╟╚╔╩╦╠═╬╧╨╤╥╙╘╒╓╫╪┘┌" ++
    "█▄▌▐▀αßΓπΣσµτΦΘΩδ∞φε∩≡±≥≤⌠⌡÷≈°∙·√ⁿ²■\u00a0").toList.toArray

/-- The character of a byte in code page 437. -/
def codePageChar (b : UInt8) : Char :=
  if b < 0x80 then Char.ofNat b.toNat else (codePage437[b.toNat - 0x80]?).getD '\ufffd'

/-- The text of a name. -/
def nameText (isUnicode : Bool) (bytes : Bytes) : String :=
  let plain := String.ofList (bytes.map codePageChar)
  if isUnicode then (String.fromUTF8? (ByteArray.mk bytes.toArray)).getD plain else plain

/-! ## 2. Directories -/

/-- What the directory of an archive says about an entry. -/
structure ArchiveItem where
  name : String
  /-- The number of the method. -/
  method : Nat
  stamp : Nat
  check : Nat
  storedSize : Nat
  /-- Where the entry's own record is. -/
  offset : Nat
  deriving Repr, Inhabited

/-- The length of an end record without a comment. -/
def endRecordLength : Nat := 22

/-- The position of the last end record that starts before a position. -/
def endRecordBefore? (data : Array UInt8) : Nat → Option Nat
  | 0 => none
  | i + 1 => if le32At? data i = some 0x06054b50 then some i else endRecordBefore? data i

/-- Bytes of a byte string, if it is long enough. -/
def slice? (data : Array UInt8) (start length : Nat) : Option (Array UInt8) :=
  if start + length ≤ data.size then some (data.extract start (start + length)) else none

/-- The item at a position of the directory and the position of the next one. Offsets in the
    directory count from `base`. -/
def itemAt? (data : Array UInt8) (base i : Nat) : Option (ArchiveItem × Nat) := do
  if (← le32At? data i) ≠ 0x02014b50 then none
  let flags ← le16At? data (i + 8)
  let method ← le16At? data (i + 10)
  let stamp ← le32At? data (i + 12)
  let check ← le32At? data (i + 16)
  let storedSize ← le32At? data (i + 20)
  let nameLength ← le16At? data (i + 28)
  let extraLength ← le16At? data (i + 30)
  let commentLength ← le16At? data (i + 32)
  let offset ← le32At? data (i + 42)
  let name ← slice? data (i + 46) nameLength
  return ({ name := nameText (flags &&& ArchiveEntry.unicodeFlag != 0) name.toList
            method, stamp, check, storedSize, offset := base + offset },
    i + 46 + nameLength + extraLength + commentLength)

/-- A number of items from a position on, after those in `done`. -/
def itemsFrom? (data : Array UInt8) (base : Nat) (done : Array ArchiveItem) (i : Nat) :
    Nat → Option (List ArchiveItem)
  | 0 => some done.toList
  | count + 1 => do
    let (item, i) ← itemAt? data base i
    itemsFrom? data base (done.push item) i count

/-- The items of the directory whose end record is at a position. -/
def directoryAt? (data : Array UInt8) (stop : Nat) : Option (List ArchiveItem) := do
  let count ← le16At? data (stop + 10)
  let size ← le32At? data (stop + 12)
  let offset ← le32At? data (stop + 16)
  if stop < size + offset then none
  else itemsFrom? data (stop - size - offset) #[] (stop - size) count

/-- The items of an archive. -/
def readArchive (data : Array UInt8) : Outcome (List ArchiveItem) := do
  let stop ← orFail .notAnArchive (endRecordBefore? data (data.size + 1 - endRecordLength))
  orFail .malformedArchive (directoryAt? data stop)

/-! ## 3. Entries -/

namespace ArchiveItem

/-- Whether the entry stands for a directory. -/
def isDirectory (item : ArchiveItem) : Bool :=
  ArchiveEntry.isDirectoryName item.name

/-- The bytes in which the entry's data is stored, behind its own record. -/
def payload? (data : Array UInt8) (item : ArchiveItem) : Option (Array UInt8) := do
  if (← le32At? data item.offset) ≠ 0x04034b50 then none
  let nameLength ← le16At? data (item.offset + 26)
  let extraLength ← le16At? data (item.offset + 28)
  slice? data (item.offset + 30 + nameLength + extraLength) item.storedSize

/-- The way an entry is stored, if it is one of the two. -/
def method? (item : ArchiveItem) : Option EntryMethod :=
  if item.method = EntryMethod.stored.code then some .stored
  else if item.method = EntryMethod.deflated.code then some .deflated
  else none

/-- The data of an entry from its bytes as they are stored. -/
def unpack : EntryMethod → Array UInt8 → Option (Array UInt8)
  | .stored, payload => some payload
  | .deflated, payload => inflate payload

/-- The entry. -/
def entry (data : Array UInt8) (item : ArchiveItem) : Outcome ArchiveEntry := do
  let method ← orFail .unsupportedMethod item.method?
  let payload ← orFail .malformedArchive (item.payload? data)
  let content ← orFail .corruptEntry (unpack method payload)
  let content := content.toList
  if (checksum content).toNat ≠ item.check then fail .checksumMismatch
  return { name := item.name, data := content, method, stamp := item.stamp }

end ArchiveItem

/-- The entries of an archive. -/
def archiveEntries (data : Array UInt8) : Outcome (List ArchiveEntry) := do
  (← readArchive data).mapM (ArchiveItem.entry data)

end Rewire
