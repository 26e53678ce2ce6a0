import Rewire.Archive.Checksum
import Rewire.Archive.Inflate

/-!
# Writing archives

An archive consists of a record for each entry with its data, a directory that repeats what the
records say and tells where they are, and an end record that tells where the directory is. This
file fixes

* entries (`ArchiveEntry`) and how their data is stored (`EntryMethod`);
* the records (`ArchiveEntry.localRecord`, `ArchiveEntry.directoryRecord`, `endRecord`);
* the bytes of an archive (`archiveBytes`).
-/

namespace Rewire

/-! ## 1. Entries -/

/-- How an archive stores an entry. -/
inductive EntryMethod where
  | stored
  | deflated
  deriving DecidableEq, Repr, Inhabited

/-- The number of a method. -/
def EntryMethod.code : EntryMethod → Nat
  | stored => 0
  | deflated => 8

/-- The first of January 1980, midnight: the date in the high half, the time in the low one. -/
def earliestStamp : Nat := 0x00210000

/-- An entry of an archive. -/
structure ArchiveEntry where
  name : String
  data : Bytes
  method : EntryMethod
  /-- When the entry was last changed. -/
  stamp : Nat := earliestStamp
  deriving DecidableEq, Repr, Inhabited

namespace ArchiveEntry

/-- Whether a name stands for a directory. -/
def isDirectoryName (name : String) : Bool :=
  match name.toList.getLast? with
  | some c => c == '/' || c == '\\'
  | none => false

/-- The data as it is stored. -/
def payload (e : ArchiveEntry) : Bytes :=
  match e.method with
  | .stored => e.data
  | .deflated => deflateStored e.data

/-! ## 2. Records -/

/-- The version of the format that an archive needs. -/
def formatVersion : Nat := 20

/-- The flag that marks names in UTF-8. -/
def unicodeFlag : Nat := 0x800

/-- The bytes of the name. -/
def nameBytes (e : ArchiveEntry) : Bytes :=
  e.name.toUTF8.toList

/-- The fields that both records have, up to the length of the name. -/
def commonFields (e : ArchiveEntry) (stored : Nat) : Bytes :=
  le16 formatVersion ++ le16 unicodeFlag ++ le16 e.method.code ++ le32 e.stamp ++
    le32 (checksum e.data).toNat ++ le32 stored ++ le32 e.data.length ++ le16 e.nameBytes.length

/-- The record in front of the data. -/
def localRecord (e : ArchiveEntry) (stored : Nat) : Bytes :=
  le32 0x04034b50 ++ e.commonFields stored ++ le16 0 ++ e.nameBytes

/-- The record in the directory, for an entry whose own record is at an offset. -/
def directoryRecord (e : ArchiveEntry) (stored offset : Nat) : Bytes :=
  le32 0x02014b50 ++ le16 formatVersion ++ e.commonFields stored ++ le16 0 ++ le16 0 ++ le16 0 ++
    le16 0 ++ le32 0 ++ le32 offset ++ e.nameBytes

end ArchiveEntry

/-- The record at the end of an archive. -/
def endRecord (count size offset : Nat) : Bytes :=
  le32 0x06054b50 ++ le16 0 ++ le16 0 ++ le16 count ++ le16 count ++ le32 size ++ le32 offset ++
    le16 0

/-! ## 3. Archives -/

/-- The records of entries with their data, the first one at an offset, and the directory. -/
def archiveParts (offset : Nat) : List ArchiveEntry → List Bytes × List Bytes
  | [] => ([], [])
  | e :: rest =>
    let payload := e.payload
    let record := e.localRecord payload.length
    let (records, directory) := archiveParts (offset + record.length + payload.length) rest
    (record :: payload :: records, e.directoryRecord payload.length offset :: directory)

/-- The bytes of an archive. -/
def archiveBytes (entries : List ArchiveEntry) : Bytes :=
  let (records, directory) := archiveParts 0 entries
  let records := records.flatten
  let directory := directory.flatten
  records ++ directory ++ endRecord entries.length directory.length records.length

end Rewire
