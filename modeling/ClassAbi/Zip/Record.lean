import ClassAbi.Zip.Number

/-!
# Records of a zip archive

An archive is a local header with data for each entry, a directory record for each
entry, and an end record.  All three begin with a signature, which is the only
thing that marks where a record begins.

`encode` writes the fixed part of a record and the name, `decode` reads them at an
offset.  What follows the name, extra fields and a comment, is known by its length
alone.
-/

namespace ClassAbi.Zip

/-! ## Local headers -/

/-- The header in front of the data of an entry. -/
structure LocalHeader where
  /-- What the record begins with. -/
  signature : UInt32 := 0
  /-- The version of the format needed to extract the entry. -/
  version : UInt16 := 0
  /-- Flags. -/
  flags : UInt16 := 0
  /-- The compression method: 0 for stored, 8 for deflated. -/
  method : UInt16 := 0
  /-- The time of the last change. -/
  time : UInt16 := 0
  /-- The date of the last change. -/
  date : UInt16 := 0
  /-- The checksum of the data. -/
  crc : UInt32 := 0
  /-- The number of bytes that the data takes in the archive. -/
  compressedSize : UInt32 := 0
  /-- The number of bytes of the data. -/
  size : UInt32 := 0
  /-- The name of the entry. -/
  name : Text := []
  /-- The length of the extra fields. -/
  extraLength : UInt16 := 0
deriving DecidableEq, Repr, Inhabited

namespace LocalHeader

/-- What a local header begins with. -/
def mark : UInt32 := 0x04034b50

/-- The length of the fixed part. -/
def fixedSize : Nat := 30

/-- Whether the record is a local header. -/
def isMarked (h : LocalHeader) : Bool := h.signature == mark

/-- The length of the whole header, behind which the data begins. -/
def totalSize (h : LocalHeader) : Nat := fixedSize + h.name.length + h.extraLength.toNat

/-- The fixed part and the name. -/
def encode (h : LocalHeader) : Text :=
  bytes32 h.signature ++ bytes16 h.version ++ bytes16 h.flags ++ bytes16 h.method ++
    bytes16 h.time ++ bytes16 h.date ++ bytes32 h.crc ++ bytes32 h.compressedSize ++
    bytes32 h.size ++ bytes16 h.name.length.toUInt16 ++ bytes16 h.extraLength ++ h.name

/-- The header at an offset. -/
def decode (d : ByteArray) (o : Nat) : LocalHeader where
  signature := number32 d o
  version := number16 d (o + 4)
  flags := number16 d (o + 6)
  method := number16 d (o + 8)
  time := number16 d (o + 10)
  date := number16 d (o + 12)
  crc := number32 d (o + 14)
  compressedSize := number32 d (o + 18)
  size := number32 d (o + 22)
  name := textAt d (o + 30) (number16 d (o + 26)).toNat
  extraLength := number16 d (o + 28)

end LocalHeader

/-! ## Directory records -/

/-- The record of an entry in the directory. -/
structure DirectoryRecord where
  /-- What the record begins with. -/
  signature : UInt32 := 0
  /-- The version of the format that the entry was written with. -/
  version : UInt16 := 0
  /-- The version of the format needed to extract the entry. -/
  versionToExtract : UInt16 := 0
  /-- Flags. -/
  flags : UInt16 := 0
  /-- The compression method: 0 for stored, 8 for deflated. -/
  method : UInt16 := 0
  /-- The time of the last change. -/
  time : UInt16 := 0
  /-- The date of the last change. -/
  date : UInt16 := 0
  /-- The checksum of the data. -/
  crc : UInt32 := 0
  /-- The number of bytes that the data takes in the archive. -/
  compressedSize : UInt32 := 0
  /-- The number of bytes of the data. -/
  size : UInt32 := 0
  /-- The name of the entry. -/
  name : Text := []
  /-- The length of the extra fields. -/
  extraLength : UInt16 := 0
  /-- The length of the comment. -/
  commentLength : UInt16 := 0
  /-- The disk that the entry begins on. -/
  startDisk : UInt16 := 0
  /-- Attributes of the data. -/
  internalAttributes : UInt16 := 0
  /-- Attributes of the file that the entry was made from. -/
  externalAttributes : UInt32 := 0
  /-- Where the local header is. -/
  localOffset : UInt32 := 0
deriving DecidableEq, Repr, Inhabited

namespace DirectoryRecord

/-- What a directory record begins with. -/
def mark : UInt32 := 0x02014b50

/-- The length of the fixed part. -/
def fixedSize : Nat := 46

/-- Whether the record is a directory record. -/
def isMarked (r : DirectoryRecord) : Bool := r.signature == mark

/-- The length of the whole record. -/
def totalSize (r : DirectoryRecord) : Nat :=
  fixedSize + r.name.length + r.extraLength.toNat + r.commentLength.toNat

/-- The fixed part and the name. -/
def encode (r : DirectoryRecord) : Text :=
  bytes32 r.signature ++ bytes16 r.version ++ bytes16 r.versionToExtract ++ bytes16 r.flags ++
    bytes16 r.method ++ bytes16 r.time ++ bytes16 r.date ++ bytes32 r.crc ++
    bytes32 r.compressedSize ++ bytes32 r.size ++ bytes16 r.name.length.toUInt16 ++
    bytes16 r.extraLength ++ bytes16 r.commentLength ++ bytes16 r.startDisk ++
    bytes16 r.internalAttributes ++ bytes32 r.externalAttributes ++ bytes32 r.localOffset ++ r.name

/-- The record at an offset. -/
def decode (d : ByteArray) (o : Nat) : DirectoryRecord where
  signature := number32 d o
  version := number16 d (o + 4)
  versionToExtract := number16 d (o + 6)
  flags := number16 d (o + 8)
  method := number16 d (o + 10)
  time := number16 d (o + 12)
  date := number16 d (o + 14)
  crc := number32 d (o + 16)
  compressedSize := number32 d (o + 20)
  size := number32 d (o + 24)
  name := textAt d (o + 46) (number16 d (o + 28)).toNat
  extraLength := number16 d (o + 30)
  commentLength := number16 d (o + 32)
  startDisk := number16 d (o + 34)
  internalAttributes := number16 d (o + 36)
  externalAttributes := number32 d (o + 38)
  localOffset := number32 d (o + 42)

end DirectoryRecord

/-! ## End records -/

/-- The record at the end of an archive, which says where the directory is. -/
structure EndRecord where
  /-- What the record begins with. -/
  signature : UInt32 := 0
  /-- The number of this disk. -/
  disk : UInt16 := 0
  /-- The disk that the directory begins on. -/
  directoryDisk : UInt16 := 0
  /-- The number of entries on this disk. -/
  diskEntries : UInt16 := 0
  /-- The number of entries. -/
  entries : UInt16 := 0
  /-- The length of the directory. -/
  directorySize : UInt32 := 0
  /-- Where the directory begins. -/
  directoryOffset : UInt32 := 0
  /-- The length of the comment. -/
  commentLength : UInt16 := 0
deriving DecidableEq, Repr, Inhabited

namespace EndRecord

/-- What an end record begins with. -/
def mark : UInt32 := 0x06054b50

/-- The length of the record. -/
def fixedSize : Nat := 22

/-- Whether the record is an end record. -/
def isMarked (r : EndRecord) : Bool := r.signature == mark

/-- The record. -/
def encode (r : EndRecord) : Text :=
  bytes32 r.signature ++ bytes16 r.disk ++ bytes16 r.directoryDisk ++ bytes16 r.diskEntries ++
    bytes16 r.entries ++ bytes32 r.directorySize ++ bytes32 r.directoryOffset ++
    bytes16 r.commentLength

/-- The record at an offset. -/
def decode (d : ByteArray) (o : Nat) : EndRecord where
  signature := number32 d o
  disk := number16 d (o + 4)
  directoryDisk := number16 d (o + 6)
  diskEntries := number16 d (o + 8)
  entries := number16 d (o + 10)
  directorySize := number32 d (o + 12)
  directoryOffset := number32 d (o + 16)
  commentLength := number16 d (o + 20)

end EndRecord

/-! ## Records of large archives -/

/-- What the record begins with that an archive beyond 4 GiB has in front of its
end record. -/
def largeArchiveMark : UInt32 := 0x07064b50

/-- The length of that record. -/
def largeArchiveRecordSize : Nat := 20

end ClassAbi.Zip
