import ClassAbi.Crc32
import ClassAbi.Deflate.Inflate
import ClassAbi.Fatal
import ClassAbi.Files.FileView
import ClassAbi.Zip.Record

/-!
# Reading archives

The end record of an archive is found from the back of the file, in front of a
comment of at most 65535 bytes.  The directory stands right in front of the end
record.  Its true place may differ from the place that the end record names by the
size of a preamble, something put in front of the archive later.  The preamble
counts for every local header too.

`Directory.locate` finds the directory, `InputArchive.next` goes through it record
by record, and `Entry.read` decodes the data of an entry.  The directory ends
where no record begins.  A record that leads out of the file is a fault, and no
record follows a fault.
-/

namespace ClassAbi

open Zip

/-! ## Faults -/

/-- What can be wrong with an archive as a whole. -/
inductive Corruption where
  /-- The file is shorter than an end record. -/
  | tooShort (size : Nat)
  /-- There is no end record. -/
  | noEndRecord
  /-- The archive is laid out for more than 4 GiB. -/
  | largeArchive
  /-- The directory is longer than what is in front of the end record. -/
  | directoryTooLarge (size : UInt32)
  /-- The directory begins before the place that the end record names. -/
  | directoryMisplaced (offset : UInt32)
  /-- There is no directory record where the directory should begin. -/
  | noDirectory (offset : Nat)
  /-- A directory record leads out of the file. -/
  | recordOutOfBounds (offset : Nat)
  /-- The place of a local header is beyond 4 GiB. -/
  | largeEntry (name : Text)
  /-- A local header is not in the file. -/
  | headerOutOfBounds (name : Text)
  /-- There is no local header where it should be. -/
  | noHeader (offset : Nat)
deriving DecidableEq, Repr

/-- The wording of a fault. -/
def Corruption.message : Corruption → Text
  | tooShort size =>
    Text.ascii "file is only " ++ Text.ofNat size ++
      Text.ascii " bytes long, should be at least " ++ Text.ofNat EndRecord.fixedSize
  | noEndRecord => Text.ascii "cannot locate the End of Central Directory record"
  | largeArchive => Text.ascii "Zip64 archives are not supported"
  | directoryTooLarge size =>
    Text.ascii "Central Directory size 0x" ++ Text.hex size.toNat ++ Text.ascii " is too large"
  | directoryMisplaced offset =>
    Text.ascii "Central Directory location 0x" ++ Text.hex offset.toNat ++
      Text.ascii " is invalid"
  | noDirectory offset =>
    Text.ascii "expected central file header signature at offset 0x" ++ Text.hex offset
  | recordOutOfBounds offset => Text.ascii "bad directory record at offset 0x" ++ Text.hex offset
  | largeEntry name => name ++ Text.ascii " needs Zip64 records, which are not supported"
  | headerOutOfBounds name =>
    Text.ascii "local header of " ++ name ++ Text.ascii " is out of bounds"
  | noHeader offset => Text.ascii "expected local header signature at offset 0x" ++ Text.hex offset

/-- A fault of the archive at a path. -/
structure ArchiveFault where
  /-- The path. -/
  path : Text
  /-- What is wrong. -/
  cause : Corruption
deriving DecidableEq, Repr

/-- The wording of a fault with the path. -/
def ArchiveFault.message (f : ArchiveFault) : Text :=
  f.path ++ Text.ascii " is corrupt: " ++ f.cause.message

/-- Why an archive cannot be opened. -/
inductive ArchiveOpenError where
  /-- The file cannot be shown. -/
  | file (e : FileError)
  /-- The file is no archive. -/
  | corrupt (f : ArchiveFault)
deriving DecidableEq, Repr

/-- The wording of a failure to open. -/
def ArchiveOpenError.message : ArchiveOpenError → Text
  | file e => e.message
  | corrupt f => f.message

/-! ## Finding the directory -/

/-- Where an archive has its directory. -/
structure Directory where
  /-- Where the directory begins. -/
  start : Nat
  /-- The number of bytes in front of the archive proper. -/
  preamble : Nat
deriving DecidableEq, Repr, Inhabited

/-- The last place at which an end record begins, among `count + 1` places from
`low` on. -/
def findEndRecord (d : ByteArray) (low : Nat) : (count : Nat) → Option Nat
  | 0 => if number32 d low == EndRecord.mark then some low else none
  | count + 1 =>
    if number32 d (low + (count + 1)) == EndRecord.mark then some (low + (count + 1))
    else findEndRecord d low count

/-- The number of places in front of the last possible one at which the end
record can begin. -/
def endRecordWindow : Nat := 65536

namespace Directory

/-- The place of the end record. -/
def locateEnd (d : ByteArray) : Except Corruption Nat :=
  if d.size < EndRecord.fixedSize then .error (.tooShort d.size)
  else
    let last := d.size - EndRecord.fixedSize
    match findEndRecord d (last - endRecordWindow) (min last endRecordWindow) with
    | some offset => .ok offset
    | none => .error .noEndRecord

/-- The directory in front of the end record at `stop`. -/
def before (d : ByteArray) (stop : Nat) : Except Corruption Directory :=
  let e := EndRecord.decode d stop
  let isLarge := largeArchiveRecordSize ≤ stop ∧
    number32 d (stop - largeArchiveRecordSize) = largeArchiveMark
  if isLarge ∨ e.directoryOffset = elsewhere ∨ e.directorySize = elsewhere then
    .error .largeArchive
  else if stop < e.directorySize.toNat then .error (.directoryTooLarge e.directorySize)
  else
    let start := stop - e.directorySize.toNat
    if start < e.directoryOffset.toNat then .error (.directoryMisplaced e.directoryOffset)
    else if e.directorySize ≠ 0 ∧ number32 d start ≠ DirectoryRecord.mark then
      .error (.noDirectory start)
    else .ok ⟨start, start - e.directoryOffset.toNat⟩

/-- The directory of an archive. -/
def locate (d : ByteArray) : Except Corruption Directory := do
  before d (← locateEnd d)

end Directory

/-! ## Going through the directory -/

/-- An entry of an archive. -/
structure Entry where
  /-- Its record in the directory. -/
  record : DirectoryRecord
  /-- The header in front of its data. -/
  header : LocalHeader
  /-- Where the header is. -/
  headerOffset : Nat
deriving DecidableEq, Repr, Inhabited

/-- The entry whose record is at `offset`, and where the next record begins.
There is none if no record begins there. -/
def entryAt (d : ByteArray) (preamble offset : Nat) : Except Corruption (Option (Entry × Nat)) :=
  if number32 d offset != DirectoryRecord.mark then .ok none
  else
    let r := DirectoryRecord.decode d offset
    if d.size ≤ offset + r.totalSize then .error (.recordOutOfBounds offset)
    else if r.localOffset == elsewhere then .error (.largeEntry r.name)
    else
      let headerOffset := r.localOffset.toNat + preamble
      if d.size < headerOffset + LocalHeader.fixedSize then .error (.headerOutOfBounds r.name)
      else if number32 d headerOffset != LocalHeader.mark then .error (.noHeader headerOffset)
      else .ok (some (⟨r, LocalHeader.decode d headerOffset, headerOffset⟩, offset + r.totalSize))

/-- An archive that is being read, or none. -/
structure InputArchive where
  /-- The path, empty while no archive is open. -/
  path : Text
  /-- The file. -/
  view : FileView
  /-- The first fault met since the last attempt to open an archive. -/
  fault : Option ArchiveFault
  /-- Where the next record is. -/
  cursor : Nat
  /-- The number of bytes in front of the archive proper. -/
  preamble : Nat
deriving Inhabited

namespace InputArchive

/-- No archive. -/
def closed : InputArchive := ⟨[], .closed, none, 0, 0⟩

/-- The wording of the fault, empty without one. -/
def faultMessage (a : InputArchive) : Text := (a.fault.map (·.message)).getD []

/-- Opens the archive at a path.  None may be open.  An archive that turns out to
be corrupt stays open, with its fault. -/
def openFile (a : InputArchive) (disk : Disk) (path : Text) :
    Except Fatal (Except ArchiveOpenError Unit × InputArchive) :=
  if a.path ≠ [] then
    .error (.check "path_.empty()" (Text.ascii "This instance is already handling " ++ a.path))
  else
    let a := { a with fault := none }
    match a.view.openFile disk path with
    | .error e => .ok (.error (.file e), a)
    | .ok view =>
      match Directory.locate view.data with
      | .error cause =>
        let f : ArchiveFault := ⟨path, cause⟩
        .ok (.error (.corrupt f), { a with path, view, fault := some f })
      | .ok found =>
        .ok (.ok (), { a with path, view, cursor := found.start, preamble := found.preamble })

/-- The next entry.  There is none behind the last record or behind a fault. -/
def next (a : InputArchive) : Except Fatal (Option Entry × InputArchive) :=
  if a.path = [] then .error (.check "!path_.empty()" (Text.ascii "call Open() first!"))
  else if a.fault.isSome then .ok (none, a)
  else match entryAt a.view.data a.preamble a.cursor with
    | .error cause => .ok (none, { a with fault := some ⟨a.path, cause⟩ })
    | .ok none => .ok (none, a)
    | .ok (some (e, cursor)) => .ok (some e, { a with cursor })

/-- Closes the archive.  Its fault is still known. -/
def close (a : InputArchive) : InputArchive := { closed with fault := a.fault }

/-- The remaining entries up to the end or a fault.  `records` bounds the number
of records that fit into the file. -/
def entriesFrom (a : InputArchive) : (records : Nat) → Array Entry →
    Except Fatal (Array Entry × InputArchive)
  | 0, entries => .ok (entries, a)
  | records + 1, entries => do
    match ← a.next with
    | (none, a) => return (entries, a)
    | (some e, a) => entriesFrom a records (entries.push e)

/-- The remaining entries up to the end or a fault. -/
def entries (a : InputArchive) : Except Fatal (Array Entry × InputArchive) :=
  a.entriesFrom (a.view.size / DirectoryRecord.fixedSize + 1) #[]

end InputArchive

/-! ## Reading entries -/

/-- Why the data of an entry cannot be read. -/
inductive EntryError where
  /-- A size is beyond 4 GiB. -/
  | largeEntry
  /-- The data is not in the file. -/
  | outOfBounds
  /-- The entry is stored with two different sizes. -/
  | mismatchedSizes
  /-- The data is no deflate stream of the recorded size. -/
  | cannotInflate (cause : Deflate.InflateError)
  /-- The compression method is unknown. -/
  | unsupportedMethod (method : UInt16)
  /-- The data has another checksum than recorded. -/
  | badChecksum
deriving DecidableEq, Repr

/-- The wording of a failure for the entry `name` of the archive at `path`. -/
def EntryError.message (path name : Text) (e : EntryError) : Text :=
  path ++ Text.ascii ": " ++ match e with
    | largeEntry => name ++ Text.ascii " needs Zip64 records"
    | outOfBounds => Text.ascii "data of " ++ name ++ Text.ascii " is out of bounds"
    | mismatchedSizes => Text.ascii "stored entry " ++ name ++ Text.ascii " has mismatched sizes"
    | cannotInflate cause =>
      Text.ascii "cannot inflate " ++ name ++ Text.ascii ": " ++ cause.message
    | unsupportedMethod method =>
      name ++ Text.ascii " uses unsupported compression method " ++ Text.ofNat method.toNat
    | badChecksum => Text.ascii "CRC mismatch for " ++ name

/-- The compression method of stored data. -/
def methodStored : UInt16 := 0

/-- The compression method of deflated data. -/
def methodDeflated : UInt16 := 8

/-- The data of an entry of the file `d`. -/
def Entry.read (d : ByteArray) (e : Entry) : Except EntryError ByteArray := do
  let r := e.record
  if r.compressedSize = elsewhere ∨ r.size = elsewhere then .error .largeEntry
  else
    let start := e.headerOffset + e.header.totalSize
    let stop := start + r.compressedSize.toNat
    if d.size < stop then .error .outOfBounds
    else
      let data := d.extract start stop
      let contents ←
        if r.method = methodStored then
          if r.compressedSize ≠ r.size then .error .mismatchedSizes else .ok data
        else if r.method = methodDeflated then
          (Deflate.inflate data r.size.toNat).mapError .cannotInflate
        else .error (.unsupportedMethod r.method)
      if crc32 contents ≠ r.crc then .error .badChecksum else .ok contents

end ClassAbi
