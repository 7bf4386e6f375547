import ClassAbi.Archive.Input
import ClassAbi.Deflate.Compress
import ClassAbi.Files.FileStream
import ClassAbi.Host
import ClassAbi.Outline.Class
import Std.Data.HashSet

/-!
# Writing archives

An `OutputArchive` writes entries to a file one after the other, and the directory
when it is closed.  Entries carry a fixed date and no extra fields, so the same
entries always make the same archive.

A session begins when a file is opened and ends when it is closed or given up.
Once an entry is refused the session has failed.  It takes no more entries, and
closing it deletes the file.  So a file is either a complete archive or not there.

Outlines can be queued.  `commit` writes them in the order of their names and
closes the archive.
-/

namespace ClassAbi

open Zip

/-! ## Refused entries -/

/-- Why an entry is refused. -/
inductive WriteError where
  /-- The name is empty or longer than a record can say. -/
  | invalidName (name : Text)
  /-- There is an entry with the name. -/
  | duplicate (name : Text)
  /-- The archive has no room for the entry. -/
  | noRoom (name : Text)
  /-- The archive has no room for its directory. -/
  | archiveTooLarge
deriving DecidableEq, Repr

/-- The wording of a refusal. -/
def WriteError.message : WriteError → Text
  | invalidName name => Text.ascii "invalid entry name '" ++ name ++ Text.ascii "'"
  | duplicate name => Text.ascii "duplicate entry " ++ name
  | noRoom name => Text.ascii "cannot add " ++ name ++ Text.ascii ": archive too large"
  | archiveTooLarge => Text.ascii "archive too large"

/-! ## Entries -/

/-- The version of the format that entries are written with. -/
def entryVersion : UInt16 := 20

/-- The time of every entry, midnight. -/
def entryTime : UInt16 := 0

/-- The date of every entry, the first day of 1980, which is the earliest that
there is. -/
def entryDate : UInt16 := 33

/-- Data as it stands in an archive. -/
structure Payload where
  /-- The compression method. -/
  method : UInt16
  /-- The bytes in the archive. -/
  bytes : ByteArray
deriving Inhabited

namespace Payload

/-- Data as it is. -/
def stored (data : ByteArray) : Payload := ⟨methodStored, data⟩

/-- Data in its shorter form, if it may be compressed. -/
def ofData (compress : Bool) (data : ByteArray) : Payload :=
  if compress && data.size != 0 then
    let deflated := Deflate.deflate data
    if deflated.size < data.size then ⟨methodDeflated, deflated⟩ else stored data
  else stored data

end Payload

/-- The header in front of an entry. -/
def headerOf (name : Text) (data : ByteArray) (p : Payload) : LocalHeader where
  signature := LocalHeader.mark
  version := entryVersion
  method := p.method
  time := entryTime
  date := entryDate
  crc := crc32 data
  compressedSize := p.bytes.size.toUInt32
  size := data.size.toUInt32
  name := name

/-- The record of an entry whose header is at `offset`. -/
def recordOf (h : LocalHeader) (offset : Nat) : DirectoryRecord where
  signature := DirectoryRecord.mark
  version := entryVersion
  versionToExtract := h.version
  flags := h.flags
  method := h.method
  time := h.time
  date := h.date
  crc := h.crc
  compressedSize := h.compressedSize
  size := h.size
  name := h.name
  localOffset := offset.toUInt32

/-- The end record of an archive with `entries` entries and a directory of `size`
bytes at `offset`. -/
def endRecordOf (entries size offset : Nat) : EndRecord where
  signature := EndRecord.mark
  diskEntries := entries.toUInt16
  entries := entries.toUInt16
  directorySize := size.toUInt32
  directoryOffset := offset.toUInt32

/-! ## Archives -/

/-- An archive being written, or none. -/
structure OutputArchive where
  /-- Whether entries may be compressed. -/
  compress : Bool
  /-- The path of the last file that was opened. -/
  path : Text
  /-- The file, while a session lasts. -/
  file : Option FileStream
  /-- Whether the last session has failed. -/
  failed : Bool
  /-- The number of entries of the last session. -/
  entries : Nat
  /-- The directory so far. -/
  directory : ByteArray
  /-- The names of the last session. -/
  names : Std.HashSet Text
  /-- The outlines that wait to be written. -/
  queue : Array Outline
deriving Inhabited

namespace OutputArchive

/-- The limit below which sizes and offsets must stay. -/
def sizeLimit : Nat := 0xFFFFFFFF

/-- The greatest number of entries, and the greatest length of a name. -/
def countLimit : Nat := 0xFFFF

/-- No archive. -/
def new (compress : Bool) : OutputArchive := ⟨compress, [], none, false, 0, .empty, ∅, #[]⟩

/-- The disk as others see it while the archive is being written. -/
def showOn (a : OutputArchive) (d : Disk) : Disk :=
  match a.file with
  | none => d
  | some s => s.showOn d

/-- Begins a session with an empty file at a path.  No session may last. -/
def openFile (a : OutputArchive) (path : Text) : Action (Bool × OutputArchive) := do
  if a.file.isSome then
    Action.die (.check "file_ == nullptr" (Text.ascii "Cannot open output archive twice"))
  else
    match (← Action.disk).create path with
    | .error e =>
      Action.log .error
        (Text.ascii "Cannot create " ++ path ++ Text.ascii ": " ++ e.text)
      return (false, a)
    | .ok (place, d) =>
      Action.setDisk d
      return (true, { a with
        path, file := some (.start place), failed := false, entries := 0
        directory := .empty, names := ∅ })

/-- Lets the session fail. -/
def fail (a : OutputArchive) (e : WriteError) : Action (Bool × OutputArchive) := do
  Action.log .error (a.path ++ Text.ascii ": " ++ e.message)
  return (false, { a with failed := true })

/-- The message about an entry that was written. -/
def writtenMessage (h : LocalHeader) : Text :=
  if h.method == methodStored then
    h.name ++ Text.ascii ": stored " ++ Text.ofNat h.size.toNat ++ Text.ascii " bytes"
  else
    h.name ++ Text.ascii ": compressed " ++ Text.ofNat h.size.toNat ++ Text.ascii " bytes to " ++
      Text.ofNat h.compressedSize.toNat

/-- Adds an entry to the file `s`. -/
def append (a : OutputArchive) (s : FileStream) (name : Text) (data : ByteArray) :
    LocalHeader × OutputArchive :=
  let p := Payload.ofData a.compress data
  let h := headerOf name data p
  let r := recordOf h s.size
  (h, { a with
    file := some ((s.write h.encode.toByteArray).write p.bytes)
    entries := a.entries + 1
    directory := a.directory ++ r.encode.toByteArray })

/-- Writes an entry.  A session must last.  After a failure nothing is written. -/
def write (a : OutputArchive) (name : Text) (data : ByteArray) :
    Action (Bool × OutputArchive) := do
  match a.file with
  | none =>
    Action.die (.check "file_ != nullptr"
      (Text.ascii "WriteEntry(" ++ name ++ Text.ascii ") on an archive that is not open"))
  | some s =>
    if a.failed then return (false, a)
    else if name = [] ∨ countLimit < name.length then a.fail (.invalidName name)
    else if a.names.contains name then a.fail (.duplicate name)
    else
      let names := a.names.insert name
      let a := { a with names }
      if countLimit ≤ a.entries ∨ sizeLimit ≤ data.size ∨ sizeLimit ≤ s.size then
        a.fail (.noRoom name)
      else
        let a := { a with file := none }
        let (h, a) := a.append s name data
        Action.log .info (writtenMessage h)
        return (true, a)

/-- Ends the session and deletes the file. -/
def abandon (a : OutputArchive) : Action OutputArchive := do
  match (← Action.disk).remove a.path with
  | .ok d => Action.setDisk d
  | .error e =>
    Action.log .warning (Text.ascii "Cannot delete " ++ a.path ++ Text.ascii ": " ++ e.text)
  return { a with file := none }

/-- Ends the session.  The file is a complete archive if nothing failed, and is
deleted otherwise.  Without a session the answer is that of the last. -/
def close (a : OutputArchive) : Action (Bool × OutputArchive) := do
  match a.file with
  | none => return (!a.failed, a)
  | some s =>
    let (_, a) ←
      if !a.failed && sizeLimit ≤ s.size + a.directory.size then a.fail .archiveTooLarge
      else pure (true, a)
    if a.failed then return (false, ← a.abandon)
    else
      let e := endRecordOf a.entries a.directory.size s.size
      let s := (s.write a.directory).write e.encode.toByteArray
      Action.setDisk (s.finishOn (← Action.disk))
      return (true, { a with file := none })

/-- Queues an outline. -/
def add (a : OutputArchive) (o : Outline) : OutputArchive := { a with queue := a.queue.push o }

/-- Ends the program.  What was written to a file that is open reaches the disk. -/
def die (a : OutputArchive) (f : Fatal) : Action α := do
  match a.file with
  | none => Action.die f
  | some s =>
    Action.setDisk (s.finishOn (← Action.disk))
    Action.die f

/-- Writes an outline as an entry of its name. -/
def writeOutline (a : OutputArchive) (o : Outline) : Action (Bool × OutputArchive) :=
  match o.encode with
  | .error f => a.die f.fatal
  | .ok bytes => a.write o.file bytes

/-- Writes outlines up to the first failure. -/
def writeAll (a : OutputArchive) : List Outline → Action OutputArchive
  | [] => return a
  | o :: rest => do
    let (written, a) ← a.writeOutline o
    if written then a.writeAll rest else return a

/-- Writes the queued outlines in the order of their names and ends the session. -/
def commit (a : OutputArchive) : Action (Bool × OutputArchive) := do
  let outlines := a.queue.toList.mergeSort fun x y => !Outline.before y x
  let a ← { a with queue := #[] }.writeAll outlines
  a.close

/-- Gives up the session and the queued outlines. -/
def discard (a : OutputArchive) : Action OutputArchive := do
  let a := { a with queue := #[] }
  if a.file.isSome then a.abandon else return a

/-- Ends the use of the archive.  A session that still lasts is given up. -/
def release (a : OutputArchive) : Action OutputArchive := do
  if a.file.isSome then
    Action.log .warning (a.path ++ Text.ascii " was not closed, deleting it")
    a.abandon
  else return a

end OutputArchive

end ClassAbi
