import ClassAbi.Files.Disk

/-!
# Files being written

What is written to a file gathers in a block and reaches the disk block by block.
Closing the file, or ending the program, brings the rest.  So a file that is still
open shows a beginning of what was written, and `FileStream.stored` says how much.

A file stays the same file when its path is deleted.  Then nothing of it is left
on the disk when it is closed.
-/

namespace ClassAbi

/-- A file being written. -/
structure FileStream where
  /-- Where the file is. -/
  place : DiskPlace
  /-- What was written. -/
  written : ByteArray
  /-- The number of bytes that have not reached the disk. -/
  held : Nat
  /-- The number of bytes that the block has room for.  There is no block before
  the first byte. -/
  room : Nat
deriving Inhabited

namespace FileStream

/-- The size of a block. -/
def blockSize : Nat := 4096

/-- The file to which nothing was written. -/
def start (place : DiskPlace) : FileStream := ⟨place, .empty, 0, 0⟩

/-- The number of bytes written. -/
def size (s : FileStream) : Nat := s.written.size

/-- Notes that `count` bytes were written.  Bytes that do not fit into the block
take it to the disk, and whole blocks go there at once. -/
def hold (s : FileStream) (count : Nat) : FileStream :=
  if count ≤ s.room then { s with held := s.held + count, room := s.room - count }
  else
    let held := (count - s.room) % blockSize
    { s with held, room := blockSize - held }

/-- Writes bytes. -/
def write (s : FileStream) (bytes : ByteArray) : FileStream :=
  if bytes.size = 0 then s else { s with written := s.written ++ bytes }.hold bytes.size

/-- What has reached the disk. -/
def stored (s : FileStream) : ByteArray := s.written.extract 0 (s.written.size - s.held)

/-- The disk on which the file shows what has reached it. -/
def showOn (s : FileStream) (d : Disk) : Disk := d.update s.place s.stored

/-- The disk with the whole file. -/
def finishOn (s : FileStream) (d : Disk) : Disk := d.update s.place s.written

end FileStream

end ClassAbi
