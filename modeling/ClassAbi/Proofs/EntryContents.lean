import ClassAbi.Proofs.ArchiveComments
import ClassAbi.Proofs.InflatedStreams

/-!
# What is read from an entry

What an entry contains is said here without a decoder (`Entry.Decodes`).  Its data begin behind its
local header and lie in the file.  They are the contents, or they begin with a stream that stands
for the contents, and the record has the size and the checksum of the contents.

The reader gives the contents exactly where there are some, with one exception
(`Entry.read_exact`).  It does not read a stream that stands for no data at all, although it reads
an empty entry that is stored.
-/

namespace ClassAbi

open Zip

/-! ## Contents of an entry -/

namespace Entry

/-- Where the data of the entry begin. -/
def dataOffset (e : Entry) : Nat := e.headerOffset + e.header.totalSize

/-- The data of the entry, as they are in the file. -/
def data (d : ByteArray) (e : Entry) : ByteArray :=
  d.extract e.dataOffset (e.dataOffset + e.record.compressedSize.toNat)

/-- The data of the entry stand for the contents.  A stream may bring `most` lengths of words for
distances. -/
inductive StandsFor (most : Nat) (d : ByteArray) (e : Entry) : (contents : ByteArray) → Prop where
  /-- The data are the contents. -/
  | stored (method : e.record.method = methodStored)
    (sizes : e.record.compressedSize = e.record.size) : StandsFor most d e (e.data d)
  /-- The data begin with a stream, whatever is behind it. -/
  | deflated {bits contents} (method : e.record.method = methodDeflated)
    (begins : bits <+: Deflate.bitsOf (e.data d)) (stream : Deflate.IsStream most bits contents) :
    StandsFor most d e contents

/-- The entry of the file `d` has the contents. -/
structure Decodes (most : Nat) (d : ByteArray) (e : Entry) (contents : ByteArray) : Prop where
  compressedSizeHere : e.record.compressedSize ≠ elsewhere
  sizeHere : e.record.size ≠ elsewhere
  inside : e.dataOffset + e.record.compressedSize.toNat ≤ d.size
  coded : e.StandsFor most d contents
  size : contents.size = e.record.size.toNat
  checksum : crc32 contents = e.record.crc

/-- The entry is a stream for no data. -/
def IsEmptyStream (e : Entry) : Prop := e.record.method = methodDeflated ∧ e.record.size = 0

variable {d contents : ByteArray} {e : Entry}

/-- Decoding the data, before the checksum is compared. -/
def decodeData (d : ByteArray) (e : Entry) : Except EntryError ByteArray :=
  if e.record.method = methodStored then
    if e.record.compressedSize ≠ e.record.size then .error .mismatchedSizes else .ok (e.data d)
  else if e.record.method = methodDeflated then
    (Deflate.inflate (e.data d) e.record.size.toNat).mapError .cannotInflate
  else .error (.unsupportedMethod e.record.method)

theorem read_eq_decodeData :
    e.read d =
      if e.record.compressedSize = elsewhere ∨ e.record.size = elsewhere then .error .largeEntry
      else if d.size < e.dataOffset + e.record.compressedSize.toNat then .error .outOfBounds
      else e.decodeData d >>= fun contents =>
        if crc32 contents ≠ e.record.crc then .error .badChecksum else .ok contents := by
  unfold read decodeData data dataOffset
  dsimp only
  split_ifs <;> rfl

/-- The data are decoded to what they stand for. -/
theorem decodeData_eq_ok (inside : e.dataOffset + e.record.compressedSize.toNat ≤ d.size) :
    e.decodeData d = .ok contents ↔
      e.StandsFor 30 d contents ∧ contents.size = e.record.size.toNat ∧ ¬e.IsEmptyStream := by
  have size : (e.data d).size = e.record.compressedSize.toNat := by
    rw [data, ByteArray.size_extract]
    omega
  have distinct : methodStored ≠ methodDeflated := by decide
  unfold decodeData IsEmptyStream
  split
  · next method =>
    have other : e.record.method ≠ methodDeflated := method ▸ distinct
    split
    · next mismatch =>
      refine iff_of_false nofun ?_
      rintro ⟨⟨-, same⟩ | ⟨deflated, -, -⟩, -⟩
      · exact mismatch same
      · exact other deflated
    · next same =>
      rw [ne_eq, not_not] at same
      constructor
      · intro read
        cases read
        exact ⟨.stored method same, by rw [size, same], fun empty => other empty.1⟩
      · rintro ⟨⟨-, -⟩ | ⟨deflated, -, -⟩, -⟩
        · rfl
        · exact absurd deflated other
  next other =>
  split
  · next method =>
    rw [mapError_eq_ok, Deflate.inflate_eq_ok, ne_eq, ← UInt32.toNat_zero, UInt32.toNat_inj]
    constructor
    · rintro ⟨some, size, bits, begins, stream⟩
      exact ⟨.deflated method begins stream, size, fun empty => some empty.2⟩
    · rintro ⟨⟨stored, -⟩ | ⟨-, begins, stream⟩, size, some⟩
      · exact absurd stored other
      · exact ⟨fun empty => some ⟨method, empty⟩, size, _, begins, stream⟩
  · next unknown =>
    refine iff_of_false nofun ?_
    rintro ⟨⟨stored, -⟩ | ⟨deflated, -, -⟩, -⟩
    · exact other stored
    · exact unknown deflated

theorem read_eq_ok : e.read d = .ok contents ↔ e.Decodes 30 d contents ∧ ¬e.IsEmptyStream := by
  rw [read_eq_decodeData]
  split
  · next elsewhere =>
    refine iff_of_false nofun fun ⟨decodes, _⟩ => ?_
    exact elsewhere.elim decodes.compressedSizeHere decodes.sizeHere
  next here =>
  rw [not_or] at here
  split
  · next outside =>
    exact iff_of_false nofun fun ⟨decodes, _⟩ => Nat.not_lt.mpr decodes.inside outside
  next inside =>
  have inside := Nat.not_lt.mp inside
  constructor
  · intro read
    obtain ⟨whole, first, read⟩ := bind_eq_ok.mp read
    obtain ⟨coded, size, some⟩ := (decodeData_eq_ok inside).mp first
    split at read
    · cases read
    next checksum =>
    cases read
    exact ⟨⟨here.1, here.2, inside, coded, size, not_not.mp checksum⟩, some⟩
  · rintro ⟨decodes, some⟩
    rw [(decodeData_eq_ok inside).mpr ⟨decodes.coded, decodes.size, some⟩, ok_bind,
      if_neg (not_not.mpr decodes.checksum)]

theorem message_ne_nil (path name : Text) (fault : EntryError) : fault.message path name ≠ [] := by
  intro empty
  unfold EntryError.message at empty
  obtain ⟨-, colon⟩ := List.append_eq_nil_iff.mp (List.append_eq_nil_iff.mp empty).1
  exact absurd colon (by decide)

/-- The contents of an entry are read exactly where it has contents, unless it is a stream for no
data, and otherwise there is a fault with a wording.  This holds of all entries, also of those that
a reader does not find in the directory. -/
theorem read_exact (d : ByteArray) (e : Entry) :
    (∀ contents, e.read d = .ok contents ↔ e.Decodes 30 d contents ∧ ¬e.IsEmptyStream) ∧
      ((∀ contents, ¬(e.Decodes 30 d contents ∧ ¬e.IsEmptyStream)) →
        ∃ fault, e.read d = .error fault ∧ ∀ path, fault.message path e.record.name ≠ []) := by
  refine ⟨fun contents => read_eq_ok, fun none => ?_⟩
  cases read : e.read d with
  | error fault => exact ⟨fault, rfl, fun path => message_ne_nil path e.record.name fault⟩
  | ok contents => exact absurd (read_eq_ok.mp read) (none contents)

end Entry

/-! ## A stream for no data -/

namespace InputArchive

/-- The record of an entry that is a stream for no data. -/
def emptyStreamRecord : DirectoryRecord where
  signature := DirectoryRecord.mark
  version := 20
  versionToExtract := 20
  method := methodDeflated
  compressedSize := 2
  name := [65]

/-- Its local header. -/
def emptyStreamHeader : LocalHeader where
  signature := LocalHeader.mark
  version := 20
  method := methodDeflated
  compressedSize := 2
  name := [65]

/-- The end record of an archive of this entry. -/
def emptyStreamEnd : EndRecord where
  signature := EndRecord.mark
  diskEntries := 1
  entries := 1
  directorySize := 47
  directoryOffset := 33

/-- An archive of this entry. -/
def emptyStreamArchive : ByteArray :=
  (emptyStreamHeader.encode ++ [3, 0] ++ emptyStreamRecord.encode ++
    emptyStreamEnd.encode).toByteArray

theorem isStream_empty (most : Nat) :
    Deflate.IsStream most (true :: (Deflate.lowBits 2 1 ++ List.replicate 7 false)) .empty :=
  .last (.fixed (.done ⟨7, by decide +kernel, by decide, by decide +kernel⟩))

/-- The archive is opened and its entry is found.  The entry contains no data, and the reader
reports a fault. -/
theorem read_emptyStream : ∃ e r,
    closed.openFile (diskWith emptyStreamArchive) [111] =
        .ok (.ok (), readerAt emptyStreamArchive 33) ∧
      (readerAt emptyStreamArchive 33).next = .ok (some e, r) ∧
      e.record = emptyStreamRecord ∧
      (∀ most, e.Decodes most emptyStreamArchive .empty) ∧
      e.read emptyStreamArchive = .error (.cannotInflate .stalled) := by
  have located : Directory.locate emptyStreamArchive = .ok ⟨33, 0⟩ := by decide +kernel
  have opened := openFile_close (lookup_diskWith emptyStreamArchive) closed
  rw [located] at opened
  have first : entryAt emptyStreamArchive 0 33 =
      .ok (some (⟨emptyStreamRecord, emptyStreamHeader, 0⟩, 80)) := by
    decide +kernel
  have found := next_readerAt emptyStreamArchive 33
  rw [first] at found
  refine ⟨_, _, opened, found, rfl, fun most => ?_, by decide +kernel⟩
  have begins : true :: (Deflate.lowBits 2 1 ++ List.replicate 7 false) <+:
      Deflate.bitsOf (Entry.data emptyStreamArchive ⟨emptyStreamRecord, emptyStreamHeader, 0⟩) := by
    decide +kernel
  exact ⟨by decide, by decide, by decide +kernel, .deflated rfl begins (isStream_empty most), rfl,
    by decide +kernel⟩

end InputArchive

end ClassAbi
