import ClassAbi.Archive.Output
import ClassAbi.Proofs.Numbers
import Mathlib.Data.List.Forall2

/-!
# The layout of an archive

What a writer makes of entries is given by the entries alone: a local header, a
name and a payload for each of them, a directory record for each in the same
order, and an end record (`archiveBytes`).  `IsArchive` says what has to hold
of such bytes, record by record, and nothing about how they come about.

All numbers in records are exact as long as the archive stays below the size
from which it would need larger records (`WithinLimits`).
-/

namespace ClassAbi

open Zip

/-- What an entry is to hold. -/
structure NamedData where
  /-- The name of the entry. -/
  name : Text
  /-- The data. -/
  data : ByteArray

/-! ## What is written -/

namespace NamedData

variable (compress : Bool) (x : NamedData)

/-- The data as it is to stand in the archive. -/
def payload : Payload := .ofData compress x.data

/-- The local header. -/
def header : LocalHeader := headerOf x.name x.data (x.payload compress)

/-- The bytes of the entry. -/
def bytes : Text := (x.header compress).encode ++ (x.payload compress).bytes.data.toList

end NamedData

/-- The bytes of entries one behind the other. -/
def entriesBytes (compress : Bool) (es : List NamedData) : Text := es.flatMap (·.bytes compress)

/-- The directory records of entries, the first of which begins at the offset. -/
def directoryRecords (compress : Bool) : (offset : Nat) → List NamedData → List DirectoryRecord
  | _, [] => []
  | offset, x :: es =>
    recordOf (x.header compress) offset ::
      directoryRecords compress (offset + (x.bytes compress).length) es

/-- The bytes of the directory of entries. -/
def directoryBytes (compress : Bool) (es : List NamedData) : Text :=
  (directoryRecords compress 0 es).flatMap DirectoryRecord.encode

/-- The end record of an archive of entries. -/
def endOf (compress : Bool) (es : List NamedData) : EndRecord :=
  endRecordOf es.length (directoryBytes compress es).length (entriesBytes compress es).length

/-- The bytes of an archive of entries. -/
def archiveBytes (compress : Bool) (es : List NamedData) : Text :=
  entriesBytes compress es ++ (directoryBytes compress es ++ (endOf compress es).encode)

/-- Neither the data of an entry nor the archive is so large that it needs larger records. -/
structure WithinLimits (compress : Bool) (es : List NamedData) : Prop where
  data : ∀ x ∈ es, x.data.size < OutputArchive.sizeLimit
  total : (entriesBytes compress es).length + (directoryBytes compress es).length <
    OutputArchive.sizeLimit

/-! ## What an archive is -/

/-- An entry as it stands in an archive. -/
structure StoredEntry where
  /-- The header in front of the data. -/
  header : LocalHeader
  /-- The data. -/
  payload : ByteArray
  /-- The record in the directory. -/
  record : DirectoryRecord

/-- The bytes of the entry, without its record. -/
def StoredEntry.bytes (s : StoredEntry) : Text := s.header.encode ++ s.payload.data.toList

/-- The record agrees with the header, and both with the data. -/
structure StoredEntry.Holds (compress : Bool) (x : NamedData) (s : StoredEntry) : Prop where
  /-- A header of 30 bytes and the name stand in front of the data. -/
  layout : ∃ fixed, s.header.encode = fixed ++ x.name ∧ fixed.length = 30
  /-- The payload is the data, in its shorter form if it may be compressed. -/
  payload : ⟨s.header.method, s.payload⟩ = Payload.ofData compress x.data
  marked : s.header.signature = LocalHeader.mark
  name : s.header.name = x.name
  crc : s.header.crc = crc32 x.data
  size : s.header.size.toNat = x.data.size
  compressedSize : s.header.compressedSize.toNat = s.payload.size
  recordMarked : s.record.signature = DirectoryRecord.mark
  recordName : s.record.name = s.header.name
  recordMethod : s.record.method = s.header.method
  recordCrc : s.record.crc = s.header.crc
  recordSize : s.record.size = s.header.size
  recordCompressedSize : s.record.compressedSize = s.header.compressedSize

/-- The bytes are an archive of the entries. -/
structure IsArchive (compress : Bool) (es : List NamedData) (stored : List StoredEntry)
    (e : EndRecord) (bytes : Text) : Prop where
  /-- Entries, directory and end record stand one behind the other. -/
  layout : bytes =
    stored.flatMap StoredEntry.bytes ++ (stored.flatMap (·.record.encode) ++ e.encode)
  /-- The entries are in order. -/
  entries : List.Forall₂ (StoredEntry.Holds compress) es stored
  /-- Each record tells where its entry begins. -/
  offsets : ∀ before s after, stored = before ++ s :: after →
    s.record.localOffset.toNat = (before.flatMap StoredEntry.bytes).length
  marked : e.signature = EndRecord.mark
  count : e.entries.toNat = es.length
  diskCount : e.diskEntries.toNat = es.length
  directorySize : e.directorySize.toNat = (stored.flatMap (·.record.encode)).length
  directoryOffset : e.directoryOffset.toNat = (stored.flatMap StoredEntry.bytes).length

/-! ## Sizes -/

@[simp] theorem length_bytes16 (v : UInt16) : (bytes16 v).length = 2 := rfl

@[simp] theorem length_bytes32 (v : UInt32) : (bytes32 v).length = 4 := rfl

theorem Zip.LocalHeader.length_encode (h : LocalHeader) :
    h.encode.length = fixedSize + h.name.length := by
  simp only [encode, List.length_append, length_bytes16, length_bytes32, fixedSize]

theorem Zip.DirectoryRecord.length_encode (r : DirectoryRecord) :
    r.encode.length = fixedSize + r.name.length := by
  -- The equation of so long a definition is slow to make.
  delta encode fixedSize
  simp only [List.length_append, length_bytes16, length_bytes32]

theorem Zip.EndRecord.length_encode (e : EndRecord) : e.encode.length = fixedSize := by
  simp [encode, fixedSize]

/-- Compressing never makes a payload longer. -/
theorem Payload.size_ofData_le (compress : Bool) (data : ByteArray) :
    (ofData compress data).bytes.size ≤ data.size := by
  unfold ofData
  split
  · dsimp only
    split
    · next shorter => exact Nat.le_of_lt shorter
    · exact Nat.le_refl _
  · exact Nat.le_refl _

/-- Only data that is not empty is deflated. -/
theorem Payload.ofData_eq (compress : Bool) (data : ByteArray) :
    ofData compress data = stored data ∨
      0 < data.size ∧ ofData compress data = ⟨methodDeflated, Deflate.deflate data⟩ := by
  unfold ofData
  split
  · next usable =>
    simp only [Bool.and_eq_true, bne_iff_ne] at usable
    dsimp only
    split
    · exact .inr ⟨Nat.pos_of_ne_zero usable.2, rfl⟩
    · exact .inl rfl
  · exact .inl rfl

theorem entriesBytes_cons (compress : Bool) (x : NamedData) (es : List NamedData) :
    entriesBytes compress (x :: es) = x.bytes compress ++ entriesBytes compress es :=
  List.flatMap_cons

theorem entriesBytes_append (compress : Bool) (es fs : List NamedData) :
    entriesBytes compress (es ++ fs) = entriesBytes compress es ++ entriesBytes compress fs :=
  List.flatMap_append

theorem entriesBytes_singleton (compress : Bool) (x : NamedData) :
    entriesBytes compress [x] = x.bytes compress :=
  List.flatMap_singleton ..

theorem directoryRecords_append (compress : Bool) (offset : Nat) (es fs : List NamedData) :
    directoryRecords compress offset (es ++ fs) =
      directoryRecords compress offset es ++
        directoryRecords compress (offset + (entriesBytes compress es).length) fs := by
  induction es generalizing offset with
  | nil => rfl
  | cons x es ih =>
    rw [List.cons_append, directoryRecords, directoryRecords, ih, entriesBytes_cons,
      List.length_append, ← Nat.add_assoc]
    rfl

/-- The records of further entries follow those before them. -/
theorem directoryBytes_append (compress : Bool) (es fs : List NamedData) :
    directoryBytes compress (es ++ fs) = directoryBytes compress es ++
      (directoryRecords compress (entriesBytes compress es).length fs).flatMap
        DirectoryRecord.encode := by
  rw [directoryBytes, directoryRecords_append, List.flatMap_append, Nat.zero_add, directoryBytes]

theorem directoryBytes_append_singleton (compress : Bool) (es : List NamedData) (x : NamedData) :
    directoryBytes compress (es ++ [x]) = directoryBytes compress es ++
      (recordOf (x.header compress) (entriesBytes compress es).length).encode := by
  rw [directoryBytes_append, directoryRecords, directoryRecords, List.flatMap_singleton]

theorem length_archiveBytes (compress : Bool) (es : List NamedData) :
    (archiveBytes compress es).length =
      (entriesBytes compress es).length + (directoryBytes compress es).length +
        EndRecord.fixedSize := by
  rw [archiveBytes, List.length_append, List.length_append, EndRecord.length_encode, Nat.add_assoc]

/-- The beginning of an archive that stays below the limits does too. -/
theorem WithinLimits.of_append {compress : Bool} {es fs : List NamedData}
    (h : WithinLimits compress (es ++ fs)) : WithinLimits compress es where
  data x mem := h.data x (List.mem_append_left fs mem)
  total := by
    have total := h.total
    rw [entriesBytes_append, directoryBytes_append, List.length_append, List.length_append] at total
    omega

/-! ## What is written is an archive -/

/-- The entry at the offset. -/
def NamedData.stored (compress : Bool) (x : NamedData) (offset : Nat) : StoredEntry :=
  ⟨x.header compress, (x.payload compress).bytes, recordOf (x.header compress) offset⟩

/-- Entries one behind the other, the first of which begins at the offset. -/
def storedFrom (compress : Bool) : (offset : Nat) → List NamedData → List StoredEntry
  | _, [] => []
  | offset, x :: es =>
    x.stored compress offset :: storedFrom compress (offset + (x.bytes compress).length) es

theorem NamedData.stored_holds {compress : Bool} {x : NamedData}
    (small : x.data.size < OutputArchive.sizeLimit) (offset : Nat) :
    StoredEntry.Holds compress x (x.stored compress offset) where
  layout := ⟨_, rfl, rfl⟩
  payload := rfl
  marked := rfl
  name := rfl
  crc := rfl
  size := toNat_toUInt32 (Nat.lt_trans small (by decide))
  compressedSize := by
    refine toNat_toUInt32 (Nat.lt_of_le_of_lt ?_ (Nat.lt_trans small (by decide)))
    exact Payload.size_ofData_le compress x.data
  recordMarked := rfl
  recordName := rfl
  recordMethod := rfl
  recordCrc := rfl
  recordSize := rfl
  recordCompressedSize := rfl

section Stored

variable {compress : Bool} {es : List NamedData}

theorem flatMap_bytes_storedFrom (offset : Nat) :
    (storedFrom compress offset es).flatMap StoredEntry.bytes = entriesBytes compress es := by
  induction es generalizing offset with
  | nil => rfl
  | cons x es ih =>
    rw [storedFrom, List.flatMap_cons, ih]
    rfl

theorem flatMap_record_storedFrom (offset : Nat) :
    (storedFrom compress offset es).flatMap (·.record.encode) =
      (directoryRecords compress offset es).flatMap DirectoryRecord.encode := by
  induction es generalizing offset with
  | nil => rfl
  | cons x es ih =>
    rw [storedFrom, List.flatMap_cons, ih]
    rfl

theorem storedFrom_holds (small : ∀ x ∈ es, x.data.size < OutputArchive.sizeLimit) (offset : Nat) :
    List.Forall₂ (StoredEntry.Holds compress) es (storedFrom compress offset es) := by
  induction es generalizing offset with
  | nil => exact .nil
  | cons x es ih =>
    exact .cons (NamedData.stored_holds (small x List.mem_cons_self) offset)
      (ih (fun y mem => small y (List.mem_cons_of_mem x mem)) _)

/-- The offset of an entry is the length of what is in front of it. -/
theorem localOffset_of_storedFrom {offset : Nat} {before after : List StoredEntry} {s : StoredEntry}
    (h : storedFrom compress offset es = before ++ s :: after) :
    s.record.localOffset = (offset + (before.flatMap StoredEntry.bytes).length).toUInt32 := by
  induction es generalizing offset before with
  | nil => simp [storedFrom] at h
  | cons x es ih =>
    cases before with
    | nil =>
      obtain ⟨rfl, -⟩ := List.cons.inj h
      rfl
    | cons first before =>
      obtain ⟨rfl, rest⟩ := List.cons.inj h
      rw [ih rest, List.flatMap_cons, List.length_append, ← Nat.add_assoc]
      rfl

end Stored

/-- What is written for entries is an archive of them. -/
theorem isArchive_archiveBytes {compress : Bool} {es : List NamedData}
    (count : es.length ≤ OutputArchive.countLimit) (small : WithinLimits compress es) :
    IsArchive compress es (storedFrom compress 0 es) (endOf compress es)
      (archiveBytes compress es) := by
  have total := small.total
  have limit : OutputArchive.sizeLimit < 0x100000000 := by decide
  constructor
  case layout => rw [flatMap_bytes_storedFrom, flatMap_record_storedFrom, archiveBytes, directoryBytes]
  case entries => exact storedFrom_holds small.data 0
  case offsets =>
    intro before s after eq
    rw [localOffset_of_storedFrom eq, Nat.zero_add]
    have whole : (storedFrom compress 0 es).flatMap StoredEntry.bytes = entriesBytes compress es :=
      flatMap_bytes_storedFrom 0
    rw [eq, List.flatMap_append] at whole
    have := congrArg List.length whole
    rw [List.length_append] at this
    exact toNat_toUInt32 (by omega)
  case marked => rfl
  case count => exact toNat_toUInt16 count
  case diskCount => exact toNat_toUInt16 count
  case directorySize =>
    rw [flatMap_record_storedFrom]
    exact toNat_toUInt32 (show (directoryBytes compress es).length < _ by omega)
  case directoryOffset =>
    rw [flatMap_bytes_storedFrom]
    exact toNat_toUInt32 (by omega)

end ClassAbi
