import ClassAbi.Proofs.ArchiveRecords
import ClassAbi.Proofs.DeflateRoundTrip
import Mathlib.Tactic.IntervalCases

/-!
# What was written to an archive is read from it

The end record is the last thing in an archive that was written, so it is found
at once, and no bytes of names or data are taken for it.  It leads to the
directory, whose records lead to the entries.

One thing is guessed from bytes that may be anything.  A reader takes an archive
for a large one, which it does not read, by four bytes at a fixed distance in
front of the end record.  Where an archive has its directory there, these bytes
can be part of the last name (`LooksLarge`).
-/

namespace ClassAbi

open Zip

/-- The bytes at the place where a large archive has a mark are the mark. -/
def LooksLarge (d : ByteArray) : Prop :=
  largeArchiveRecordSize + EndRecord.fixedSize ≤ d.size ∧
    number32 d (d.size - EndRecord.fixedSize - largeArchiveRecordSize) = largeArchiveMark

instance (d : ByteArray) : Decidable (LooksLarge d) := inferInstanceAs (Decidable (_ ∧ _))

/-- The archive gives these entries one after the other, and then no more. -/
def InputArchive.Yields (a : InputArchive) : List Entry → InputArchive → Prop
  | [], b => a.next = .ok (none, b)
  | e :: es, b => ∃ a', a.next = .ok (some e, a') ∧ a'.Yields es b

/-- The entry that holds the data at the offset. -/
def NamedData.entryAt (compress : Bool) (x : NamedData) (offset : Nat) : Entry :=
  ⟨recordOf (x.header compress) offset, x.header compress, offset⟩

/-- Entries one behind the other, the first of which begins at the offset. -/
def entriesAt (compress : Bool) : (offset : Nat) → List NamedData → List Entry
  | _, [] => []
  | offset, x :: es =>
    x.entryAt compress offset :: entriesAt compress (offset + (x.bytes compress).length) es

/-- The entry of the file has the name and the data, and its record is that of the header that
stands where the record says. -/
structure Entry.Shows (d : ByteArray) (x : NamedData) (e : Entry) : Prop where
  name : e.record.name = x.name
  header : LocalHeader.decode d e.headerOffset = e.header
  record : e.record = recordOf e.header e.headerOffset
  data : e.read d = .ok x.data

/-! ## Finding the directory -/

/-- An end record at the last possible place is found there. -/
theorem findEndRecord_last {d : ByteArray} {low count : Nat}
    (h : number32 d (low + count) = EndRecord.mark) :
    findEndRecord d low count = some (low + count) := by
  cases count with
  | zero =>
    rw [findEndRecord, show number32 d low = EndRecord.mark from h, if_pos (beq_self_eq_true _)]
    rfl
  | succ count => rw [findEndRecord, h, if_pos (beq_self_eq_true _)]

/-- The file is the archive of the entries, and its records say the truth about them. -/
structure HoldsArchive (compress : Bool) (es : List NamedData) (d : ByteArray) : Prop where
  whole : d.data.toList = archiveBytes compress es
  short : ∀ x ∈ es, x.name.length ≤ OutputArchive.countLimit
  limits : WithinLimits compress es

namespace HoldsArchive

variable {compress : Bool} {es : List NamedData} {d : ByteArray} (h : HoldsArchive compress es d)
include h

theorem size_eq :
    d.size = (entriesBytes compress es).length + (directoryBytes compress es).length +
      EndRecord.fixedSize := by
  rw [← length_archiveBytes, ← h.whole]
  rfl

theorem holdsAt_archive : HoldsAt d 0 (archiveBytes compress es) := h.whole ▸ HoldsAt.self d

theorem holdsAt_endOf :
    HoldsAt d ((entriesBytes compress es).length + (directoryBytes compress es).length)
      (endOf compress es).encode := by
  have held := h.holdsAt_archive.right.right
  rwa [Nat.zero_add] at held

theorem decode_endOf :
    EndRecord.decode d ((entriesBytes compress es).length + (directoryBytes compress es).length) =
      endOf compress es :=
  EndRecord.decode_of_holdsAt h.holdsAt_endOf

/-- The end record is found at the end. -/
theorem locateEnd_eq :
    Directory.locateEnd d =
      .ok ((entriesBytes compress es).length + (directoryBytes compress es).length) := by
  have size := h.size_eq
  have mark := congrArg EndRecord.signature h.decode_endOf
  generalize (entriesBytes compress es).length + (directoryBytes compress es).length = stop at *
  have window : stop - endRecordWindow + min stop endRecordWindow = stop := by omega
  have found : findEndRecord d (stop - endRecordWindow) (min stop endRecordWindow) = some stop := by
    rw [findEndRecord_last, window]
    rw [window]
    exact mark
  unfold Directory.locateEnd
  rw [if_neg (by omega), size, Nat.add_sub_cancel]
  simp only [found]

section Entry

variable {before after : List NamedData} {x : NamedData} (split : es = before ++ x :: after)
include split

theorem holdsAt_entry : HoldsAt d (entriesBytes compress before).length (x.bytes compress) := by
  have held := h.holdsAt_archive.left
  rw [split, entriesBytes_append, entriesBytes_cons] at held
  have held := held.right.left
  rwa [Nat.zero_add] at held

theorem decode_header :
    LocalHeader.decode d (entriesBytes compress before).length = x.header compress :=
  LocalHeader.decode_of_holdsAt (h.short x (by simp [split])) (h.holdsAt_entry split).left

/-- A record of the directory is read where it was written. -/
theorem decode_record :
    DirectoryRecord.decode d
        ((entriesBytes compress es).length + (directoryBytes compress before).length) =
      recordOf (x.header compress) (entriesBytes compress before).length := by
  have held := h.holdsAt_archive.right.left
  rw [Nat.zero_add, congrArg (directoryBytes compress) split, directoryBytes_append,
    directoryRecords, List.flatMap_cons] at held
  exact DirectoryRecord.decode_of_holdsAt (h.short x (by simp [split])) held.right.left

end Entry

theorem looksLarge_iff :
    LooksLarge d ↔
      largeArchiveRecordSize ≤
          (entriesBytes compress es).length + (directoryBytes compress es).length ∧
        number32 d ((entriesBytes compress es).length + (directoryBytes compress es).length -
          largeArchiveRecordSize) = largeArchiveMark := by
  rw [LooksLarge, h.size_eq, Nat.add_sub_cancel, Nat.add_le_add_iff_right]

/-- The directory stands in front of the end record.  That is seen unless the archive looks like
a large one. -/
theorem before_eq :
    Directory.before d
        ((entriesBytes compress es).length + (directoryBytes compress es).length) =
      if LooksLarge d then .error .largeArchive
      else .ok ⟨(entriesBytes compress es).length, 0⟩ := by
  have total := h.limits.total
  have size : (endOf compress es).directorySize.toNat = (directoryBytes compress es).length :=
    toNat_toUInt32 (Nat.lt_trans (Nat.lt_of_le_of_lt (Nat.le_add_left ..) total) (by decide))
  have offset : (endOf compress es).directoryOffset.toNat = (entriesBytes compress es).length :=
    toNat_toUInt32 (Nat.lt_trans (Nat.lt_of_le_of_lt (Nat.le_add_right ..) total) (by decide))
  have here : (endOf compress es).directoryOffset ≠ elsewhere ∧
      (endOf compress es).directorySize ≠ elsewhere := by
    have limit : elsewhere.toNat = OutputArchive.sizeLimit := rfl
    constructor
    · intro eq
      rw [eq, limit] at offset
      omega
    · intro eq
      rw [eq, limit] at size
      omega
  have marked : (endOf compress es).directorySize ≠ 0 →
      number32 d (entriesBytes compress es).length = DirectoryRecord.mark := by
    intro nonempty
    obtain ⟨x, after, split⟩ := List.exists_cons_of_ne_nil fun empty : es = [] =>
      nonempty (by rw [empty]; rfl)
    have split : es = [] ++ x :: after := split
    exact congrArg DirectoryRecord.signature (h.decode_record split)
  unfold Directory.before
  simp only [h.decode_endOf, ← h.looksLarge_iff, here, or_false, size, offset,
    Nat.add_sub_cancel]
  congr 1
  rw [if_neg (by omega), if_neg (Nat.lt_irrefl _), if_neg fun wrong => wrong.2 (marked wrong.1),
    Nat.sub_self]

/-- Only the end of a name that is long enough can make an archive look like a large one. -/
theorem length_name_of_looksLarge {before : List NamedData} {x : NamedData}
    (split : es = before ++ [x]) (large : LooksLarge d) : 16 ≤ x.name.length := by
  have record := h.decode_record split
  have marked := (h.looksLarge_iff.mp large).2
  have place : (entriesBytes compress es).length + (directoryBytes compress es).length -
      largeArchiveRecordSize =
        (entriesBytes compress es).length + (directoryBytes compress before).length +
          (26 + x.name.length) := by
    have stop := congrArg (fun fs => (directoryBytes compress fs).length) split
    simp only [directoryBytes_append_singleton, List.length_append, DirectoryRecord.length_encode]
      at stop
    rw [stop, DirectoryRecord.fixedSize, largeArchiveRecordSize]
    change _ + (_ + (46 + x.name.length)) - 20 = _
    omega
  rw [place] at marked
  generalize (entriesBytes compress es).length + (directoryBytes compress before).length = o at *
  have name := congrArg (fun r => r.name.length) record
  have extra := congrArg (fun r => r.extraLength.toNat) record
  have comment := congrArg (fun r => r.commentLength.toNat) record
  have disk := congrArg (fun r => r.startDisk.toNat) record
  have internal := congrArg (fun r => r.internalAttributes.toNat) record
  have external := congrArg (fun r => r.externalAttributes.toNat) record
  have marked := congrArg UInt32.toNat marked
  simp only [DirectoryRecord.decode, length_textAt, toNat_number32, toNat_number16, Nat.add_assoc,
    Nat.reduceAdd] at name extra comment disk internal external marked
  change _ = x.name.length at name
  change _ = 0 at extra comment disk internal external
  change _ = 0x07064b50 at marked
  by_contra short
  generalize x.name.length = n at name marked short
  have byte (i : Nat) : (byteAt d i).toNat < 256 := (byteAt d i).toNat_lt
  have first := byte (o + (26 + n))
  have second := byte (o + (26 + (n + 1)))
  have third := byte (o + (26 + (n + 2)))
  -- All bytes in front of the offset are zero but those of the name's length.
  interval_cases n <;> simp only [Nat.reduceAdd] at name marked first second third <;> omega

theorem locate_eq :
    Directory.locate d =
      if LooksLarge d then .error .largeArchive
      else .ok ⟨(entriesBytes compress es).length, 0⟩ := by
  rw [Directory.locate, h.locateEnd_eq]
  exact h.before_eq

/-! ## The entries -/

section Next

variable {before after : List NamedData} {x : NamedData} (split : es = before ++ x :: after)
include split

/-- The offset of an entry is exact in its record. -/
theorem localOffset_toNat :
    (recordOf (x.header compress) (entriesBytes compress before).length).localOffset.toNat =
      (entriesBytes compress before).length := by
  have total := h.limits.total
  rw [split, entriesBytes_append, List.length_append] at total
  refine toNat_toUInt32 (Nat.lt_trans (m := OutputArchive.sizeLimit) ?_ (by decide))
  omega

theorem localOffset_ne :
    (recordOf (x.header compress) (entriesBytes compress before).length).localOffset ≠
      elsewhere := by
  have limit : elsewhere.toNat = OutputArchive.sizeLimit := rfl
  have total := h.limits.total
  have offset := h.localOffset_toNat split
  rw [split, entriesBytes_append, List.length_append] at total
  intro eq
  rw [eq, limit] at offset
  omega

/-- Where the record of an entry was written, the entry is found. -/
theorem entryAt_eq :
    entryAt d 0 ((entriesBytes compress es).length + (directoryBytes compress before).length) =
      .ok (some (x.entryAt compress (entriesBytes compress before).length,
        (entriesBytes compress es).length +
          (directoryBytes compress (before ++ [x])).length)) := by
  have record := h.decode_record split
  have header := h.decode_header split
  have marked : number32 d ((entriesBytes compress es).length +
      (directoryBytes compress before).length) = DirectoryRecord.mark :=
    congrArg DirectoryRecord.signature record
  have headed : number32 d (entriesBytes compress before).length = LocalHeader.mark :=
    congrArg LocalHeader.signature header
  have next : (directoryBytes compress (before ++ [x])).length =
      (directoryBytes compress before).length +
        (recordOf (x.header compress) (entriesBytes compress before).length).totalSize := by
    rw [directoryBytes_append_singleton, List.length_append, DirectoryRecord.length_encode]
    rfl
  have inside : (entriesBytes compress es).length +
      (directoryBytes compress (before ++ [x])).length < d.size := by
    rw [h.size_eq, congrArg (directoryBytes compress) (split.trans (List.append_cons ..)),
      directoryBytes_append _ _ after, List.length_append, EndRecord.fixedSize]
    omega
  have headerInside : (entriesBytes compress before).length + LocalHeader.fixedSize ≤ d.size := by
    have := (h.holdsAt_entry split).left.le
    rw [LocalHeader.length_encode] at this
    omega
  unfold ClassAbi.entryAt
  simp only [marked, record, beq_eq_false_iff_ne.mpr (h.localOffset_ne split),
    h.localOffset_toNat split, Nat.add_zero, header, headed, Nat.add_assoc, ← next, bne_self_eq_false,
    Bool.false_eq_true, if_false, if_neg (Nat.not_le.mpr inside),
    if_neg (Nat.not_lt.mpr headerInside)]
  rfl

end Next

/-- Where the directory ends, there is no further entry. -/
theorem entryAt_end :
    entryAt d 0 ((entriesBytes compress es).length + (directoryBytes compress es).length) =
      .ok none := by
  have marked := congrArg EndRecord.signature h.decode_endOf
  unfold ClassAbi.entryAt
  rw [show number32 d _ = EndRecord.mark from marked]
  rfl

/-- An archive whose next record is that of an entry yields it and all that follow. -/
theorem yields {before after : List NamedData} (split : es = before ++ after) {a : InputArchive}
    (opened : a.path ≠ []) (sound : a.fault = none) (data : a.view.data = d)
    (preamble : a.preamble = 0)
    (cursor : a.cursor =
      (entriesBytes compress es).length + (directoryBytes compress before).length) :
    ∃ b, a.Yields (entriesAt compress (entriesBytes compress before).length after) b ∧
      b.fault = none ∧ b.view = a.view := by
  induction after generalizing before a with
  | nil =>
    rw [List.append_nil] at split
    refine ⟨a, ?_, sound, rfl⟩
    rw [entriesAt, InputArchive.Yields, InputArchive.next, if_neg opened, sound, data, preamble,
      cursor, ← split, h.entryAt_end]
    rfl
  | cons x after ih =>
    have found := h.entryAt_eq split
    rw [← cursor] at found
    have step : a.next = .ok (some (x.entryAt compress (entriesBytes compress before).length),
        { a with cursor := (entriesBytes compress es).length +
          (directoryBytes compress (before ++ [x])).length }) := by
      rw [InputArchive.next, if_neg opened, sound, data, preamble, found]
      rfl
    obtain ⟨b, rest, sound', view⟩ :=
      ih (a := { a with cursor := (entriesBytes compress es).length +
        (directoryBytes compress (before ++ [x])).length }) (split.trans (List.append_cons ..)) opened
        sound data preamble rfl
    refine ⟨b, ⟨_, step, ?_⟩, sound', view⟩
    rw [entriesBytes_append, List.length_append, entriesBytes_singleton] at rest
    exact rest

/-! ## The data of an entry -/

section Read

variable {before after : List NamedData} {x : NamedData} (split : es = before ++ x :: after)
include split

/-- The payload stands behind the header. -/
theorem holdsAt_payload :
    HoldsAt d ((entriesBytes compress before).length + (x.header compress).totalSize)
      (x.payload compress).bytes.data.toList := by
  have held := (h.holdsAt_entry split).right
  rwa [LocalHeader.length_encode] at held

/-- The data of an entry is read back. -/
theorem read_eq :
    (x.entryAt compress (entriesBytes compress before).length).read d = .ok x.data := by
  have small := h.limits.data x (by simp [split])
  have stored : StoredEntry.Holds compress x _ := NamedData.stored_holds small 0
  have held := h.holdsAt_payload split
  have size : (x.header compress).size.toNat = x.data.size := stored.size
  have compressedSize : (x.header compress).compressedSize.toNat =
    (x.payload compress).bytes.size := stored.compressedSize
  have shorter : (x.payload compress).bytes.size ≤ x.data.size := Payload.size_ofData_le ..
  have here : ¬((x.header compress).compressedSize = elsewhere ∨
      (x.header compress).size = elsewhere) := by
    have limit : elsewhere.toNat = OutputArchive.sizeLimit := rfl
    rintro (eq | eq)
    · rw [eq] at compressedSize
      omega
    · rw [eq] at size
      omega
  have inside : (entriesBytes compress before).length + (x.header compress).totalSize +
    (x.payload compress).bytes.size ≤ d.size := held.le
  have checked : ¬crc32 x.data ≠ (x.header compress).crc := not_not_intro rfl
  unfold Entry.read
  dsimp only [NamedData.entryAt, recordOf]
  rw [if_neg here, compressedSize, if_neg (Nat.not_lt.mpr inside), extract_of_holdsAt held, size]
  obtain plain | ⟨nonempty, deflated⟩ := Payload.ofData_eq compress x.data
  · have method : (x.header compress).method = methodStored := congrArg Payload.method plain
    have bytes : (x.payload compress).bytes = x.data := congrArg Payload.bytes plain
    have same : (x.header compress).compressedSize = (x.header compress).size :=
      UInt32.toNat_inj.mp (by rw [compressedSize, size, bytes])
    rw [if_pos method, if_neg (not_not_intro same), bytes, ok_bind, if_neg checked]
  · have method : (x.header compress).method = methodDeflated := congrArg Payload.method deflated
    have bytes : (x.payload compress).bytes = Deflate.deflate x.data :=
      congrArg Payload.bytes deflated
    rw [method, if_neg (by decide), if_pos rfl, bytes, Deflate.inflate_deflate nonempty,
      Except.mapError, ok_bind, if_neg checked]

end Read

/-- The entries that are found are those that were written. -/
theorem shows {before after : List NamedData} (split : es = before ++ after) :
    List.Forall₂ (Entry.Shows d) after
      (entriesAt compress (entriesBytes compress before).length after) := by
  induction after generalizing before with
  | nil => exact .nil
  | cons x after ih =>
    refine .cons ⟨rfl, h.decode_header split, rfl, h.read_eq split⟩ ?_
    have rest := ih (split.trans (List.append_cons ..))
    rwa [entriesBytes_append, List.length_append, entriesBytes_singleton] at rest

end HoldsArchive

end ClassAbi
