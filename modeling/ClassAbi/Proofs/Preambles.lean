import ClassAbi.Proofs.BoundedWalks
import ClassAbi.Proofs.CarriedBytes
import ClassAbi.Proofs.DamagedDirectories

/-!
# Archives with something in front

Bytes in front of an archive move everything in it by their number.  A reader finds the directory
from the back of the file and learns from it by how much the archive was moved, so it goes through
both files in step: `InputArchive.behind` is what a reader of the archive becomes, and each call
keeps it so.

The only thing that could differ is the guess that an archive is a large one.  It looks at bytes
in front of the end record, which belong to the archive if there are enough of them.
-/

namespace ClassAbi

open Zip

/-! ## What bytes in front change -/

/-- The fault where there are so many bytes in front of the file. -/
def Corruption.behind (shift : Nat) : Corruption → Corruption
  | recordOutOfBounds offset => recordOutOfBounds (offset + shift)
  | noHeader offset => noHeader (offset + shift)
  | cause => cause

/-- The entry where there are so many bytes in front of the file. -/
def Entry.behind (shift : Nat) (e : Entry) : Entry :=
  { e with headerOffset := e.headerOffset + shift }

/-- The reader of a file at a path that has the bytes in front of those of the file. -/
def InputArchive.behind (front : ByteArray) (path : Text) (a : InputArchive) : InputArchive where
  path := path
  view := ⟨some (front ++ a.view.data)⟩
  fault := a.fault.map fun f => ⟨path, f.cause.behind front.size⟩
  cursor := a.cursor + front.size
  preamble := a.preamble + front.size

section Decode

variable (front d : ByteArray) (offset : Nat)

theorem number32_append :
    number32 (front ++ d) (offset + front.size) = number32 d offset :=
  (Carries.append front d (offset + 4)).number32 (Nat.le_refl _)

theorem localHeader_append :
    LocalHeader.decode (front ++ d) (offset + front.size) = LocalHeader.decode d offset :=
  (Carries.append front d _).localHeader (Nat.le_refl _)

theorem directoryRecord_append :
    DirectoryRecord.decode (front ++ d) (offset + front.size) = DirectoryRecord.decode d offset :=
  (Carries.append front d _).directoryRecord (Nat.le_refl _)

theorem endRecord_append :
    EndRecord.decode (front ++ d) (offset + front.size) = EndRecord.decode d offset := by
  have carried := Carries.append front d (offset + 22)
  simp only [EndRecord.decode, Nat.add_right_comm offset front.size]
  rw [carried.number16 (by omega), carried.number16 (by omega), carried.number16 (by omega),
    carried.number16 (by omega), carried.number16 (by omega), carried.number32 (by omega),
    carried.number32 (by omega), carried.number32 (by omega)]

end Decode

/-! ## Finding the directory -/

namespace Directory

variable {d : ByteArray} {stop : Nat}

theorem IsEnd.append (ended : IsEnd d stop) (front : ByteArray) :
    IsEnd (front ++ d) (stop + front.size) := by
  obtain ⟨room, near, marked, last⟩ := ended
  refine ⟨?_, ?_, ?_, fun later behind inside => ?_⟩
  · rw [ByteArray.size_append]
    omega
  · rw [ByteArray.size_append]
    omega
  · rw [number32_append, marked]
  · rw [ByteArray.size_append] at inside
    obtain ⟨place, rfl⟩ : ∃ place, later = place + front.size :=
      ⟨later - front.size, by omega⟩
    rw [number32_append]
    exact last place (by omega) (by omega)

/-- The directory is found behind the bytes, which belong to what is in front of the archive
proper. -/
theorem locate_append {found : Directory} (located : locate d = .ok found)
    (ended : locateEnd d = .ok stop) (far : largeArchiveRecordSize ≤ stop) (front : ByteArray) :
    locate (front ++ d) = .ok ⟨found.start + front.size, found.preamble + front.size⟩ := by
  obtain ⟨stop', ended', before⟩ := bind_eq_ok.mp located
  cases ended.symm.trans ended'
  obtain ⟨usual, offset, size, ends, place, marked⟩ := before_eq_ok.mp before
  refine bind_eq_ok.mpr ⟨_, locateEnd_eq_ok.mpr ((locateEnd_eq_ok.mp ended).append front), ?_⟩
  refine before_eq_ok.mpr ⟨?_, ?_⟩
  · rintro ⟨-, large⟩
    rw [Nat.sub_add_comm far, number32_append] at large
    exact usual ⟨far, large⟩
  · rw [endRecord_append]
    refine ⟨offset, size, ?_, ?_, fun nonempty => ?_⟩
    · dsimp only
      omega
    · dsimp only
      omega
    · rw [number32_append]
      exact marked nonempty

end Directory

/-! ## Entries -/

/-- An entry is found where it was moved to, and so is the end or a fault. -/
theorem entryAt_append (front d : ByteArray) (preamble place : Nat) :
    entryAt (front ++ d) (preamble + front.size) (place + front.size) =
      match entryAt d preamble place with
      | .error cause => .error (cause.behind front.size)
      | .ok none => .ok none
      | .ok (some (e, next)) => .ok (some (e.behind front.size, next + front.size)) := by
  unfold entryAt
  simp only [number32_append, directoryRecord_append, ← Nat.add_assoc, localHeader_append]
  have shift (n : Nat) : n + front.size + LocalHeader.fixedSize =
      n + LocalHeader.fixedSize + front.size := Nat.add_right_comm ..
  have total (n : Nat) : place + front.size + n = place + n + front.size := Nat.add_right_comm ..
  have size : (front ++ d).size = d.size + front.size := by
    rw [ByteArray.size_append, Nat.add_comm]
  simp only [shift, total, size, Nat.add_le_add_iff_right, Nat.add_lt_add_iff_right]
  split_ifs <;> rfl

/-- The data of an entry is decoded alike. -/
theorem Entry.read_append (front d : ByteArray) (e : Entry) :
    (e.behind front.size).read (front ++ d) = e.read d := by
  have size : (front ++ d).size = d.size + front.size := by
    rw [ByteArray.size_append, Nat.add_comm]
  have start : (e.behind front.size).headerOffset + (e.behind front.size).header.totalSize =
      e.headerOffset + e.header.totalSize + front.size := Nat.add_right_comm ..
  have record : (e.behind front.size).record = e.record := rfl
  unfold Entry.read
  dsimp only
  rw [start, record, size, Nat.add_right_comm _ front.size]
  simp only [Nat.add_lt_add_iff_right]
  split
  · rfl
  split
  · rfl
  next inside =>
    have inside := Nat.not_lt.mp inside
    rw [(Carries.append front d _).extract (Nat.le_refl _) inside
      (size ▸ Nat.add_le_add_right inside _)]

/-! ## Calls -/

namespace InputArchive

@[simp] theorem data_behind (front : ByteArray) (path : Text) (a : InputArchive) :
    (a.behind front path).view.data = front ++ a.view.data := rfl

@[simp] theorem fault_behind (front : ByteArray) (path : Text) (a : InputArchive) :
    (a.behind front path).fault = a.fault.map fun f => ⟨path, f.cause.behind front.size⟩ := rfl

@[simp] theorem cursor_behind (front : ByteArray) (path : Text) (a : InputArchive) :
    (a.behind front path).cursor = a.cursor + front.size := rfl

@[simp] theorem preamble_behind (front : ByteArray) (path : Text) (a : InputArchive) :
    (a.behind front path).preamble = a.preamble + front.size := rfl

section Calls

variable {a b : InputArchive} {front : ByteArray} {path : Text} (named : path ≠ [])
include named

theorem next_behind {answer : Option Entry} (step : a.next = .ok (answer, b)) :
    (a.behind front path).next =
      .ok (answer.map (Entry.behind front.size), b.behind front path) := by
  obtain ⟨opened, -⟩ := next_eq_ok step
  cases fault : a.fault with
  | some f =>
    have faulty : a.fault.isSome := by rw [fault]; rfl
    cases (next_of_fault opened faulty).symm.trans step
    exact next_of_fault named (by rwa [fault_behind, Option.isSome_map])
  | none =>
    rw [next_of_sound opened fault] at step
    rw [next_of_sound named (by rw [fault_behind, fault]; rfl), data_behind, preamble_behind,
      cursor_behind, entryAt_append]
    cases found : entryAt a.view.data a.preamble a.cursor with
    | error cause =>
      rw [found] at step
      cases step
      rfl
    | ok result =>
      rw [found] at step
      cases result <;> cases step <;> rfl

/-- The answers are those for the file alone, and so is the fault. -/
theorem nextEach_behind {calls : Nat} {answers : List (Option Entry)}
    (run : a.nextEach calls = .ok (answers, b)) :
    (a.behind front path).nextEach calls =
      .ok (answers.map (Option.map (Entry.behind front.size)), b.behind front path) := by
  induction calls generalizing a answers with
  | zero =>
    cases run
    rfl
  | succ calls ih =>
    obtain ⟨⟨answer, a'⟩, first, run⟩ := bind_eq_ok.mp run
    obtain ⟨⟨rest, b'⟩, more, run⟩ := bind_eq_ok.mp run
    cases run
    exact nextEach_succ (next_behind named first) (ih more)

end Calls

/-- A disk with the file at one path. -/
def diskWith (d : ByteArray) : Disk := OutputArchive.hostAtO.disk.update [[111]] d

theorem lookup_diskWith (d : ByteArray) : (diskWith d).lookup [111] = .ok (.file d) := by
  obtain ⟨place, disk, created, rfl, wrote⟩ :=
    OutputArchive.openFile_eq_ok OutputArchive.openFile_emptyHost
  obtain ⟨s, file, rfl, -⟩ := wrote.file
  cases file
  exact Disk.lookup_update_of_create created d

/-- An archive of one entry. -/
def singleArchive : ByteArray := (archiveBytes false [⟨[65], ⟨#[1]⟩⟩]).toByteArray

theorem holdsArchive_singleArchive : HoldsArchive false [⟨[65], ⟨#[1]⟩⟩] singleArchive where
  whole := List.toList_data_toByteArray
  short := by decide
  limits := ⟨by decide, by decide +kernel⟩

theorem openFile_singleArchive {disk : Disk}
    (there : disk.lookup [111] = .ok (.file singleArchive)) (reader : InputArchive) :
    reader.close.openFile disk [111] = .ok (.ok (), readerAt singleArchive 32) := by
  have usual : ¬LooksLarge singleArchive := by decide +kernel
  have read := openFile_close there reader
  rw [holdsArchive_singleArchive.locate_eq, if_neg usual] at read
  exact read

/-- The first line of a script. -/
def script : ByteArray := (Text.ascii "#!/bin/sh\n").toByteArray

end InputArchive

end ClassAbi
