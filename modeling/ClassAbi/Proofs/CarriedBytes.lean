import ClassAbi.Proofs.ArchiveRecords

/-!
# Files that share bytes

The bytes of a file up to a limit may stand in another file, all the same number of places further
on (`Carries`).  Whatever is decoded from these bytes alone is then decoded from the other file
too, that number of places further on.
-/

namespace ClassAbi

open Zip

/-- Below the limit, the bytes of `d` stand in `d'` too, `shift` places further on. -/
def Carries (d d' : ByteArray) (shift limit : Nat) : Prop :=
  ∀ i < limit, byteAt d' (i + shift) = byteAt d i

theorem byteAt_eq_getElem {d : ByteArray} {i : Nat} (h : i < d.size) : byteAt d i = d[i] := by
  rw [byteAt, getElem?_pos d i h]
  rfl

/-- A text is read byte by byte. -/
theorem textAt_eq_map (d : ByteArray) (offset length : Nat) :
    textAt d offset length = (List.range length).map fun i => byteAt d (offset + i) := by
  have size : (d.extract offset (offset + length)).data.toList.length =
      min (offset + length) d.size - offset := ByteArray.size_extract
  change (d.extract offset (offset + length)).data.toList ++ List.replicate
    (length - (d.extract offset (offset + length)).data.toList.length) 0 = _
  refine List.ext_getElem ?_ fun i inText inRange => ?_
  · rw [List.length_append, List.length_replicate, List.length_map, List.length_range, size]
    omega
  · rw [List.length_map, List.length_range] at inRange
    rw [List.getElem_map, List.getElem_range, List.getElem_append]
    split
    · next found =>
      rw [byteAt_eq_getElem (show offset + i < d.size by omega)]
      exact ByteArray.getElem_extract
        (show i < (d.extract offset (offset + length)).size from found)
    · next behind =>
      rw [size] at behind
      rw [List.getElem_replicate, byteAt, getElem?_neg d _ (show ¬offset + i < d.size by omega)]
      rfl

namespace Carries

variable {d d' : ByteArray} {shift limit offset : Nat}

/-- Bytes in front of a file carry the whole file. -/
theorem append (front d : ByteArray) (limit : Nat) : Carries d (front ++ d) front.size limit := by
  intro i _
  unfold byteAt
  by_cases inside : i < d.size
  · have inside' : i + front.size < (front ++ d).size := by
      rw [ByteArray.size_append]
      omega
    rw [getElem?_pos (front ++ d) _ inside', getElem?_pos d _ inside,
      ByteArray.getElem_append_right (Nat.le_add_left ..)]
    simp only [Nat.add_sub_cancel]
  · have outside' : ¬i + front.size < (front ++ d).size := by
      rw [ByteArray.size_append]
      omega
    rw [getElem?_neg (front ++ d) _ outside', getElem?_neg d _ inside]

section Decode

variable (h : Carries d d' shift limit)
include h

theorem byteAt (inside : offset < limit) :
    Zip.byteAt d' (offset + shift) = Zip.byteAt d offset := h offset inside

theorem number16 (inside : offset + 2 ≤ limit) :
    Zip.number16 d' (offset + shift) = Zip.number16 d offset := by
  rw [Zip.number16, Zip.number16, h.byteAt (by omega), Nat.add_right_comm, h.byteAt (by omega)]

theorem number32 (inside : offset + 4 ≤ limit) :
    Zip.number32 d' (offset + shift) = Zip.number32 d offset := by
  rw [Zip.number32, Zip.number32, h.number16 (by omega), Nat.add_right_comm,
    h.number16 (by omega)]

theorem textAt {length : Nat} (inside : offset + length ≤ limit) :
    Zip.textAt d' (offset + shift) length = Zip.textAt d offset length := by
  rw [textAt_eq_map, textAt_eq_map]
  refine List.map_congr_left fun i mem => ?_
  have below := List.mem_range.mp mem
  rw [Nat.add_right_comm, h.byteAt (by omega)]

/-- A part of the file that lies below the limit. -/
theorem extract {stop : Nat} (inside : stop ≤ limit) (there : stop ≤ d.size)
    (there' : stop + shift ≤ d'.size) :
    d'.extract (offset + shift) (stop + shift) = d.extract offset stop := by
  refine ByteArray.ext_getElem ?_ ?_
  · rw [ByteArray.size_extract, ByteArray.size_extract]
    omega
  · intro i in' inPart
    rw [ByteArray.size_extract] at inPart
    rw [ByteArray.getElem_extract, ByteArray.getElem_extract,
      ← byteAt_eq_getElem, ← byteAt_eq_getElem, Nat.add_right_comm, h.byteAt (by omega)]

theorem localHeader
    (inside : offset + LocalHeader.fixedSize + (LocalHeader.decode d offset).name.length ≤ limit) :
    LocalHeader.decode d' (offset + shift) = LocalHeader.decode d offset := by
  rw [LocalHeader.fixedSize, LocalHeader.decode, length_textAt] at inside
  simp only [LocalHeader.decode, Nat.add_right_comm offset shift]
  rw [h.number16 (by omega), h.number16 (by omega), h.number16 (by omega), h.number16 (by omega),
    h.number16 (by omega), h.number16 (by omega), h.number16 (by omega), h.number32 (by omega),
    h.number32 (by omega), h.number32 (by omega), h.number32 (by omega), h.textAt (by omega)]

theorem directoryRecord
    (inside : offset + DirectoryRecord.fixedSize + (DirectoryRecord.decode d offset).name.length ≤
      limit) :
    DirectoryRecord.decode d' (offset + shift) = DirectoryRecord.decode d offset := by
  rw [DirectoryRecord.fixedSize, DirectoryRecord.decode, length_textAt] at inside
  simp only [DirectoryRecord.decode, Nat.add_right_comm offset shift]
  rw [h.number16 (by omega), h.number16 (by omega), h.number16 (by omega), h.number16 (by omega),
    h.number16 (by omega), h.number16 (by omega), h.number16 (by omega), h.number16 (by omega),
    h.number16 (by omega), h.number16 (by omega), h.number16 (by omega), h.number32 (by omega),
    h.number32 (by omega), h.number32 (by omega), h.number32 (by omega), h.number32 (by omega),
    h.number32 (by omega), h.textAt (by omega)]

end Decode

end Carries

end ClassAbi
