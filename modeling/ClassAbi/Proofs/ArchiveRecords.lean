import ClassAbi.Proofs.ArchiveLayout
import ClassAbi.Proofs.Positions

/-!
# Records are read as they were written

Where the bytes of a number stand, the number is read, and so is a text.  A
record whose bytes stand at an offset is therefore decoded as the record, as long
as its name is short enough for the record to say how long it is.
-/

namespace ClassAbi

namespace Zip

variable {d : ByteArray} {offset : Nat}

/-! ## Numbers -/

theorem byteAt_of_holdsAt {x : UInt8} (h : HoldsAt d offset [x]) : byteAt d offset = x := by
  obtain ⟨lt, rfl⟩ := HoldsAt.singleton_iff.mp h
  rw [byteAt, getElem?_pos d offset lt]
  rfl

theorem number16_of_holdsAt {v : UInt16} (h : HoldsAt d offset (bytes16 v)) :
    number16 d offset = v := by
  obtain ⟨low, high⟩ := HoldsAt.cons_iff.mp h
  rw [number16, byteAt_of_holdsAt low, byteAt_of_holdsAt high, UInt16.or_comm, ← UInt16.toNat_inj,
    toNat_joinU2]
  have lt := v.toNat_lt
  simp [Nat.shiftRight_eq_div_pow]
  omega

theorem number32_of_holdsAt {v : UInt32} (h : HoldsAt d offset (bytes32 v)) :
    number32 d offset = v := by
  have high : number16 d (offset + 2) = (v >>> 16).toUInt16 := number16_of_holdsAt h.right
  rw [number32, number16_of_holdsAt h.left, high, UInt32.or_comm]
  exact joinU2_halves v

theorem toNat_number16 (d : ByteArray) (offset : Nat) : (number16 d offset).toNat =
    (byteAt d offset).toNat + (byteAt d (offset + 1)).toNat * 256 := by
  rw [number16, UInt16.or_comm, toNat_joinU2, Nat.add_comm]

theorem toNat_number32 (d : ByteArray) (offset : Nat) : (number32 d offset).toNat =
    (number16 d offset).toNat + (number16 d (offset + 2)).toNat * 65536 := by
  rw [number32, UInt32.or_comm, toNat_joinHalves, Nat.add_comm]

theorem length_textAt (d : ByteArray) (offset length : Nat) :
    (textAt d offset length).length = length := by
  rw [textAt, List.length_append, List.length_replicate, Array.length_toList, ← ByteArray.size,
    ByteArray.size_extract]
  omega

/-- The part of a file in which some bytes stand is these bytes. -/
theorem extract_of_holdsAt {bytes : ByteArray} (h : HoldsAt d offset bytes.data.toList) :
    d.extract offset (offset + bytes.size) = bytes := by
  have le : offset + bytes.size ≤ d.size := h.le
  have length : (d.extract offset (offset + bytes.size)).size = bytes.size := by
    rw [ByteArray.size_extract]
    omega
  exact ByteArray.ext (Array.toList_inj.mp ((HoldsAt.extract d le).unique h length))

theorem textAt_of_holdsAt {t : Text} (h : HoldsAt d offset t) : textAt d offset t.length = t := by
  have found : d.extract offset (offset + t.length) = t.toByteArray := by
    rw [← List.size_toByteArray]
    exact extract_of_holdsAt (by rwa [List.toList_data_toByteArray])
  rw [textAt, found, List.toList_data_toByteArray, Nat.sub_self]
  exact List.append_nil t

/-! ## Records -/

theorem LocalHeader.decode_of_holdsAt {h : LocalHeader} (short : h.name.length ≤ 0xFFFF)
    (held : HoldsAt d offset h.encode) : decode d offset = h := by
  simp only [encode, HoldsAt.append_iff, List.length_append, length_bytes16, length_bytes32,
    Nat.reduceAdd] at held
  obtain ⟨⟨⟨⟨⟨⟨⟨⟨⟨⟨⟨signature, version⟩, flags⟩, method⟩, time⟩, date⟩, crc⟩, compressed⟩, size⟩,
    nameLength⟩, extra⟩, name⟩ := held
  have length := number16_of_holdsAt nameLength
  have text := textAt_of_holdsAt name
  rw [← toNat_toUInt16 short, ← length] at text
  simp only [decode, number32_of_holdsAt signature, number16_of_holdsAt version,
    number16_of_holdsAt flags, number16_of_holdsAt method, number16_of_holdsAt time,
    number16_of_holdsAt date, number32_of_holdsAt crc, number32_of_holdsAt compressed,
    number32_of_holdsAt size, number16_of_holdsAt extra, text]

theorem DirectoryRecord.decode_of_holdsAt {r : DirectoryRecord} (short : r.name.length ≤ 0xFFFF)
    (held : HoldsAt d offset r.encode) : decode d offset = r := by
  delta encode at held
  simp only [HoldsAt.append_iff, List.length_append, length_bytes16, length_bytes32,
    Nat.reduceAdd] at held
  obtain ⟨⟨⟨⟨⟨⟨⟨⟨⟨⟨⟨⟨⟨⟨⟨⟨⟨signature, version⟩, extract⟩, flags⟩, method⟩, time⟩, date⟩, crc⟩,
    compressed⟩, size⟩, nameLength⟩, extra⟩, comment⟩, disk⟩, internal⟩, external⟩, place⟩, name⟩ :=
    held
  have length := number16_of_holdsAt nameLength
  have text := textAt_of_holdsAt name
  rw [← toNat_toUInt16 short, ← length] at text
  simp only [decode, number32_of_holdsAt signature, number16_of_holdsAt version,
    number16_of_holdsAt extract, number16_of_holdsAt flags, number16_of_holdsAt method,
    number16_of_holdsAt time, number16_of_holdsAt date, number32_of_holdsAt crc,
    number32_of_holdsAt compressed, number32_of_holdsAt size, number16_of_holdsAt extra,
    number16_of_holdsAt comment, number16_of_holdsAt disk, number16_of_holdsAt internal,
    number32_of_holdsAt external, number32_of_holdsAt place, text]

theorem EndRecord.decode_of_holdsAt {e : EndRecord} (held : HoldsAt d offset e.encode) :
    decode d offset = e := by
  simp only [encode, HoldsAt.append_iff, List.length_append, length_bytes16, length_bytes32,
    Nat.reduceAdd] at held
  obtain ⟨⟨⟨⟨⟨⟨⟨signature, disk⟩, directoryDisk⟩, diskEntries⟩, entries⟩, size⟩, place⟩, comment⟩ :=
    held
  simp only [decode, number32_of_holdsAt signature, number16_of_holdsAt disk,
    number16_of_holdsAt directoryDisk, number16_of_holdsAt diskEntries,
    number16_of_holdsAt entries, number32_of_holdsAt size, number32_of_holdsAt place,
    number16_of_holdsAt comment]

end Zip

end ClassAbi
