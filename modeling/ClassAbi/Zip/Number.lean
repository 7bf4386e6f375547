import ClassAbi.Text

/-!
# Numbers in zip records

Zip records store numbers with the least significant byte first.  Reading beyond
the end of the data finds zeros.
-/

namespace ClassAbi.Zip

/-! ## Writing -/

/-- The two bytes of a 16-bit number, least significant first. -/
def bytes16 (v : UInt16) : Text := [v.toUInt8, (v >>> 8).toUInt8]

/-- The four bytes of a 32-bit number, least significant first. -/
def bytes32 (v : UInt32) : Text := bytes16 v.toUInt16 ++ bytes16 (v >>> 16).toUInt16

/-! ## Reading -/

/-- The byte at an offset, or zero behind the data. -/
def byteAt (d : ByteArray) (offset : Nat) : UInt8 := (d[offset]?).getD 0

/-- The 16-bit number at an offset. -/
def number16 (d : ByteArray) (offset : Nat) : UInt16 :=
  (byteAt d offset).toUInt16 ||| (byteAt d (offset + 1)).toUInt16 <<< 8

/-- The 32-bit number at an offset. -/
def number32 (d : ByteArray) (offset : Nat) : UInt32 :=
  (number16 d offset).toUInt32 ||| (number16 d (offset + 2)).toUInt32 <<< 16

/-- The text of `length` bytes at an offset. -/
def textAt (d : ByteArray) (offset length : Nat) : Text :=
  let found := (d.extract offset (offset + length)).data.toList
  found ++ List.replicate (length - found.length) 0

/-- The value that a 32-bit number has when the true number is in another record,
for archives beyond 4 GiB. -/
def elsewhere : UInt32 := 0xFFFFFFFF

end ClassAbi.Zip
