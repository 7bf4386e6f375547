/-!
# CRC-32

The checksum of zip archives: the remainder of the bits of the data by the
reversed polynomial `0xEDB88320`, with all bits flipped before and after.
`crc32Bit` takes one bit, `crc32Table` holds eight such steps for every byte, and
`crc32` goes through the data byte by byte.
-/

namespace ClassAbi

/-- One step of the division, for a remainder whose lowest bit is next. -/
def crc32Bit (r : UInt32) : UInt32 :=
  if r &&& 1 == 1 then (r >>> 1) ^^^ 0xEDB88320 else r >>> 1

/-- Eight steps of the division. -/
def crc32Bits (r : UInt32) : UInt32 :=
  crc32Bit (crc32Bit (crc32Bit (crc32Bit (crc32Bit (crc32Bit (crc32Bit (crc32Bit r)))))))

/-- Eight steps for every byte. -/
def crc32Table : Array UInt32 := (Array.range 256).map fun i => crc32Bits i.toUInt32

theorem size_crc32Table : crc32Table.size = 256 := by simp [crc32Table]

/-- Takes one byte into a remainder. -/
def crc32Step (r : UInt32) (b : UInt8) : UInt32 :=
  have h : ((r ^^^ b.toUInt32) &&& 0xFF).toNat < crc32Table.size := by
    rw [size_crc32Table, UInt32.toNat_and]
    exact Nat.lt_of_le_of_lt Nat.and_le_right (by decide)
  crc32Table[((r ^^^ b.toUInt32) &&& 0xFF).toNat] ^^^ (r >>> 8)

/-- The checksum of data. -/
def crc32 (d : ByteArray) : UInt32 := d.foldl crc32Step 0xFFFFFFFF ^^^ 0xFFFFFFFF

end ClassAbi
