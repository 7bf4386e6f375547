/-!
# Bits of a byte string

A deflate stream is a sequence of bits, the lowest bit of every byte first.  A place
in it is the number of bits before it.  Numbers stand with their lowest bit first.

`packBits` fills bytes with bits in the same order, and the last byte with zeros.
-/

namespace ClassAbi.Deflate

/-! ## Reading -/

/-- The bit at a place, or nothing behind the last byte. -/
def bitAt (d : ByteArray) (place : Nat) : Option Bool :=
  if h : place / 8 < d.size then
    some ((d[place / 8] >>> (place % 8).toUInt8) &&& 1 == 1)
  else none

/-- The number in the next `count` bits, times `weight`, on top of `value`. -/
def takeBitsFrom (d : ByteArray) : (count place weight value : Nat) → Option (Nat × Nat)
  | 0, place, _, value => some (value, place)
  | count + 1, place, weight, value =>
    match bitAt d place with
    | none => none
    | some b =>
      takeBitsFrom d count (place + 1) (weight * 2) (if b then value + weight else value)

/-- The number in the next `count` bits and the place behind them. -/
def takeBits (d : ByteArray) (count place : Nat) : Option (Nat × Nat) :=
  takeBitsFrom d count place 1 0

/-! ## Writing -/

/-- Fills bytes.  `weight` is that of the next bit in the byte begun, which so far
has the value `byte`. -/
def packBitsFrom : List Bool → (weight byte : UInt8) → ByteArray → ByteArray
  | [], weight, byte, out => if weight == 1 then out else out.push byte
  | b :: bits, weight, byte, out =>
    let byte := if b then byte ||| weight else byte
    if weight == 128 then packBitsFrom bits 1 0 (out.push byte)
    else packBitsFrom bits (weight <<< 1) byte out

/-- The bytes that hold the bits. -/
def packBits (bits : List Bool) : ByteArray := packBitsFrom bits 1 0 ByteArray.empty

/-- The `count` lowest bits of a number, the lowest first. -/
def lowBits (count value : Nat) : List Bool :=
  (List.range count).map value.testBit

/-- The `count` lowest bits of a number, the lowest last.  Codes are written so. -/
def codeBits (count value : Nat) : List Bool := (lowBits count value).reverse

end ClassAbi.Deflate
