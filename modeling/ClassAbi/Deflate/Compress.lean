import ClassAbi.Deflate.Bits
import ClassAbi.Deflate.Symbol

/-!
# Encoding deflate streams

`deflate` encodes data as one block with the fixed codes.  It goes through the
data once.  Where the next three bytes were seen before, and not too far back, it
copies as many bytes as agree, and otherwise it writes a literal.

How a copy is found does not matter for what it means.  `matchLength` compares the
bytes before a copy is written, so a copy is always of equal bytes.
-/

namespace ClassAbi.Deflate

/-- A part of the data. -/
inductive Token where
  /-- A byte. -/
  | literal (value : UInt8)
  /-- A copy of `length` bytes that begin `distance` bytes back. -/
  | copy (length distance : Nat)
deriving DecidableEq, Repr, Inhabited

/-! ## Finding copies -/

/-- The greatest distance of a copy. -/
def maxDistance : Nat := 32768

/-- The greatest length of a copy. -/
def maxLength : Nat := 258

/-- How many of the bytes from `i` and from `j` on agree, at most `limit`. -/
def matchLength (d : ByteArray) (i j : Nat) : (limit : Nat) → Nat
  | 0 => 0
  | limit + 1 =>
    match d[i]?, d[j]? with
    | some a, some b => if a == b then matchLength d (i + 1) (j + 1) limit + 1 else 0
    | _, _ => 0

/-- The number of places that the three next bytes can have in the table. -/
def tableSize : Nat := 8192

/-- The place of the three bytes from `i` on in the table. -/
def tablePlace (d : ByteArray) (i : Nat) : Nat :=
  let byte (k : Nat) : Nat := (d[i + k]?.getD 0).toNat
  (byte 0 * 961 + byte 1 * 31 + byte 2) % tableSize

/-- The length of a copy at `i`, where the table has `seen` for the next bytes.
There is none if they were not seen or too far back. -/
def copyLength (d : ByteArray) (i seen : Nat) : Nat :=
  if seen == 0 || i - (seen - 1) > maxDistance then 0 else matchLength d i (seen - 1) maxLength

/-- The parts of the data from `i` on.  `table` has for every place one more than
where such bytes were last seen.  Each part takes a byte, and `left` is the number
of bytes left. -/
def tokensFrom (d : ByteArray) :
    (left i : Nat) → (table : Array Nat) → Array Token → Array Token
  | 0, _, _, tokens => tokens
  | left + 1, i, table, tokens =>
    let place := tablePlace d i
    let seen := table.getD place 0
    let table := table.setIfInBounds place (i + 1)
    match copyLength d i seen with
    | rest + 3 =>
      tokensFrom d (left - (rest + 2)) (i + (rest + 3)) table
        (tokens.push (.copy (rest + 3) (i - (seen - 1))))
    | _ => tokensFrom d left (i + 1) table (tokens.push (.literal (d[i]?.getD 0)))
termination_by left => left

/-- The parts of the data. -/
def tokens (d : ByteArray) : Array Token :=
  tokensFrom d d.size 0 (Array.replicate tableSize 0) #[]

/-! ## Writing -/

/-- The word of a symbol in the fixed code for literals and lengths. -/
def fixedWord (symbol : Nat) : List Bool :=
  if symbol < 144 then codeBits 8 (48 + symbol)
  else if symbol < 256 then codeBits 9 (400 + (symbol - 144))
  else if symbol < 280 then codeBits 7 (symbol - 256)
  else codeBits 8 (192 + (symbol - 280))

/-- The last range that begins at or below a value, by its number. -/
def rangeOf (ranges : Array Range) (value : Nat) : Nat :=
  ranges.size - 1 - (ranges.toList.reverse.findIdx fun r => r.base ≤ value)

/-- The extra bits of a value in a range. -/
def extraBits (ranges : Array Range) (i value : Nat) : List Bool :=
  let r := ranges.getD i default
  lowBits r.extra (value - r.base)

/-- The bits of a part. -/
def Token.bits : Token → List Bool
  | literal value => fixedWord value.toNat
  | copy length distance =>
    let i := rangeOf lengthRanges length
    let j := rangeOf distanceRanges distance
    fixedWord (257 + i) ++ extraBits lengthRanges i length ++ codeBits 5 j ++
      extraBits distanceRanges j distance

/-- The bits of a stream of one last block with the fixed codes. -/
def streamBits (tokens : List Token) : List Bool :=
  [true, true, false] ++ tokens.flatMap Token.bits ++ fixedWord endOfBlock

/-- A deflate stream of the data. -/
def deflate (d : ByteArray) : ByteArray := packBits (streamBits (tokens d).toList)

end ClassAbi.Deflate
