import ClassAbi.Proofs.CanonicalCodes
import ClassAbi.Proofs.ReadBits

/-!
# What a deflate stream is

A stream is a sequence of bits that stands for data.  Here it is given by what its parts stand for,
from the last to the first, and not by a decoder: `IsStream most bits data` says that the bits are a
whole stream, from the header of its first block to the end of its last one.

A block may bring its own codes, given by the lengths of their words.  The format has room for up
to 32 lengths of words for distances, although only 30 distances have a meaning.  How many a block
may bring is the parameter `most`.
-/

namespace ClassAbi.Deflate

/-! ## Parts of a block -/

/-- The symbol names a range with the value, and the bits choose it. -/
def Chooses (ranges : Array Range) (symbol value : Nat) (bits : List Bool) : Prop :=
  ∃ range extra, ranges[symbol]? = some range ∧ extra < 2 ^ range.extra ∧
    value = range.base + extra ∧ bits = lowBits range.extra extra

/-- The longer output goes on by repeating itself: each of its further bytes is the one that stands
`distance` bytes in front of it. -/
structure IsCopy (out : ByteArray) (length distance : Nat) (longer : ByteArray) : Prop where
  reach : distance ≤ out.size
  size : longer.size = out.size + length
  front : ∀ i < out.size, longer[i]? = out[i]?
  back : ∀ i, out.size ≤ i → i < longer.size → longer[i]? = longer[i - distance]?

/-- Behind `out`, the bits of literals and copies up to the end of their block make the output
`whole`.  The codes are given by the lengths of their words. -/
inductive CodedParts (literals distances : List Nat) :
    (out : ByteArray) → List Bool → (whole : ByteArray) → Prop where
  /-- The end of the block. -/
  | done {out word} (ends : IsWord literals endOfBlock word) :
    CodedParts literals distances out word out
  /-- A byte. -/
  | literal {out value word bits whole} (here : IsWord literals (UInt8.toNat value) word)
    (rest : CodedParts literals distances (out.push value) bits whole) :
    CodedParts literals distances out (word ++ bits) whole
  /-- A length and a distance. -/
  | copy {out symbol word length extra symbol' word' distance extra' longer bits whole}
    (long : IsWord literals (257 + symbol) word)
    (chosen : Chooses lengthRanges symbol length extra)
    (far : IsWord distances symbol' word')
    (chosen' : Chooses distanceRanges symbol' distance extra')
    (copied : IsCopy out length distance longer)
    (rest : CodedParts literals distances longer bits whole) :
    CodedParts literals distances out (word ++ (extra ++ (word' ++ (extra' ++ bits)))) whole

/-! ## Codes of a block -/

/-- Behind the lengths that are known, the symbol stands for one length so many times, which the
bits choose. -/
inductive Repeats (known : List Nat) :
    (symbol length times : Nat) → List Bool → Prop where
  /-- The last length again. -/
  | last {length more} (found : known.getLast? = some length) (short : more < 2 ^ 2) :
    Repeats known 16 length (3 + more) (lowBits 2 more)
  /-- No words. -/
  | zeros {more} (short : more < 2 ^ 3) : Repeats known 17 0 (3 + more) (lowBits 3 more)
  /-- No words, more often. -/
  | manyZeros {more} (short : more < 2 ^ 7) : Repeats known 18 0 (11 + more) (lowBits 7 more)

/-- Behind the lengths that are known, the bits make all lengths.  Their code is given by the
lengths of its words. -/
inductive CodedLengths (words : List Nat) :
    (known : List Nat) → List Bool → (lengths : List Nat) → Prop where
  /-- All are known. -/
  | done {known} : CodedLengths words known [] known
  /-- A length. -/
  | length {known length word bits lengths} (short : length < 16) (here : IsWord words length word)
    (rest : CodedLengths words (known ++ [length]) bits lengths) :
    CodedLengths words known (word ++ bits) lengths
  /-- A length that is repeated. -/
  | repeated {known symbol length times word extra bits lengths} (here : IsWord words symbol word)
    (repeats : Repeats known symbol length times extra)
    (rest : CodedLengths words (known ++ List.replicate times length) bits lengths) :
    CodedLengths words known (word ++ (extra ++ bits)) lengths

/-- The lengths of the words for lengths, by symbol.  They come in an order of their own, and those
that do not come are 0. -/
def lengthWords (values : List Nat) : List Nat :=
  (List.range 19).map fun symbol => values.getD (codeLengthOrder.idxOf symbol) 0

/-- The bits bring codes for literals and for distances. -/
inductive OwnCodes (most : Nat) : (literals distances : List Nat) → List Bool → Prop where
  | intro {literals distances values bits}
    (literalCount : 257 ≤ literals.length ∧ literals.length ≤ 286)
    (distanceCount : 1 ≤ distances.length ∧ distances.length ≤ most)
    (valueCount : 4 ≤ values.length ∧ values.length ≤ 19)
    (small : ∀ value ∈ values, value < 2 ^ 3) (complete : IsComplete (lengthWords values))
    (lengths : CodedLengths (lengthWords values) [] bits (literals ++ distances))
    (usable : IsUsable literals) (usable' : IsUsable distances) :
    OwnCodes most literals distances
      (lowBits 5 (literals.length - 257) ++ (lowBits 5 (distances.length - 1) ++
        (lowBits 4 (values.length - 4) ++ (values.flatMap (lowBits 3) ++ bits))))

/-! ## Blocks -/

/-- Behind `out`, the bits of a block from its kind on make the output `whole`.  There are `place`
bits in front of them, from which follows how many bits fill the last byte in front of a stored
block. -/
inductive CodedBlock (most place : Nat) (out : ByteArray) :
    List Bool → (whole : ByteArray) → Prop where
  /-- Bytes as they are. -/
  | stored {fill data} (short : fill.length < 8) (filled : (place + 2 + fill.length) % 8 = 0)
    (length : ByteArray.size data < 2 ^ 16) :
    CodedBlock most place out
      (lowBits 2 0 ++ (fill ++ (lowBits 16 data.size ++
        (lowBits 16 (0xFFFF - data.size) ++ bitsOf data))))
      (out ++ data)
  /-- Parts in the fixed codes. -/
  | fixed {bits whole}
    (parts : CodedParts fixedLiteralLengths fixedDistanceLengths out bits whole) :
    CodedBlock most place out (lowBits 2 1 ++ bits) whole
  /-- Parts in codes of their own. -/
  | own {literals distances header bits whole} (codes : OwnCodes most literals distances header)
    (parts : CodedParts literals distances out bits whole) :
    CodedBlock most place out (lowBits 2 2 ++ (header ++ bits)) whole

/-- Behind `out`, the bits of blocks up to the last make the output `whole`. -/
inductive CodedBlocks (most : Nat) :
    (place : Nat) → (out : ByteArray) → List Bool → (whole : ByteArray) → Prop where
  /-- The last block. -/
  | last {place out bits whole} (block : CodedBlock most (place + 1) out bits whole) :
    CodedBlocks most place out (true :: bits) whole
  /-- A block that is not the last one. -/
  | more {place out bits between rest whole} (block : CodedBlock most (place + 1) out bits between)
    (blocks : CodedBlocks most (place + 1 + bits.length) between rest whole) :
    CodedBlocks most place out (false :: (bits ++ rest)) whole

/-- The bits are a stream that stands for the data. -/
def IsStream (most : Nat) (bits : List Bool) (data : ByteArray) : Prop :=
  CodedBlocks most 0 .empty bits data

end ClassAbi.Deflate
