import ClassAbi.Deflate.Code
import ClassAbi.Deflate.Symbol
import ClassAbi.Text

/-!
# Decoding deflate streams

`inflate` decodes a raw deflate stream whose decoded size is known beforehand.  It
either yields exactly that many bytes or says what is wrong, and of two faults it
reports the one that decoding meets first.  What follows the stream is not looked
at.

A stream that ends too early and one that has more output than expected both
stall, and only then nothing more definite can be said.  A copy that meets a full
output stalls before its distance is compared with the output so far, but after
its codes are read.
-/

namespace ClassAbi.Deflate

/-- What can be wrong with a deflate stream. -/
inductive InflateError where
  /-- The stream ends early, or the output is full. -/
  | stalled
  /-- The stream ends with fewer bytes than expected. -/
  | sizeMismatch
  /-- A block has the one kind that does not exist. -/
  | blockType
  /-- The two copies of a stored block's length differ. -/
  | storedLengths
  /-- A block has codes for more symbols than there are. -/
  | tooManySymbols
  /-- The code for word lengths is no complete code. -/
  | codeLengthsSet
  /-- A word length is repeated before the first or beyond the last. -/
  | lengthRepeat
  /-- A block has no word for its end. -/
  | missingEndOfBlock
  /-- The code for literals and lengths is no code. -/
  | literalSet
  /-- The code for distances is no code. -/
  | distanceSet
  /-- No literal or length has such a word. -/
  | literalCode
  /-- No distance has such a word. -/
  | distanceCode
  /-- A copy begins before the output. -/
  | distanceTooFar
deriving DecidableEq, Repr

/-- The wording of a fault. -/
def InflateError.message : InflateError → Text
  | stalled => Text.ascii "unknown error"
  | sizeMismatch => Text.ascii "size mismatch"
  | blockType => Text.ascii "invalid block type"
  | storedLengths => Text.ascii "invalid stored block lengths"
  | tooManySymbols => Text.ascii "too many length or distance symbols"
  | codeLengthsSet => Text.ascii "invalid code lengths set"
  | lengthRepeat => Text.ascii "invalid bit length repeat"
  | missingEndOfBlock => Text.ascii "invalid code -- missing end-of-block"
  | literalSet => Text.ascii "invalid literal/lengths set"
  | distanceSet => Text.ascii "invalid distances set"
  | literalCode => Text.ascii "invalid literal/length code"
  | distanceCode => Text.ascii "invalid distance code"
  | distanceTooFar => Text.ascii "invalid distance too far back"

/-! ## Reading numbers and ranges -/

/-- The number in the next bits, where the stream has them. -/
def needBits (d : ByteArray) (count place : Nat) : Except InflateError (Nat × Nat) :=
  match takeBits d count place with
  | some r => .ok r
  | none => .error .stalled

/-- The next word of a code, where `fault` is what an unknown word means. -/
def needWord (c : Code) (d : ByteArray) (fault : InflateError) (place : Nat) :
    Except InflateError (Nat × Nat) :=
  match c.decode d place with
  | .symbol value place => .ok (value, place)
  | .ended => .error .stalled
  | .invalid => .error fault

/-- A value of the range that a symbol names, where `fault` is what a symbol
without a range means. -/
def needRange (ranges : Array Range) (symbol : Nat) (d : ByteArray) (fault : InflateError)
    (place : Nat) : Except InflateError (Nat × Nat) :=
  match ranges[symbol]? with
  | none => .error fault
  | some range => do
    let (extra, place) ← needBits d range.extra place
    return (range.base + extra, place)

/-! ## Blocks -/

/-- Repeats `count` bytes of the output, the first of them `distance` before its
end.  The copy may overlap what it writes. -/
def copyBack (distance : Nat) : (count : Nat) → ByteArray → ByteArray
  | 0, out => out
  | count + 1, out =>
    if h : out.size - distance < out.size then
      copyBack distance count (out.push out[out.size - distance])
    else out

/-- The literals and copies of a block up to its end.  Each takes at least one bit
of the stream, and `bits` is more than the number of bits left. -/
def inflateSymbols (literals distances : Code) (d : ByteArray) (size : Nat) :
    (bits place : Nat) → ByteArray → Except InflateError (Nat × ByteArray)
  | 0, _, _ => .error .stalled
  | bits + 1, place, out => do
    let (symbol, place) ← needWord literals d .literalCode place
    if symbol < endOfBlock then
      if out.size < size then
        inflateSymbols literals distances d size bits place (out.push symbol.toUInt8)
      else .error .stalled
    else if symbol == endOfBlock then .ok (place, out)
    else
      let (length, place) ← needRange lengthRanges (symbol - 257) d .literalCode place
      let (symbol, place) ← needWord distances d .distanceCode place
      let (distance, place) ← needRange distanceRanges symbol d .distanceCode place
      if size ≤ out.size then .error .stalled
      else if out.size < distance then .error .distanceTooFar
      else if size - out.size < length then .error .stalled
      else inflateSymbols literals distances d size bits place (copyBack distance length out)

/-- A stored block: its length twice, once with all bits flipped, and the bytes. -/
def inflateStored (d : ByteArray) (size place : Nat) (out : ByteArray) :
    Except InflateError (Nat × ByteArray) := do
  let (lengths, place) ← needBits d 32 ((place + 7) / 8 * 8)
  let length := lengths % 0x10000
  if length + lengths / 0x10000 != 0xFFFF then .error .storedLengths
  else
    let start := place / 8
    if d.size < start + length ∨ size < out.size + length then .error .stalled
    else .ok ((start + length) * 8, out ++ d.extract start (start + length))

/-- The lengths of the words for word lengths, in their own order. -/
def readLengthWords (d : ByteArray) :
    (order : List Nat) → (count place : Nat) → Array Nat →
      Except InflateError (Array Nat × Nat)
  | [], _, place, lengths => .ok (lengths, place)
  | _, 0, place, lengths => .ok (lengths, place)
  | symbol :: order, count + 1, place, lengths => do
    let (length, place) ← needBits d 3 place
    readLengthWords d order count place (lengths.setIfInBounds symbol length)

/-- Word lengths, `total` of them, of which `lengths` are known.  Three symbols
repeat a length. -/
def readLengths (c : Code) (d : ByteArray) (total : Nat) :
    (bits place : Nat) → Array Nat → Except InflateError (Array Nat × Nat)
  | 0, _, _ => .error .stalled
  | bits + 1, place, lengths => do
    if total ≤ lengths.size then .ok (lengths, place)
    else
      let (symbol, place) ← needWord c d .codeLengthsSet place
      if symbol < 16 then readLengths c d total bits place (lengths.push symbol)
      else
        let extra := if symbol == 16 then 2 else if symbol == 17 then 3 else 7
        let base := if symbol == 18 then 11 else 3
        let (more, place) ← needBits d extra place
        match (if symbol == 16 then lengths.back? else some 0) with
        | none => .error .lengthRepeat
        | some length =>
          if total < lengths.size + base + more then .error .lengthRepeat
          else
            let lengths := lengths ++ Array.replicate (base + more) length
            readLengths c d total bits place lengths

/-- The codes of a block that brings its own. -/
def readCodes (d : ByteArray) (place : Nat) : Except InflateError (Code × Code × Nat) := do
  let (numbers, place) ← needBits d 14 place
  let literalCount := numbers % 32 + 257
  let distanceCount := numbers / 32 % 32 + 1
  let lengthCount := numbers / 1024 + 4
  if 286 < literalCount ∨ 30 < distanceCount then .error .tooManySymbols
  else
    let (words, place) ←
      readLengthWords d codeLengthOrder lengthCount place (Array.replicate 19 0)
    let words := words.toList
    if !Code.isComplete words then .error .codeLengthsSet
    else
      let code := if Code.longest words == 0 then Code.constant else Code.ofLengths words
      let (lengths, place) ←
        readLengths code d (literalCount + distanceCount) (d.size * 8 + 1) place #[]
      let literals := lengths.toList.take literalCount
      let distances := lengths.toList.drop literalCount
      if literals.getD endOfBlock 0 == 0 then .error .missingEndOfBlock
      else if !Code.isUsable literals then .error .literalSet
      else if !Code.isUsable distances then .error .distanceSet
      else .ok (Code.ofLengths literals, Code.ofLengths distances, place)

/-- The fixed code for literals and lengths. -/
def fixedLiterals : Code := Code.ofLengths fixedLiteralLengths

/-- The fixed code for distances. -/
def fixedDistances : Code := Code.ofLengths fixedDistanceLengths

/-- The blocks of a stream up to the last.  Each takes at least one bit of the
stream, and `bits` is more than the number of bits left. -/
def inflateBlocks (d : ByteArray) (size : Nat) :
    (bits place : Nat) → ByteArray → Except InflateError ByteArray
  | 0, _, _ => .error .stalled
  | bits + 1, place, out => do
    let (header, place) ← needBits d 3 place
    let (place, out) ←
      if header / 2 == 0 then inflateStored d size place out
      else if header / 2 == 1 then
        inflateSymbols fixedLiterals fixedDistances d size (d.size * 8 + 1) place out
      else if header / 2 == 2 then do
        let (literals, distances, place) ← readCodes d place
        inflateSymbols literals distances d size (d.size * 8 + 1) place out
      else .error .blockType
    if header % 2 == 1 then .ok out else inflateBlocks d size bits place out

/-- Decodes a stream into exactly `size` bytes.  There is always something to
decode, so an expected size of 0 stalls at once. -/
def inflate (d : ByteArray) (size : Nat) : Except InflateError ByteArray :=
  if size == 0 then .error .stalled
  else do
    let out ← inflateBlocks d size (d.size * 8 + 1) 0 ByteArray.empty
    if out.size == size then .ok out else .error .sizeMismatch

end ClassAbi.Deflate
