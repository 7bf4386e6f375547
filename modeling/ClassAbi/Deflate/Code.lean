import ClassAbi.Deflate.Bits

/-!
# Canonical codes

A deflate stream gives a code by the lengths of its words alone.  Words of one
length are consecutive numbers in the order of their symbols, and shorter words come
first.

Not every list of lengths gives a code.  Too many short words are a contradiction,
and then `Code.free` is nothing.  Too few leave some bits without meaning, which is
allowed only for a code of one word with one bit, and for a code without words.
-/

namespace ClassAbi.Deflate

/-- The longest word of a code. -/
def maxWordLength : Nat := 15

/-- A code. -/
structure Code where
  /-- How many words have one bit, two bits and so on, up to the longest word. -/
  counts : List Nat
  /-- The symbols by word, shorter words first. -/
  symbols : Array Nat
deriving Repr, Inhabited

/-- What the next word of a stream is. -/
inductive Word where
  /-- A word, and the place behind it. -/
  | symbol (value place : Nat)
  /-- The stream ends within the word. -/
  | ended
  /-- No word of the code begins so. -/
  | invalid
deriving DecidableEq, Repr, Inhabited

namespace Code

/-- How many of the lengths are `length`. -/
def countOf (lengths : List Nat) (length : Nat) : Nat := lengths.countP (· == length)

/-- The length of the longest word, or 0 without words. -/
def longest (lengths : List Nat) : Nat := lengths.foldl max 0

/-- The code with words of these lengths.  Symbol `i` has the length at place `i`,
and no word where that is 0. -/
def ofLengths (lengths : List Nat) : Code where
  counts := (List.range (max 1 (longest lengths))).map fun i => countOf lengths (i + 1)
  symbols := ((List.range (longest lengths)).flatMap fun i =>
    (lengths.zipIdx.filter fun (length, _) => length == i + 1).map (·.2)).toArray

/-- How many words of the longest possible length are still free behind words of
the given counts, of which there are `free` at first.  Nothing if there are not
even enough for these. -/
def freeWords : List Nat → (free : Nat) → Option Nat
  | [], free => some free
  | count :: counts, free =>
    if count ≤ free * 2 then freeWords counts (free * 2 - count) else none

/-- The free words of a code with words of these lengths. -/
def free (lengths : List Nat) : Option Nat :=
  freeWords ((List.range maxWordLength).map fun i => countOf lengths (i + 1)) 1

/-- Whether the lengths leave no bits without meaning, or there are no words. -/
def isComplete (lengths : List Nat) : Bool :=
  longest lengths == 0 || free lengths == some 0

/-- Whether the lengths give a code that may be used for data: one that is
complete or has no word of more than one bit. -/
def isUsable (lengths : List Nat) : Bool :=
  isComplete lengths || (longest lengths == 1 && (free lengths).isSome)

/-- Compares the word read so far, which is the number `word`, with the words of
each length.  The first word of the length has the number `first`, and `before`
symbols have shorter words. -/
def decodeFrom (symbols : Array Nat) (d : ByteArray) :
    (counts : List Nat) → (word first before place : Nat) → Word
  | [], _, _, _, _ => .invalid
  | count :: counts, word, first, before, place =>
    match bitAt d place with
    | none => .ended
    | some b =>
      let word := if b then word + 1 else word
      if word < first + count then
        .symbol (symbols.getD (before + (word - first)) 0) (place + 1)
      else decodeFrom symbols d counts (word * 2) ((first + count) * 2) (before + count) (place + 1)

/-- The word at a place. -/
def decode (c : Code) (d : ByteArray) (place : Nat) : Word :=
  decodeFrom c.symbols d c.counts 0 0 0 place

/-- The code in which either bit stands for the symbol 0. -/
def constant : Code := ⟨[2], #[0, 0]⟩

end Code

end ClassAbi.Deflate
