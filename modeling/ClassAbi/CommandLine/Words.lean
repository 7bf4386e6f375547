import ClassAbi.Text

/-!
# Words of a command file

A command file holds words of a command line, separated by white space.  Words are
quoted as in a shell.

* Between single quotes every byte stands for itself.
* Between double quotes a backslash takes away the meaning of a double quote behind
  it.  In front of anything else it stands for itself.
* Outside quotes a backslash takes away the meaning of whatever follows.

A backslash right in front of a line end is removed with the line end, before
anything else is looked at, inside quotes too.

`joinLines` removes such line ends.  `Splitter` then reads byte by byte, so what it
does with a text depends only on where the text before it has left it.
-/

namespace ClassAbi

/-- The byte that ends a line. -/
def lineEnd : UInt8 := 10

/-- The backslash. -/
def backslash : UInt8 := 92

/-! ## Joined lines -/

/-- The text without line ends behind a backslash, and without these backslashes.
`joined` is what comes before it, last byte first. -/
def joinLinesOnto (joined : Text) : Text → Text
  | 92 :: 10 :: rest => joinLinesOnto joined rest
  | c :: rest => joinLinesOnto (c :: joined) rest
  | [] => joined.reverse

/-- A text without line ends behind a backslash, and without these backslashes. -/
def joinLines (contents : Text) : Text := joinLinesOnto [] contents

/-! ## Quotes -/

/-- A quotation mark. -/
inductive Quote where
  /-- The mark `'`. -/
  | single
  /-- The mark `"`. -/
  | double
deriving DecidableEq, Repr

/-- The byte of a mark. -/
def Quote.byte : Quote → UInt8
  | single => 39
  | double => 34

/-- The mark that a byte is. -/
def Quote.ofByte? (c : UInt8) : Option Quote :=
  if c == Quote.single.byte then some .single
  else if c == Quote.double.byte then some .double
  else none

/-- Why a command file cannot be split into words. -/
inductive WordsError where
  /-- A quotation mark is not closed. -/
  | unclosed (quote : Quote)
  /-- Nothing follows a backslash. -/
  | nothingEscaped
deriving DecidableEq, Repr

/-- The wording of a failure. -/
def WordsError.message : WordsError → Text
  | unclosed quote => Text.ascii "no closing " ++ [quote.byte]
  | nothingEscaped => Text.ascii "expected character after \\, got end of file"

/-! ## Splitting -/

/-- Where in a text a byte can be. -/
inductive SplitMode where
  /-- Between words. -/
  | between
  /-- In a word, outside quotes. -/
  | inWord
  /-- Behind a backslash outside quotes. -/
  | escaped
  /-- Between quotes. -/
  | quoted (quote : Quote)
  /-- Behind a backslash between double quotes. -/
  | quotedEscaped
deriving DecidableEq, Repr

/-- A text split into words up to some byte. -/
structure Splitter where
  /-- Where the next byte is. -/
  mode : SplitMode
  /-- The word so far, last byte first. -/
  word : Text
  /-- The words before it. -/
  words : Array Text
deriving DecidableEq, Repr

namespace Splitter

/-- At the beginning of a text. -/
def start : Splitter := ⟨.between, [], #[]⟩

/-- Goes on in another mode. -/
def enter (s : Splitter) (mode : SplitMode) : Splitter := { s with mode }

/-- Takes a byte into the word. -/
def take (s : Splitter) (c : UInt8) : Splitter := { s with word := c :: s.word }

/-- Ends the word. -/
def endWord (s : Splitter) : Splitter := ⟨.between, [], s.words.push s.word.reverse⟩

/-- Reads a byte outside quotes. -/
def stepOutside (s : Splitter) (c : UInt8) : Splitter :=
  if Text.isSpace c then if s.mode = .between then s else s.endWord
  else match Quote.ofByte? c with
    | some quote => s.enter (.quoted quote)
    | none => if c == backslash then s.enter .escaped else (s.take c).enter .inWord

/-- Reads a byte between quotes. -/
def stepQuoted (s : Splitter) (quote : Quote) (c : UInt8) : Splitter :=
  if c == quote.byte then s.enter .inWord
  else if quote = .double ∧ c = backslash then s.enter .quotedEscaped
  else s.take c

/-- Reads a byte behind a backslash between double quotes. -/
def stepQuotedEscaped (s : Splitter) (c : UInt8) : Splitter :=
  let s := s.enter (.quoted .double)
  if c == Quote.double.byte then s.take c else (s.take backslash).take c

/-- Reads a byte. -/
def step (s : Splitter) (c : UInt8) : Splitter :=
  match s.mode with
  | .between => s.stepOutside c
  | .inWord => s.stepOutside c
  | .escaped => (s.take c).enter .inWord
  | .quoted quote => s.stepQuoted quote c
  | .quotedEscaped => s.stepQuotedEscaped c

/-- Reads a text. -/
def run (s : Splitter) (t : Text) : Splitter := t.foldl step s

/-- The words at the end of the text, and what is wrong there. -/
def finish (s : Splitter) : List Text × Option WordsError :=
  match s.mode with
  | .between => (s.words.toList, none)
  | .inWord => (s.endWord.words.toList, none)
  | .escaped => (s.words.toList, some .nothingEscaped)
  | .quoted quote => (s.words.toList, some (.unclosed quote))
  | .quotedEscaped => (s.words.toList, some (.unclosed .double))

end Splitter

/-- The words of a command file.  If something is wrong, these are the words in
front of it. -/
def commandWords (contents : Text) : List Text × Option WordsError :=
  (Splitter.start.run (joinLines contents)).finish

end ClassAbi
