/-!
# Byte strings

Names, descriptors, paths and messages are byte strings.  A class file keeps
its names in a modified form of UTF-8 that need not be valid Unicode, and a
file system does not promise an encoding either.  So nothing here decodes
anything: a `Text` is its bytes, compared and ordered byte by byte.

Message texts are written as string literals of ASCII characters and turned
into bytes by `Text.ascii`.  Numbers have one decimal and one hexadecimal
spelling each.
-/

namespace ClassAbi

/-- A byte string.  The order of lists is the byte order of the strings. -/
abbrev Text := List UInt8

namespace Text

/-- The bytes of a text given by characters below 256, one byte each. -/
def ascii (s : String) : Text := s.toList.map fun c => c.toNat.toUInt8

/-! ## Numbers as text -/

/-- Decimal digits, without leading zeros. -/
def ofNat (n : Nat) : Text := (Nat.toDigits 10 n).map fun c => c.toNat.toUInt8

/-- Decimal digits behind a minus sign where one is due. -/
def ofInt : Int → Text
  | .ofNat n => ofNat n
  | .negSucc n => 45 :: ofNat (n + 1)

/-- Lower case hexadecimal digits, without leading zeros. -/
def hex (n : Nat) : Text := (Nat.toDigits 16 n).map fun c => c.toNat.toUInt8

/-- The text with zeros in front of it until it has `width` bytes. -/
def zeroPadded (width : Nat) (t : Text) : Text :=
  List.replicate (width - t.length) 48 ++ t

/-! ## Parts of a text -/

/-- Whether a byte is white space: a blank, a tab, or one of the bytes that end or
turn a line or a page. -/
def isSpace (c : UInt8) : Bool := c == 32 || (9 ≤ c && c ≤ 13)

/-- The part behind the last slash, which is all of a text without one. -/
def baseName (t : Text) : Text := (t.reverse.takeWhile (· != 47)).reverse

/-- Whether `t` begins with `head`. -/
def startsWith (t head : Text) : Bool := head.isPrefixOf t

/-- Whether `t` ends with `tail`. -/
def endsWith (t tail : Text) : Bool := tail.isSuffixOf t

/-- The lines of a text, where `line` is what comes before it in its line and `above`
are the lines before that, both in reverse. -/
def linesBelow (above : List Text) (line : Text) : Text → List Text
  | [] => (if line.isEmpty then above else line.reverse :: above).reverse
  | 10 :: rest => linesBelow (line.reverse :: above) [] rest
  | c :: rest => linesBelow above (c :: line) rest

/-- The lines of a text.  The last line need not have an end. -/
def lines (t : Text) : List Text := linesBelow [] [] t

/-- The bytes before the first zero byte, which is where a name handed to the
operating system stops. -/
def beforeNul (t : Text) : Text := t.takeWhile (· != 0)

end Text

end ClassAbi
