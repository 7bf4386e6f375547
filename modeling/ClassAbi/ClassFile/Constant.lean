import ClassAbi.Text

/-!
# Constant values

A constant is the initial value of a static final field or a constant element
value of an annotation.  Floating point values are kept as their IEEE 754 bits,
so a NaN keeps its payload.

Every kind has a raw 64-bit word, `Constant.bits`.  The integer kinds below
`long` all live in the class file as 32-bit integers, and `ofIntegerTag?` turns
such an integer back into the kind that an element value tag names.
-/

namespace ClassAbi

/-- A constant value of a class file. -/
inductive Constant where
  /-- A truth value. -/
  | boolean (value : Bool)
  /-- A signed byte. -/
  | byte (value : Int8)
  /-- A UTF-16 code unit. -/
  | char (value : UInt16)
  /-- A signed 16-bit number. -/
  | short (value : Int16)
  /-- A signed 32-bit number. -/
  | int (value : Int32)
  /-- A signed 64-bit number. -/
  | long (value : Int64)
  /-- A single precision number, as its bits. -/
  | float (bits : UInt32)
  /-- A double precision number, as its bits. -/
  | double (bits : UInt64)
  /-- A string. -/
  | string (value : Text)
  /-- A class literal, as a return descriptor such as `Ljava/lang/Object;` or `V`. -/
  | classLiteral (descriptor : Text)
deriving DecidableEq, Repr, Inhabited

namespace Constant

/-- The place of the kind in the list of kinds, counted from 0. -/
def kindIndex : Constant → Nat
  | boolean _ => 0
  | byte _ => 1
  | char _ => 2
  | short _ => 3
  | int _ => 4
  | long _ => 5
  | float _ => 6
  | double _ => 7
  | string _ => 8
  | classLiteral _ => 9

/-- The tag of the constant as an element value (JVMS 4.7.16.1). -/
def tag : Constant → UInt8
  | boolean _ => 90   -- Z
  | byte _ => 66      -- B
  | char _ => 67      -- C
  | short _ => 83     -- S
  | int _ => 73       -- I
  | long _ => 74      -- J
  | float _ => 70     -- F
  | double _ => 68    -- D
  | string _ => 115   -- s
  | classLiteral _ => 99  -- c

/-- Whether the class file stores the constant as a 32-bit integer. -/
def isInteger : Constant → Bool
  | boolean _ | byte _ | char _ | short _ | int _ => true
  | _ => false

/-- The value as a 64-bit word.  Signed kinds are sign extended, the others
zero extended, and the two kinds that hold a text have the word 0. -/
def bits : Constant → UInt64
  | boolean b => if b then 1 else 0
  | byte v => v.toInt64.toUInt64
  | char v => v.toUInt64
  | short v => v.toInt64.toUInt64
  | int v => v.toInt64.toUInt64
  | long v => v.toUInt64
  | float b => b.toUInt64
  | double b => b
  | string _ => 0
  | classLiteral _ => 0

/-- The low half of the word as a signed number: the value of an integer kind. -/
def intValue (c : Constant) : Int32 := c.bits.toUInt32.toInt32

/-- The word as a signed number: the value of a `long`. -/
def longValue (c : Constant) : Int64 := c.bits.toInt64

/-- The low half of the word: the bits of a `float`. -/
def floatBits (c : Constant) : UInt32 := c.bits.toUInt32

/-- The word: the bits of a `double`. -/
def doubleBits (c : Constant) : UInt64 := c.bits

/-- The text of a string or class literal, and the empty text otherwise. -/
def stringValue : Constant → Text
  | string t => t
  | classLiteral t => t
  | _ => []

/-- The constant that an element value with this tag makes of a 32-bit integer.
Only the tags of the integer kinds have one.  A boolean is true of every
integer but 0, the narrow kinds keep the low bits. -/
def ofIntegerTag? (tag : UInt8) (value : Int32) : Option Constant :=
  if tag == 90 then some (boolean (value != 0))
  else if tag == 66 then some (byte value.toInt8)
  else if tag == 67 then some (char value.toUInt32.toUInt16)
  else if tag == 83 then some (short value.toInt16)
  else if tag == 73 then some (int value)
  else none

/-- The constant of a field whose descriptor begins with `descriptor`'s first
byte: the kind that byte names, and `int` where it names no integer kind. -/
def ofFieldInteger (descriptor : Text) (value : Int32) : Constant :=
  ((descriptor.head?).bind (ofIntegerTag? · value)).getD (int value)

/-- A short display form: the tag, a colon and the value.  Floating point
values show their bits, texts stand between quotes as they are. -/
def display (c : Constant) : Text :=
  c.tag :: 58 :: match c with
    | float b => Text.ascii "0x" ++ Text.zeroPadded 8 (Text.hex b.toNat)
    | double b => Text.ascii "0x" ++ Text.zeroPadded 16 (Text.hex b.toNat)
    | long v => Text.ofInt v.toInt
    | string t | classLiteral t => 34 :: t ++ [34]
    | c => Text.ofInt c.intValue.toInt

end Constant

end ClassAbi
