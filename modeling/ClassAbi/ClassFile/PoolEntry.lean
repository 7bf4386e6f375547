import ClassAbi.Buffer

/-!
# Entries of a constant pool

The kinds of constant pool entries (JVMS 4.4) by tag.  `PoolEntry` is an entry
of a pool under construction, which needs only the kinds that a declaration
refers to.  An eight-byte entry takes two indexes of the pool.
-/

namespace ClassAbi

/-! ## Tags -/

/-- Tag of a text entry. -/
def tagUtf8 : UInt8 := 1
/-- Tag of a 32-bit integer. -/
def tagInteger : UInt8 := 3
/-- Tag of a single precision number. -/
def tagFloat : UInt8 := 4
/-- Tag of a 64-bit integer. -/
def tagLong : UInt8 := 5
/-- Tag of a double precision number. -/
def tagDouble : UInt8 := 6
/-- Tag of a class name. -/
def tagClass : UInt8 := 7
/-- Tag of a string. -/
def tagString : UInt8 := 8

/-! ## Entries -/

/-- An entry of a constant pool under construction. -/
inductive PoolEntry where
  /-- A text. -/
  | utf8 (value : Text)
  /-- A 32-bit integer. -/
  | integer (value : Int32)
  /-- A single precision number, as its bits. -/
  | float (bits : UInt32)
  /-- A 64-bit integer. -/
  | long (value : Int64)
  /-- A double precision number, as its bits. -/
  | double (bits : UInt64)
  /-- A class, by the index of the text that is its name. -/
  | classRef (name : UInt16)
  /-- A string, by the index of its text. -/
  | string (value : UInt16)
deriving DecidableEq, Hashable, Repr, Inhabited

namespace PoolEntry

/-- The number of indexes that the entry takes. -/
def slots : PoolEntry → Nat
  | long _ => 2
  | double _ => 2
  | _ => 1

/-- The entry as it stands in a class file.  A text must have fewer than 65536
bytes, which whoever adds it checks. -/
def encode : PoolEntry → Text
  | utf8 t => tagUtf8 :: bytesU2 t.length.toUInt16 ++ t
  | integer v => tagInteger :: bytesU4 v.toUInt32
  | float b => tagFloat :: bytesU4 b
  | long v => tagLong :: bytesU8 v.toUInt64
  | double b => tagDouble :: bytesU8 b
  | classRef i => tagClass :: bytesU2 i
  | string i => tagString :: bytesU2 i

end PoolEntry

end ClassAbi
