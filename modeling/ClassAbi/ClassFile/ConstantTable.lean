import ClassAbi.ClassFile.Constant
import ClassAbi.ClassFile.Scan

/-!
# The constant pool of a class file

`scanPool` reads the constant pool of a class file into a table by index.
Entries of kinds that a declaration never refers to keep their tag and nothing
else.  The second index of an eight-byte entry and index 0 hold nothing.

References are followed when they are used and not before.  So an entry that
refers to nothing is no problem as long as nothing refers to it.
-/

namespace ClassAbi

/-- An entry of the constant pool of a class file. -/
inductive TableEntry where
  /-- Nothing: index 0, or the second index of an eight-byte entry. -/
  | unusable
  /-- A text. -/
  | utf8 (value : Text)
  /-- A 32-bit integer. -/
  | integer (value : UInt32)
  /-- A single precision number, as its bits. -/
  | float (bits : UInt32)
  /-- A 64-bit integer. -/
  | long (value : UInt64)
  /-- A double precision number, as its bits. -/
  | double (bits : UInt64)
  /-- A class, by the index of its name. -/
  | classRef (name : UInt16)
  /-- A string, by the index of its text. -/
  | string (value : UInt16)
  /-- An entry of a kind that no declaration refers to. -/
  | other (tag : UInt8)
deriving DecidableEq, Repr, Inhabited

/-- The tag of an entry.  What is unusable has the tag 0, which no entry has. -/
def TableEntry.tag : TableEntry → UInt8
  | unusable => 0
  | utf8 _ => tagUtf8
  | integer _ => tagInteger
  | float _ => tagFloat
  | long _ => tagLong
  | double _ => tagDouble
  | classRef _ => tagClass
  | string _ => tagString
  | other tag => tag

/-- The entries of a constant pool by index. -/
abbrev ConstantTable := Array TableEntry

/-! ## Reading the pool -/

/-- The number of bytes behind the tag of an entry that is not kept, for the
tags that have one (JVMS 4.4). -/
def otherEntrySize (tag : UInt8) : Option Nat :=
  if tag == 16 || tag == 19 || tag == 20 then some 2
  else if tag == 15 then some 3
  else if tag == 9 || tag == 10 || tag == 11 || tag == 12 || tag == 17 || tag == 18 then some 4
  else none

/-- An eight-byte number in two halves. -/
def scanU8 (d : ByteArray) (offset : Nat) : Except ReadError (UInt64 × Nat) :=
  if offset + 8 ≤ d.size then do
    let (high, offset) ← scanU4 d offset
    let (low, offset) ← scanU4 d offset
    return (high.toUInt64 <<< 32 ||| low.toUInt64, offset)
  else .error (truncatedAt d offset 8)

/-- What follows a tag, where the entry takes one index. -/
def scanSingle (d : ByteArray) (tag : UInt8) (index offset : Nat) :
    Except ReadError (TableEntry × Nat) :=
  if tag == tagUtf8 then do
    let (length, offset) ← scanU2 d offset
    let (value, offset) ← scanText d offset length.toNat
    return (.utf8 value, offset)
  else if tag == tagInteger then do
    let (value, offset) ← scanU4 d offset
    return (.integer value, offset)
  else if tag == tagFloat then do
    let (bits, offset) ← scanU4 d offset
    return (.float bits, offset)
  else if tag == tagClass then do
    let (name, offset) ← scanU2 d offset
    return (.classRef name, offset)
  else if tag == tagString then do
    let (value, offset) ← scanU2 d offset
    return (.string value, offset)
  else match otherEntrySize tag with
    | some size => do
      let offset ← skipBytes d offset size
      return (.other tag, offset)
    | none => .error (.unknownEntry tag index)

/-- The entries for `count` more indexes behind those of `table`. -/
def scanEntries (d : ByteArray) :
    (count offset : Nat) → (table : ConstantTable) → Except ReadError (ConstantTable × Nat)
  | 0, offset, table => .ok (table, offset)
  | count + 1, offset, table =>
    match scanU1 d offset with
    | .error e => .error e
    | .ok (tag, offset) =>
      if tag == tagLong || tag == tagDouble then
        match count with
        | 0 => .error (.poolOverrun table.size)
        | count + 1 =>
          match scanU8 d offset with
          | .error e => .error e
          | .ok (bits, offset) =>
            let entry := if tag == tagLong then TableEntry.long bits else .double bits
            scanEntries d count offset ((table.push entry).push .unusable)
      else
        match scanSingle d tag table.size offset with
        | .error e => .error e
        | .ok (entry, offset) => scanEntries d count offset (table.push entry)

/-- The constant pool at `offset`: its count and its entries. -/
def scanPool (d : ByteArray) (offset : Nat) : Except ReadError (ConstantTable × Nat) := do
  let (count, offset) ← scanU2 d offset
  if count == 0 then .error .emptyPool
  else scanEntries d (count.toNat - 1) offset #[.unusable]

/-! ## Looking entries up -/

namespace ConstantTable

/-- The entry with an index, which must be in use. -/
def entryAt (t : ConstantTable) (index : UInt16) : Except ReadError TableEntry :=
  if index == 0 then .error (.indexOutOfRange index)
  else match t[index.toNat]? with
    | some e => .ok e
    | none => .error (.indexOutOfRange index)

/-- The text with an index. -/
def utf8At (t : ConstantTable) (index : UInt16) : Except ReadError Text := do
  match ← t.entryAt index with
  | .utf8 value => return value
  | e => .error (.wrongEntry index e.tag tagUtf8)

/-- The name of the class with an index. -/
def classNameAt (t : ConstantTable) (index : UInt16) : Except ReadError Text := do
  match ← t.entryAt index with
  | .classRef name => t.utf8At name
  | e => .error (.wrongEntry index e.tag tagClass)

/-- The 32-bit integer with an index. -/
def integerAt (t : ConstantTable) (index : UInt16) : Except ReadError Int32 := do
  match ← t.entryAt index with
  | .integer value => return value.toInt32
  | e => .error (.wrongEntry index e.tag tagInteger)

/-- The single precision number with an index. -/
def floatAt (t : ConstantTable) (index : UInt16) : Except ReadError Constant := do
  match ← t.entryAt index with
  | .float bits => return .float bits
  | e => .error (.wrongEntry index e.tag tagFloat)

/-- The 64-bit integer with an index. -/
def longAt (t : ConstantTable) (index : UInt16) : Except ReadError Constant := do
  match ← t.entryAt index with
  | .long value => return .long value.toInt64
  | e => .error (.wrongEntry index e.tag tagLong)

/-- The double precision number with an index. -/
def doubleAt (t : ConstantTable) (index : UInt16) : Except ReadError Constant := do
  match ← t.entryAt index with
  | .double bits => return .double bits
  | e => .error (.wrongEntry index e.tag tagDouble)

/-- The initial value with an index, for a field with the given descriptor.  The
descriptor tells which kind a 32-bit integer stands for. -/
def constantAt (t : ConstantTable) (descriptor : Text) (index : UInt16) :
    Except ReadError Constant := do
  match ← t.entryAt index with
  | .integer value => return .ofFieldInteger descriptor value.toInt32
  | .float bits => return .float bits
  | .long value => return .long value.toInt64
  | .double bits => return .double bits
  | .string value => return .string (← t.utf8At value)
  | _ => .error (.notAConstant index)

end ConstantTable

end ClassAbi
