import ClassAbi.ClassFile.PoolEntry

/-!
# What can be wrong with a class file

The first problem met ends the reading of a class file.  `ReadError` says what
it was and where, and `ReadError.message` words it.
-/

namespace ClassAbi

/-- Why bytes are not a class file. -/
inductive ReadError where
  /-- The file ends before `needed` more bytes, of which it has `available`. -/
  | truncated (needed offset available : Nat)
  /-- The file does not begin like a class file. -/
  | badMagic (magic : UInt32)
  /-- The constant pool does not even count the unused index 0. -/
  | emptyPool
  /-- An eight-byte constant has no second index left. -/
  | poolOverrun (index : Nat)
  /-- An entry of the constant pool has no known kind. -/
  | unknownEntry (tag : UInt8) (index : Nat)
  /-- There is no entry with the index. -/
  | indexOutOfRange (index : UInt16)
  /-- The entry is of another kind than its use demands. -/
  | wrongEntry (index : UInt16) (tag expected : UInt8)
  /-- The entry is no value that a field can have. -/
  | notAConstant (index : UInt16)
  /-- The declared length of an attribute leaves no room for its contents. -/
  | shortAttribute (name : Text) (offset : Nat)
  /-- Annotation values are nested beyond the limit. -/
  | nestedTooDeeply
  /-- An annotation value has no known kind. -/
  | unknownValue (tag : UInt8) (offset : Nat)
deriving DecidableEq, Repr

/-- The wording of a problem. -/
def ReadError.message : ReadError → Text
  | truncated needed offset available =>
    Text.ascii "truncated class file: " ++ Text.ofNat needed ++
      Text.ascii " bytes needed at offset " ++ Text.ofNat offset ++ Text.ascii ", " ++
      Text.ofNat available ++ Text.ascii " available"
  | badMagic magic => Text.ascii "bad magic number 0x" ++ Text.hex magic.toNat
  | emptyPool => Text.ascii "constant pool count is 0"
  | poolOverrun index =>
    Text.ascii "8-byte constant at index " ++ Text.ofNat index ++
      Text.ascii " overflows the constant pool"
  | unknownEntry tag index =>
    Text.ascii "unknown constant pool tag " ++ Text.ofNat tag.toNat ++ Text.ascii " at index " ++
      Text.ofNat index
  | indexOutOfRange index =>
    Text.ascii "constant pool index " ++ Text.ofNat index.toNat ++ Text.ascii " is out of range"
  | wrongEntry index tag expected =>
    Text.ascii "constant pool entry " ++ Text.ofNat index.toNat ++ Text.ascii " has tag " ++
      Text.ofNat tag.toNat ++ Text.ascii ", expected " ++ Text.ofNat expected.toNat
  | notAConstant index =>
    Text.ascii "constant pool entry " ++ Text.ofNat index.toNat ++
      Text.ascii " is not a constant value"
  | shortAttribute name offset =>
    name ++ Text.ascii " attribute at offset " ++ Text.ofNat offset ++ Text.ascii " is too short"
  | nestedTooDeeply => Text.ascii "annotation values are nested too deeply"
  | unknownValue tag offset =>
    Text.ascii "unknown element value tag " ++ Text.ofNat tag.toNat ++ Text.ascii " at offset " ++
      Text.ofNat offset

end ClassAbi
