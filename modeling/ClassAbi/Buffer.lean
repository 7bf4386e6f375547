import ClassAbi.Text

/-!
# Growable big-endian buffers

Class files store numbers with the most significant byte first.  A `Buffer`
grows at its end.  The one change to bytes already written is `patchU2` and
`patchU4`, for a count that is known only after the counted items are written.

`Buffer.toList` is the view the laws speak about.  Writing appends the number's
bytes to it (`toList_pushU2` and its siblings), and a patch keeps its length
(`size_patchU2`).
-/

namespace ClassAbi

/-! ## Big-endian bytes of a number -/

/-- The two bytes of a 16-bit number, most significant first. -/
def bytesU2 (v : UInt16) : Text := [(v >>> 8).toUInt8, v.toUInt8]

/-- The four bytes of a 32-bit number, most significant first. -/
def bytesU4 (v : UInt32) : Text := bytesU2 (v >>> 16).toUInt16 ++ bytesU2 v.toUInt16

/-- The eight bytes of a 64-bit number, most significant first. -/
def bytesU8 (v : UInt64) : Text := bytesU4 (v >>> 32).toUInt32 ++ bytesU4 v.toUInt32

/-! ## Buffers -/

/-- Bytes written so far. -/
structure Buffer where
  /-- The bytes. -/
  bytes : ByteArray
deriving Inhabited

namespace Buffer

/-- The buffer nothing has been written to. -/
def empty : Buffer := ⟨.empty⟩

instance : EmptyCollection Buffer := ⟨empty⟩

/-- The number of bytes written. -/
def size (b : Buffer) : Nat := b.bytes.size

/-- The bytes written, in order. -/
def toList (b : Buffer) : Text := b.bytes.data.toList

/-- Appends one byte. -/
def pushU1 (b : Buffer) (v : UInt8) : Buffer := ⟨b.bytes.push v⟩

/-- Appends a 16-bit number. -/
def pushU2 (b : Buffer) (v : UInt16) : Buffer := ⟨(b.bytes.push (v >>> 8).toUInt8).push v.toUInt8⟩

/-- Appends a 32-bit number. -/
def pushU4 (b : Buffer) (v : UInt32) : Buffer :=
  (b.pushU2 (v >>> 16).toUInt16).pushU2 v.toUInt16

/-- Appends a 64-bit number. -/
def pushU8 (b : Buffer) (v : UInt64) : Buffer :=
  (b.pushU4 (v >>> 32).toUInt32).pushU4 v.toUInt32

/-- Appends the bytes of a text. -/
def pushText (b : Buffer) (t : Text) : Buffer := ⟨t.foldl ByteArray.push b.bytes⟩

/-- Appends raw bytes. -/
def pushBytes (b : Buffer) (bytes : ByteArray) : Buffer := ⟨b.bytes ++ bytes⟩

/-- Appends the contents of another buffer. -/
def append (b other : Buffer) : Buffer := b.pushBytes other.bytes

/-- Replaces the byte at `offset`, which must already be written. -/
def patchU1 (b : Buffer) (offset : Nat) (v : UInt8) : Buffer :=
  if h : offset < b.bytes.size then ⟨b.bytes.set offset v h⟩ else b

/-- Replaces the two bytes at `offset`, which must already be written. -/
def patchU2 (b : Buffer) (offset : Nat) (v : UInt16) : Buffer :=
  (b.patchU1 offset (v >>> 8).toUInt8).patchU1 (offset + 1) v.toUInt8

/-- Replaces the four bytes at `offset`, which must already be written. -/
def patchU4 (b : Buffer) (offset : Nat) (v : UInt32) : Buffer :=
  (b.patchU2 offset (v >>> 16).toUInt16).patchU2 (offset + 2) v.toUInt16

/-! ## The view -/

@[simp] theorem toList_empty : (∅ : Buffer).toList = [] := rfl

theorem length_toList (b : Buffer) : b.toList.length = b.size := by
  simp [toList, size]

@[simp] theorem toList_pushU1 (b : Buffer) (v : UInt8) : (b.pushU1 v).toList = b.toList ++ [v] := by
  simp [toList, pushU1]

@[simp] theorem toList_pushU2 (b : Buffer) (v : UInt16) :
    (b.pushU2 v).toList = b.toList ++ bytesU2 v := by
  simp [toList, pushU2, bytesU2]

@[simp] theorem toList_pushU4 (b : Buffer) (v : UInt32) :
    (b.pushU4 v).toList = b.toList ++ bytesU4 v := by
  simp [pushU4, bytesU4]

@[simp] theorem toList_pushU8 (b : Buffer) (v : UInt64) :
    (b.pushU8 v).toList = b.toList ++ bytesU8 v := by
  simp [pushU8, bytesU8]

@[simp] theorem toList_pushText (b : Buffer) (t : Text) :
    (b.pushText t).toList = b.toList ++ t := by
  unfold pushText toList
  induction t generalizing b with
  | nil => simp
  | cons x t ih =>
    have := ih ⟨b.bytes.push x⟩
    simp only [List.foldl_cons]
    rw [this]
    simp

@[simp] theorem toList_pushBytes (b : Buffer) (bytes : ByteArray) :
    (b.pushBytes bytes).toList = b.toList ++ bytes.data.toList := by
  simp [toList, pushBytes]

@[simp] theorem toList_append (b other : Buffer) :
    (b.append other).toList = b.toList ++ other.toList :=
  toList_pushBytes b other.bytes

theorem toList_patchU1 (b : Buffer) (offset : Nat) (v : UInt8) :
    (b.patchU1 offset v).toList = b.toList.set offset v := by
  unfold patchU1
  split
  · simp [toList, ByteArray.set]
  · next h =>
    rw [List.set_eq_of_length_le]
    rw [length_toList]
    exact Nat.le_of_not_lt h

theorem toList_patchU2 (b : Buffer) (offset : Nat) (v : UInt16) :
    (b.patchU2 offset v).toList =
      (b.toList.set offset (v >>> 8).toUInt8).set (offset + 1) v.toUInt8 := by
  simp [patchU2, toList_patchU1]

@[simp] theorem size_patchU2 (b : Buffer) (offset : Nat) (v : UInt16) :
    (b.patchU2 offset v).size = b.size := by
  rw [← length_toList, ← length_toList, toList_patchU2]
  simp

end Buffer

end ClassAbi
