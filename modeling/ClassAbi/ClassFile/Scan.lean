import ClassAbi.ClassFile.ReadError

/-!
# Scanning bytes

Numbers and texts at an offset of a class file.  Every scan takes the file and
an offset and answers with the value and the offset behind it, or fails because
the file ends first.  A scan that succeeds leaves an offset inside the file
(`scanU2_le` and its siblings).
-/

namespace ClassAbi

/-- The bytes from `offset` on that the file lacks for `needed` more. -/
def truncatedAt (d : ByteArray) (offset needed : Nat) : ReadError :=
  .truncated needed offset (d.size - offset)

/-- One byte. -/
def scanU1 (d : ByteArray) (offset : Nat) : Except ReadError (UInt8 × Nat) :=
  if h : offset < d.size then .ok (d[offset], offset + 1)
  else .error (truncatedAt d offset 1)

/-- A 16-bit number, most significant byte first. -/
def scanU2 (d : ByteArray) (offset : Nat) : Except ReadError (UInt16 × Nat) :=
  if h : offset + 2 ≤ d.size then
    .ok (d[offset].toUInt16 <<< 8 ||| d[offset + 1].toUInt16, offset + 2)
  else .error (truncatedAt d offset 2)

/-- A 32-bit number, most significant byte first. -/
def scanU4 (d : ByteArray) (offset : Nat) : Except ReadError (UInt32 × Nat) :=
  if h : offset + 4 ≤ d.size then
    .ok (d[offset].toUInt32 <<< 24 ||| d[offset + 1].toUInt32 <<< 16 |||
      d[offset + 2].toUInt32 <<< 8 ||| d[offset + 3].toUInt32, offset + 4)
  else .error (truncatedAt d offset 4)

/-- Leaves out `count` bytes. -/
def skipBytes (d : ByteArray) (offset count : Nat) : Except ReadError Nat :=
  if offset + count ≤ d.size then .ok (offset + count)
  else .error (truncatedAt d offset count)

/-- A text of `count` bytes. -/
def scanText (d : ByteArray) (offset count : Nat) : Except ReadError (Text × Nat) :=
  if offset + count ≤ d.size then
    .ok ((d.extract offset (offset + count)).data.toList, offset + count)
  else .error (truncatedAt d offset count)

/-- As many items as counted, one behind the other. -/
def scanEach (item : Nat → Except ReadError (α × Nat)) :
    (count offset : Nat) → (items : Array α) → Except ReadError (Array α × Nat)
  | 0, offset, items => .ok (items, offset)
  | count + 1, offset, items =>
    match item offset with
    | .ok (a, offset) => scanEach item count offset (items.push a)
    | .error e => .error e

/-! ## Scans stay inside the file -/

theorem scanU1_le {d : ByteArray} {offset stop : Nat} {v : UInt8}
    (h : scanU1 d offset = .ok (v, stop)) : offset < stop ∧ stop ≤ d.size := by
  unfold scanU1 at h
  split at h <;> simp at h
  omega

theorem scanU2_le {d : ByteArray} {offset stop : Nat} {v : UInt16}
    (h : scanU2 d offset = .ok (v, stop)) : offset < stop ∧ stop ≤ d.size := by
  unfold scanU2 at h
  split at h <;> simp at h
  omega

theorem scanU4_le {d : ByteArray} {offset stop : Nat} {v : UInt32}
    (h : scanU4 d offset = .ok (v, stop)) : offset < stop ∧ stop ≤ d.size := by
  unfold scanU4 at h
  split at h <;> simp at h
  omega

theorem skipBytes_le {d : ByteArray} {offset count stop : Nat}
    (h : skipBytes d offset count = .ok stop) : stop = offset + count ∧ stop ≤ d.size := by
  unfold skipBytes at h
  split at h <;> simp at h
  omega

end ClassAbi
