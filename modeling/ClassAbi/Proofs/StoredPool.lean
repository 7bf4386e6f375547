import ClassAbi.ClassFile.ConstantTable
import ClassAbi.Proofs.Positions

/-!
# Constant pools as they stand in a file

A `PoolItem` is an entry of a constant pool with all its bytes, of any kind that
JVMS 4.4 knows.  The items of a pool determine its table (`tableOf`), in which
an eight-byte item takes two indexes.  `scanPool_eq` reads that table back from
the bytes of the items, in whatever order and number they come.
-/

namespace ClassAbi

/-- An entry of a constant pool in a class file. -/
inductive PoolItem where
  /-- A text. -/
  | utf8 (value : Text)
  /-- A 32-bit integer. -/
  | integer (value : UInt32)
  /-- A single precision number, as its bits. -/
  | float (bits : UInt32)
  /-- A 64-bit integer. -/
  | long (value : UInt64)
  /-- A double precision number, as its bits. -/
  | double (bits : UInt64)
  /-- A class, by the index of its name. -/
  | classRef (name : UInt16)
  /-- A string, by the index of its text. -/
  | string (value : UInt16)
  /-- An entry of another kind, with the bytes behind its tag. -/
  | other (tag : UInt8) (contents : Text)
deriving DecidableEq, Repr

namespace PoolItem

/-- The bytes of the item. -/
def encode : PoolItem → Text
  | utf8 t => tagUtf8 :: (bytesU2 t.length.toUInt16 ++ t)
  | integer v => tagInteger :: bytesU4 v
  | float b => tagFloat :: bytesU4 b
  | long v => tagLong :: bytesU8 v
  | double b => tagDouble :: bytesU8 b
  | classRef i => tagClass :: bytesU2 i
  | string i => tagString :: bytesU2 i
  | other tag contents => tag :: contents

/-- What the table keeps of the item. -/
def entry : PoolItem → TableEntry
  | utf8 t => .utf8 t
  | integer v => .integer v
  | float b => .float b
  | long v => .long v
  | double b => .double b
  | classRef i => .classRef i
  | string i => .string i
  | other tag _ => .other tag

/-- The item takes two indexes. -/
def isWide : PoolItem → Bool
  | long _ | double _ => true
  | _ => false

/-- The entries for the indexes that the item takes. -/
def entries (item : PoolItem) : List TableEntry :=
  if item.isWide then [item.entry, .unusable] else [item.entry]

/-- The item can stand in a file: its length fits, and its kind is known. -/
def Fits : PoolItem → Prop
  | utf8 t => t.length ≤ 0xFFFF
  | other tag contents => otherEntrySize tag = some contents.length
  | _ => True

end PoolItem

/-- The table of a constant pool with these items. -/
def tableOf (items : List PoolItem) : ConstantTable :=
  (.unusable :: items.flatMap PoolItem.entries).toArray

/-- The items of a constant pool, with the count of indexes in front. -/
def encodePool (items : List PoolItem) : Text :=
  bytesU2 (tableOf items).size.toUInt16 ++ items.flatMap PoolItem.encode

/-! ## Reading the items -/

/-- The tags of the kinds that are kept and take one index. -/
theorem otherEntrySize_eq_some {tag : UInt8} {size : Nat} (h : otherEntrySize tag = some size) :
    tag ≠ tagUtf8 ∧ tag ≠ tagInteger ∧ tag ≠ tagFloat ∧ tag ≠ tagClass ∧ tag ≠ tagString ∧
      tag ≠ tagLong ∧ tag ≠ tagDouble := by
  refine ⟨?_, ?_, ?_, ?_, ?_, ?_, ?_⟩ <;>
  · rintro rfl
    cases h

/-- An item that takes one index is read as its entry. -/
theorem scanSingle_eq {d : ByteArray} {offset : Nat} {item : PoolItem} {tag : UInt8}
    {contents : Text} (encoded : item.encode = tag :: contents) (fits : item.Fits)
    (narrow : item.isWide = false) (h : HoldsAt d offset contents) (index : Nat) :
    scanSingle d tag index offset = .ok (item.entry, offset + contents.length) := by
  cases item with
  | utf8 t =>
    cases encoded
    have length := scanU2_eq_ok.mpr ⟨h.left, rfl⟩
    have text := scanText_eq_ok.mpr ⟨h.right, (toNat_toUInt16 fits).symm, rfl⟩
    simp only [scanSingle, beq_self_eq_true, if_true, bind_eq_ok, pure_eq_ok, Prod.exists]
    refine ⟨_, _, length, _, _, text, ?_⟩
    rw [toNat_toUInt16 fits, List.length_append, length_bytesU2, Nat.add_assoc]
    rfl
  | integer v =>
    cases encoded
    exact bind_eq_ok.mpr ⟨_, scanU4_eq_ok.mpr ⟨h, rfl⟩, rfl⟩
  | float b =>
    cases encoded
    exact bind_eq_ok.mpr ⟨_, scanU4_eq_ok.mpr ⟨h, rfl⟩, rfl⟩
  | long v => cases narrow
  | double b => cases narrow
  | classRef i =>
    cases encoded
    exact bind_eq_ok.mpr ⟨_, scanU2_eq_ok.mpr ⟨h, rfl⟩, rfl⟩
  | string i =>
    cases encoded
    exact bind_eq_ok.mpr ⟨_, scanU2_eq_ok.mpr ⟨h, rfl⟩, rfl⟩
  | other tag contents =>
    cases encoded
    obtain ⟨h1, h2, h3, h4, h5, -, -⟩ := otherEntrySize_eq_some fits
    simp only [scanSingle, beq_iff_eq, h1, h2, h3, h4, h5, if_false]
    rw [show otherEntrySize tag = some contents.length from fits]
    exact bind_eq_ok.mpr ⟨_, skipBytes_eq_ok.mpr ⟨h.le, rfl⟩, rfl⟩

/-- The tag of an item that takes one index is not that of one that takes two. -/
theorem narrow_tag {item : PoolItem} {tag : UInt8} {contents : Text}
    (encoded : item.encode = tag :: contents) (fits : item.Fits) (narrow : item.isWide = false) :
    (tag == tagLong || tag == tagDouble) = false := by
  cases item with
  | long v => cases narrow
  | double b => cases narrow
  | other tag contents =>
    cases encoded
    obtain ⟨-, -, -, -, -, h6, h7⟩ := otherEntrySize_eq_some fits
    simp [h6, h7]
  | _ =>
    cases encoded
    rfl

/-- Reading goes on behind an item that takes one index. -/
theorem scanEntries_narrow {d : ByteArray} {offset count : Nat} {table : ConstantTable}
    {item : PoolItem} (fits : item.Fits) (narrow : item.isWide = false)
    (h : HoldsAt d offset item.encode) :
    scanEntries d (count + 1) offset table =
      scanEntries d count (offset + item.encode.length) (table.push item.entry) := by
  obtain ⟨tag, contents, encoded⟩ : ∃ tag contents, item.encode = tag :: contents := by
    cases item <;> exact ⟨_, _, rfl⟩
  rw [encoded, HoldsAt.cons_iff] at h
  have single := scanSingle_eq encoded fits narrow h.2 table.size
  rw [scanEntries, scanU1_eq_ok.mpr ⟨h.1, rfl⟩]
  simp only [narrow_tag encoded fits narrow, Bool.false_eq_true, if_false]
  rw [single, encoded, List.length_cons, Nat.add_right_comm, Nat.add_assoc]

/-- Reading goes on behind an item that takes two indexes. -/
theorem scanEntries_wide {d : ByteArray} {offset count : Nat} {table : ConstantTable}
    {item : PoolItem} (wide : item.isWide = true) (h : HoldsAt d offset item.encode) :
    scanEntries d (count + 2) offset table =
      scanEntries d count (offset + item.encode.length)
        ((table.push item.entry).push .unusable) := by
  cases item with
  | long v =>
    obtain ⟨htag, hv⟩ := HoldsAt.cons_iff.mp h
    rw [scanEntries, scanU1_eq_ok.mpr ⟨htag, rfl⟩]
    simp only [beq_self_eq_true, Bool.true_or, if_true]
    rw [scanU8_eq_ok.mpr ⟨hv, rfl⟩]
    rfl
  | double b =>
    obtain ⟨htag, hv⟩ := HoldsAt.cons_iff.mp h
    rw [scanEntries, scanU1_eq_ok.mpr ⟨htag, rfl⟩]
    simp only [beq_self_eq_true, Bool.or_true, if_true]
    rw [scanU8_eq_ok.mpr ⟨hv, rfl⟩]
    rfl
  | _ => cases wide

/-- The items of a pool are read as the entries of its table. -/
theorem scanEntries_eq {d : ByteArray} {items : List PoolItem} (fits : ∀ i ∈ items, i.Fits)
    {offset : Nat} (h : HoldsAt d offset (items.flatMap PoolItem.encode)) (table : ConstantTable) :
    scanEntries d (items.flatMap PoolItem.entries).length offset table =
      .ok (table ++ (items.flatMap PoolItem.entries).toArray,
        offset + (items.flatMap PoolItem.encode).length) := by
  induction items generalizing offset table with
  | nil => simp [scanEntries]
  | cons item items ih =>
    rw [List.flatMap_cons] at h
    have rest := ih (fun i hi => fits i (List.mem_cons_of_mem _ hi)) h.right
    rw [List.flatMap_cons, List.flatMap_cons, List.length_append, List.length_append,
      ← Nat.add_assoc]
    cases wide : item.isWide with
    | false =>
      have entries : item.entries = [item.entry] := by simp [PoolItem.entries, wide]
      rw [entries, List.length_singleton, Nat.add_comm 1,
        scanEntries_narrow (fits item List.mem_cons_self) wide h.left, rest]
      simp
    | true =>
      have entries : item.entries = [item.entry, .unusable] := by simp [PoolItem.entries, wide]
      rw [entries, List.length_cons, List.length_singleton, Nat.add_comm (1 + 1),
        scanEntries_wide wide h.left, rest]
      simp

/-- A constant pool is read as the table of its items. -/
theorem scanPool_eq {d : ByteArray} {items : List PoolItem} (fits : ∀ i ∈ items, i.Fits)
    (size : (tableOf items).size ≤ 0xFFFF) {offset : Nat}
    (h : HoldsAt d offset (encodePool items)) :
    scanPool d offset = .ok (tableOf items, offset + (encodePool items).length) := by
  have count : (tableOf items).size.toUInt16.toNat = (tableOf items).size := toNat_toUInt16 size
  have size_eq : (tableOf items).size = (items.flatMap PoolItem.entries).length + 1 := by
    simp [tableOf]
  refine bind_eq_ok.mpr ⟨_, scanU2_eq_ok.mpr ⟨h.left, rfl⟩, ?_⟩
  have nonzero : ((tableOf items).size.toUInt16 == 0) = false := by
    rw [beq_eq_false_iff_ne, Ne, ← UInt16.toNat_inj, count, size_eq]
    simp
  simp only [nonzero, Bool.false_eq_true, if_false, count]
  have items := scanEntries_eq fits h.right #[.unusable]
  rw [length_bytesU2] at items
  rw [size_eq, Nat.add_sub_cancel, items]
  simp [tableOf, encodePool, Nat.add_assoc]

end ClassAbi
