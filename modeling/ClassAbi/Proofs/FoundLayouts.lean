import ClassAbi.Proofs.StoredClass

/-!
# What stands where a scan succeeds

`scan_attributes`, `scan_member` and their siblings say that the bytes of a class
file are gone through to their end.  This is the other direction.  Where a scan
succeeds, the bytes it went over are those of constant pool items, attributes,
members or a whole class file.

Only one layout can be found at an offset.  So the places that a scan notes are
described by the first direction, once the attributes are known.
-/

namespace ClassAbi

variable {d : ByteArray} {t : ConstantTable}

/-! ## The constant pool -/

theorem exists_other_of_otherEntrySize {tag : UInt8} {offset size : Nat}
    (known : otherEntrySize tag = some size) (room : offset + size ≤ d.size) :
    ∃ contents, (PoolItem.other tag contents).Fits ∧ HoldsAt d offset contents ∧
      contents.length = size := by
  have length : (d.extract offset (offset + size)).data.toList.length = size := by
    rw [Array.length_toList, ← ByteArray.size, ByteArray.size_extract]
    omega
  refine ⟨_, ?_, HoldsAt.extract d room, length⟩
  rw [PoolItem.Fits, length]
  exact known

/-- Behind a tag that takes one index stands the rest of an item. -/
theorem exists_item_of_scanSingle {tag : UInt8} {index offset stop : Nat} {entry : TableEntry}
    (h : scanSingle d tag index offset = .ok (entry, stop)) :
    ∃ (item : PoolItem) (contents : Text), item.encode = tag :: contents ∧ item.Fits ∧
      item.isWide = false ∧ item.entry = entry ∧ HoldsAt d offset contents ∧
      stop = offset + contents.length := by
  rw [scanSingle] at h
  split at h
  · next utf8 =>
    cases beq_iff_eq.mp utf8
    simp only [bind_eq_ok, pure_eq_ok, Prod.exists, scanU2_eq_ok, scanText_eq_ok,
      Prod.mk.injEq] at h
    obtain ⟨length, _, ⟨number, rfl⟩, value, _, ⟨text, eq, rfl⟩, rfl, rfl⟩ := h
    rw [toUInt16_of_eq_toNat eq] at number
    refine ⟨.utf8 value, _, rfl, le_of_eq_toNat eq, rfl, rfl, number.append text, ?_⟩
    rw [List.length_append, length_bytesU2, eq, Nat.add_assoc]
  split at h
  · next integer =>
    cases beq_iff_eq.mp integer
    simp only [bind_eq_ok, pure_eq_ok, Prod.exists, scanU4_eq_ok, Prod.mk.injEq] at h
    obtain ⟨value, _, ⟨held, rfl⟩, rfl, rfl⟩ := h
    exact ⟨.integer value, _, rfl, trivial, rfl, rfl, held, rfl⟩
  split at h
  · next float =>
    cases beq_iff_eq.mp float
    simp only [bind_eq_ok, pure_eq_ok, Prod.exists, scanU4_eq_ok, Prod.mk.injEq] at h
    obtain ⟨bits, _, ⟨held, rfl⟩, rfl, rfl⟩ := h
    exact ⟨.float bits, _, rfl, trivial, rfl, rfl, held, rfl⟩
  split at h
  · next classRef =>
    cases beq_iff_eq.mp classRef
    simp only [bind_eq_ok, pure_eq_ok, Prod.exists, scanU2_eq_ok, Prod.mk.injEq] at h
    obtain ⟨name, _, ⟨held, rfl⟩, rfl, rfl⟩ := h
    exact ⟨.classRef name, _, rfl, trivial, rfl, rfl, held, rfl⟩
  split at h
  · next string =>
    cases beq_iff_eq.mp string
    simp only [bind_eq_ok, pure_eq_ok, Prod.exists, scanU2_eq_ok, Prod.mk.injEq] at h
    obtain ⟨value, _, ⟨held, rfl⟩, rfl, rfl⟩ := h
    exact ⟨.string value, _, rfl, trivial, rfl, rfl, held, rfl⟩
  split at h
  · next size known =>
    simp only [bind_eq_ok, pure_eq_ok, skipBytes_eq_ok, Prod.mk.injEq] at h
    obtain ⟨_, ⟨room, rfl⟩, rfl, rfl⟩ := h
    obtain ⟨contents, fits, held, rfl⟩ := exists_other_of_otherEntrySize known room
    exact ⟨.other tag contents, contents, rfl, fits, rfl, rfl, held, rfl⟩
  · cases h

/-- An item that takes two indexes stands where its tag and its number do. -/
theorem exists_wide_item {tag : UInt8} {offset : Nat} {bits : UInt64}
    (wide : (tag == tagLong || tag == tagDouble) = true) (htag : HoldsAt d offset [tag])
    (held : HoldsAt d (offset + 1) (bytesU8 bits)) :
    ∃ item : PoolItem, item.Fits ∧ item.isWide = true ∧
      item.entry = (if tag == tagLong then TableEntry.long bits else .double bits) ∧
      HoldsAt d offset item.encode ∧ item.encode.length = 9 := by
  cases isLong : tag == tagLong with
  | true =>
    cases beq_iff_eq.mp isLong
    exact ⟨.long bits, trivial, rfl, rfl, HoldsAt.cons_iff.mpr ⟨htag, held⟩, rfl⟩
  | false =>
    rw [isLong, Bool.false_or] at wide
    cases beq_iff_eq.mp wide
    exact ⟨.double bits, trivial, rfl, rfl, HoldsAt.cons_iff.mpr ⟨htag, held⟩, rfl⟩

/-- The entries that are read are those of items one behind the other. -/
theorem exists_items_of_scanEntries {count offset stop : Nat} {table table' : ConstantTable}
    (inside : offset ≤ d.size) (h : scanEntries d count offset table = .ok (table', stop)) :
    ∃ items : List PoolItem, (∀ i ∈ items, i.Fits) ∧
      (items.flatMap PoolItem.entries).length = count ∧
      table' = table ++ (items.flatMap PoolItem.entries).toArray ∧
      HoldsAt d offset (items.flatMap PoolItem.encode) ∧
      stop = offset + (items.flatMap PoolItem.encode).length := by
  induction count using Nat.strongRecOn generalizing offset table with
  | ind count ih =>
  cases count with
  | zero =>
    rw [scanEntries] at h
    cases h
    exact ⟨[], by simp, rfl, by simp, HoldsAt.nil_iff.mpr inside, rfl⟩
  | succ count =>
    rw [scanEntries] at h
    split at h
    · cases h
    next tag behind first =>
    obtain ⟨htag, rfl⟩ := scanU1_eq_ok.mp first
    split at h
    · next wide =>
      cases count with
      | zero => cases h
      | succ count =>
        simp only at h
        split at h
        · cases h
        next bits behind number =>
        obtain ⟨held, rfl⟩ := scanU8_eq_ok.mp number
        obtain ⟨item, fits, isWide, entry, item_held, length⟩ := exists_wide_item wide htag held
        obtain ⟨items, others, rfl, rfl, rest, rfl⟩ := ih count (by omega) held.le h
        rw [← entry]
        refine ⟨item :: items, List.forall_mem_cons.mpr ⟨fits, others⟩, ?_, ?_, ?_, ?_⟩
        · simp only [List.flatMap_cons, PoolItem.entries, isWide, if_true, List.length_append,
            List.length_cons, List.length_nil]
          omega
        · simp [List.flatMap_cons, PoolItem.entries, isWide]
        · refine item_held.append ?_
          rwa [length]
        · rw [List.flatMap_cons, List.length_append, length, length_bytesU8]
          omega
    · split at h
      · cases h
      next entry behind single =>
      obtain ⟨item, contents, encoded, fits, narrow, rfl, held, rfl⟩ :=
        exists_item_of_scanSingle single
      obtain ⟨items, others, rfl, rfl, rest, rfl⟩ := ih count (by omega) held.le h
      refine ⟨item :: items, List.forall_mem_cons.mpr ⟨fits, others⟩, ?_, ?_, ?_, ?_⟩
      · simp only [List.flatMap_cons, PoolItem.entries, narrow, List.length_append,
          Bool.false_eq_true, if_false, List.length_cons, List.length_nil]
        omega
      · simp [List.flatMap_cons, PoolItem.entries, narrow]
      · rw [List.flatMap_cons, encoded]
        refine HoldsAt.append (HoldsAt.cons_iff.mpr ⟨htag, held⟩) ?_
        rw [List.length_cons, Nat.add_comm contents.length, ← Nat.add_assoc]
        exact rest
      · rw [List.flatMap_cons, encoded, List.length_append, List.length_cons]
        omega

/-- A constant pool that is read is one of items, whose count stands in front. -/
theorem exists_items_of_scanPool {offset stop : Nat} (h : scanPool d offset = .ok (t, stop)) :
    ∃ items : List PoolItem, (∀ i ∈ items, i.Fits) ∧ t = tableOf items ∧ t.size ≤ 0xFFFF ∧
      HoldsAt d offset (encodePool items) ∧ stop = offset + (encodePool items).length := by
  obtain ⟨⟨count, behind⟩, first, h⟩ := bind_eq_ok.mp h
  obtain ⟨number, rfl⟩ := scanU2_eq_ok.mp first
  simp only at h
  split at h
  · cases h
  next nonzero =>
  have positive : 0 < count.toNat := by
    rw [beq_iff_eq, ← UInt16.toNat_inj] at nonzero
    exact Nat.pos_of_ne_zero nonzero
  obtain ⟨items, fits, length, rfl, held, rfl⟩ := exists_items_of_scanEntries number.le h
  have table : #[TableEntry.unusable] ++ (items.flatMap PoolItem.entries).toArray =
      tableOf items := by
    simp [tableOf]
  have size : (tableOf items).size = count.toNat := by
    simp only [tableOf, List.size_toArray, List.length_cons, length]
    omega
  rw [toUInt16_of_eq_toNat size] at number
  rw [table]
  refine ⟨items, fits, rfl, le_of_eq_toNat size, number.append held, ?_⟩
  rw [encodePool, List.length_append, length_bytesU2, length_bytesU2, Nat.add_assoc]

/-! ## Attributes -/

theorem exists_attributes_of_scanEach {count offset stop : Nat} {a a' : AttributeLocations}
    (inside : offset ≤ d.size)
    (h : AttributeLocations.scanEach d t count offset a = .ok (a', stop)) :
    ∃ attributes : List AttributeInfo, (∀ x ∈ attributes, x.Fits t) ∧
      attributes.length = count ∧ HoldsAt d offset (attributes.flatMap AttributeInfo.encode) ∧
      stop = offset + (attributes.flatMap AttributeInfo.encode).length := by
  induction count generalizing offset a with
  | zero =>
    rw [AttributeLocations.scanEach] at h
    cases h
    exact ⟨[], by simp, rfl, HoldsAt.nil_iff.mpr inside, rfl⟩
  | succ count ih =>
    rw [AttributeLocations.scanEach] at h
    simp only [bind_eq_ok, Prod.exists, scanU2_eq_ok, scanU4_eq_ok, skipBytes_eq_ok] at h
    obtain ⟨index, _, ⟨hindex, rfl⟩, length, _, ⟨hlength, rfl⟩, name, named, _, ⟨room, rfl⟩, h⟩ := h
    split at h
    · cases h
    next long =>
    have contents := HoldsAt.extract d room
    have size : (d.extract (offset + 2 + 4) (offset + 2 + 4 + length.toNat)).data.toList.length =
        length.toNat := by
      rw [Array.length_toList, ← ByteArray.size, ByteArray.size_extract]
      omega
    generalize (d.extract (offset + 2 + 4) (offset + 2 + 4 + length.toNat)).data.toList = info
      at contents size
    have number : length = info.length.toUInt32 := by
      rw [size]
      exact (UInt32.ofNat_toNat).symm
    obtain ⟨attributes, fits, rfl, held, rfl⟩ := ih room h
    have item : HoldsAt d offset (AttributeInfo.encode ⟨index, info⟩) :=
      hindex.append (HoldsAt.append (number ▸ hlength) contents)
    have encoded : offset + (AttributeInfo.encode ⟨index, info⟩).length =
        offset + 2 + 4 + length.toNat := by
      simp only [AttributeInfo.encode, List.length_append, length_bytesU2, length_bytesU4]
      omega
    refine ⟨⟨index, info⟩ :: attributes, List.forall_mem_cons.mpr ⟨⟨⟨name, named, ?_⟩, ?_⟩, fits⟩,
      rfl, item.append ?_, ?_⟩
    · rw [size]
      exact Nat.not_lt.mp long
    · rw [size]
      exact length.toNat_lt
    · rwa [encoded]
    · rw [List.flatMap_cons, List.length_append, ← Nat.add_assoc, encoded]

/-- Attributes that are gone through are those that their locations note. -/
theorem exists_attributes_of_scan {offset stop : Nat} {a : AttributeLocations}
    (h : AttributeLocations.scan d t offset = .ok (a, stop)) :
    ∃ attributes : List AttributeInfo, (∀ x ∈ attributes, x.Fits t) ∧
      attributes.length ≤ 0xFFFF ∧
      HoldsAt d offset (encodeTable AttributeInfo.encode attributes) ∧
      stop = offset + (encodeTable AttributeInfo.encode attributes).length ∧
      NotedIn d t attributes a := by
  obtain ⟨⟨count, behind⟩, first, each⟩ := bind_eq_ok.mp h
  obtain ⟨number, rfl⟩ := scanU2_eq_ok.mp first
  obtain ⟨attributes, fits, length, held, -⟩ := exists_attributes_of_scanEach number.le each
  rw [toUInt16_of_eq_toNat length] at number
  have stands := number.append held
  obtain ⟨a', scanned, noted⟩ := scan_attributes fits (le_of_eq_toNat length) stands
  cases h.symm.trans scanned
  exact ⟨attributes, fits, le_of_eq_toNat length, stands, rfl, noted⟩

/-! ## Members -/

/-- A member that is gone through is one that its layout describes. -/
theorem exists_member_of_scan {offset stop : Nat} {l : MemberLayout}
    (h : MemberLayout.scan d t offset = .ok (l, stop)) :
    ∃ m : MemberInfo, m.Fits t ∧ HoldsAt d offset m.encode ∧
      stop = offset + m.encode.length ∧ LaidOut d t m l := by
  simp only [MemberLayout.scan, bind_eq_ok, pure_eq_ok, Prod.exists, skipBytes_eq_ok,
    scanU2_eq_ok, Prod.mk.injEq] at h
  obtain ⟨_, ⟨-, rfl⟩, flags, _, ⟨hflags, rfl⟩, name, _, ⟨hname, rfl⟩, descriptor, _,
    ⟨hdescriptor, rfl⟩, a, _, scanned, rfl, rfl⟩ := h
  obtain ⟨attributes, fits, count, held, rfl, noted⟩ := exists_attributes_of_scan scanned
  refine ⟨⟨flags, name, descriptor, attributes⟩, ⟨fits, count⟩,
    hflags.append (hname.append (hdescriptor.append held)), ?_, rfl, rfl, rfl, noted⟩
  simp only [MemberInfo.encode, List.length_append, length_bytesU2, Nat.add_assoc]

theorem exists_members_of_scanEach {count offset stop : Nat} {before after : Array MemberLayout}
    (inside : offset ≤ d.size)
    (h : scanEach (MemberLayout.scan d t) count offset before = .ok (after, stop)) :
    ∃ (ms : List MemberInfo) (ls : List MemberLayout), (∀ m ∈ ms, m.Fits t) ∧
      ms.length = count ∧ after = before ++ ls.toArray ∧
      HoldsAt d offset (ms.flatMap MemberInfo.encode) ∧
      stop = offset + (ms.flatMap MemberInfo.encode).length ∧
      List.Forall₂ (LaidOut d t) ms ls := by
  induction count generalizing offset before with
  | zero =>
    rw [scanEach] at h
    cases h
    exact ⟨[], [], by simp, rfl, by simp, HoldsAt.nil_iff.mpr inside, rfl, .nil⟩
  | succ count ih =>
    rw [scanEach] at h
    split at h
    · next l behind first =>
      obtain ⟨m, fits, held, rfl, laidOut⟩ := exists_member_of_scan first
      obtain ⟨ms, ls, others, rfl, rfl, rest, rfl, laidOuts⟩ := ih held.le h
      refine ⟨m :: ms, l :: ls, List.forall_mem_cons.mpr ⟨fits, others⟩, rfl, by simp,
        held.append rest, ?_, .cons laidOut laidOuts⟩
      rw [List.flatMap_cons, List.length_append, Nat.add_assoc]
    · cases h

/-- Members that are gone through are those that their layouts describe. -/
theorem exists_members_of_scanAll {offset stop : Nat} {ls : Array MemberLayout}
    (h : MemberLayout.scanAll d t offset = .ok (ls, stop)) :
    ∃ ms : List MemberInfo, (∀ m ∈ ms, m.Fits t) ∧ ms.length ≤ 0xFFFF ∧
      HoldsAt d offset (encodeTable MemberInfo.encode ms) ∧
      stop = offset + (encodeTable MemberInfo.encode ms).length ∧
      List.Forall₂ (LaidOut d t) ms ls.toList := by
  obtain ⟨⟨count, behind⟩, first, each⟩ := bind_eq_ok.mp h
  obtain ⟨number, rfl⟩ := scanU2_eq_ok.mp first
  obtain ⟨ms, layouts, fits, length, rfl, held, rfl, laidOut⟩ :=
    exists_members_of_scanEach number.le each
  rw [toUInt16_of_eq_toNat length] at number
  refine ⟨ms, fits, le_of_eq_toNat length, number.append held, ?_, by simpa using laidOut⟩
  rw [encodeTable, List.length_append, length_bytesU2, length_bytesU2, Nat.add_assoc]

/-! ## Whole files -/

/-- The layout is that of the class file, whose bytes stand at the start. -/
structure ClassFile.LaidOutAs (d : ByteArray) (f : ClassFile) (l : ClassLayout) : Prop where
  pool : ∀ i ∈ f.pool, i.Fits
  size : f.table.size ≤ 0xFFFF
  held : HoldsAt d 0 f.encode
  stop : l.stop = f.encode.length
  table : l.table = f.table
  version : l.header.version = f.minor.toUInt32 <<< 16 ||| f.major.toUInt32
  access : l.header.access = .ofFlags f.flags l.attributes.deprecated
  name : f.table.classNameAt f.thisClass = .ok l.header.name
  superName : superNameAt f.table f.superClass = .ok l.header.superName
  signature : signatureAt d f.table l.attributes.signature = .ok l.header.signature
  interfaces : ∃ names,
    TableEncodedBy (ClassRef f.table) names (encodeTable bytesU2 f.interfaces) ∧
    l.header.interfaces = some names
  fields : List.Forall₂ (LaidOut d f.table) f.fields l.fields.toList
  fieldFits : ∀ m ∈ f.fields, m.Fits f.table
  methods : List.Forall₂ (LaidOut d f.table) f.methods l.methods.toList
  methodFits : ∀ m ∈ f.methods, m.Fits f.table
  attributes : NotedIn d f.table f.attributes l.attributes
  attributeFits : ∀ a ∈ f.attributes, a.Fits f.table

/-- References to classes are indexes. -/
theorem exists_indexes_of_classRefs {names : List Text} {bs : Text}
    (h : TableEncodedBy (ClassRef t) names bs) :
    ∃ indexes : List UInt16, bs = encodeTable bytesU2 indexes := by
  obtain ⟨-, items, each, rfl⟩ := h
  have indexes : ∃ indexes : List UInt16, indexes.length = names.length ∧
      items = indexes.flatMap bytesU2 := by
    induction names generalizing items with
    | nil => exact ⟨[], rfl, each⟩
    | cons name names ih =>
      obtain ⟨_, back, ⟨i, -, rfl⟩, others, rfl⟩ := each
      obtain ⟨indexes, length, rfl⟩ := ih back others
      exact ⟨i :: indexes, congrArg (· + 1) length, rfl⟩
  obtain ⟨indexes, length, rfl⟩ := indexes
  exact ⟨indexes, by rw [encodeTable, length]⟩

/-- A file that is gone through starts with a class file of that layout. -/
theorem exists_classFile_of_scan {l : ClassLayout} (h : ClassLayout.scan d = .ok l) :
    ∃ f : ClassFile, f.LaidOutAs d l := by
  obtain ⟨⟨magic, _⟩, first, h⟩ := bind_eq_ok.mp h
  obtain ⟨hmagic, rfl⟩ := scanU4_eq_ok.mp first
  simp only at h
  split at h
  · cases h
  next isClass =>
  rw [bne_iff_ne, not_not] at isClass
  subst isClass
  simp only [bind_eq_ok, pure_eq_ok, Prod.exists, scanU2_eq_ok, scanClassRef_eq_ok,
    scanClassRefs_eq_ok] at h
  obtain ⟨minor, _, ⟨hminor, rfl⟩, major, _, ⟨hmajor, rfl⟩, table, _, scanned, flags, _,
    ⟨hflags, rfl⟩, name, _, ⟨_, ⟨thisClass, named, rfl⟩, hname, rfl⟩, superClass, _,
    ⟨hsuper, rfl⟩, superName, superNamed, names, _, ⟨_, refs, hinterfaces, rfl⟩, fields, _,
    fieldsScanned, methods, _, methodsScanned, attributes, stop, attributesScanned, signature, signed,
    rfl⟩ := h
  obtain ⟨pool, poolFits, rfl, size, hpool, rfl⟩ := exists_items_of_scanPool scanned
  obtain ⟨interfaces, rfl⟩ := exists_indexes_of_classRefs refs
  obtain ⟨fs, fieldFits, -, hfields, rfl, fieldsLaidOut⟩ :=
    exists_members_of_scanAll fieldsScanned
  obtain ⟨ms, methodFits, -, hmethods, rfl, methodsLaidOut⟩ :=
    exists_members_of_scanAll methodsScanned
  obtain ⟨as, attributeFits, -, hattributes, rfl, noted⟩ :=
    exists_attributes_of_scan attributesScanned
  refine ⟨⟨minor, major, pool, flags, thisClass, superClass, interfaces, fs, ms, as⟩, poolFits,
    size, ?_, ?_, rfl, rfl, rfl, named, superNamed, signed, ⟨names, refs, rfl⟩, fieldsLaidOut,
    fieldFits, methodsLaidOut, methodFits, noted, attributeFits⟩
  · exact hmagic.append (hminor.append (hmajor.append (hpool.append (hflags.append (hname.append
      (hsuper.append (hinterfaces.append (hfields.append (hmethods.append hattributes)))))))))
  · simp only [ClassFile.encode, ClassFile.encodeBody, List.length_append, Nat.add_assoc,
      length_bytesU2, length_bytesU4, Nat.zero_add]

end ClassAbi
