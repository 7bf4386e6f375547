import ClassAbi.Proofs.CarriedContents
import ClassAbi.Proofs.StorableReading
import ClassAbi.Proofs.StoredIntegers
import ClassAbi.Proofs.SuppliedClasses

/-!
# The constant pool of an outline file

An outline file has a constant pool of its own, in which every entry is there once.
Its entries stand for what the constant pool of the class file has, the names of
attributes and the texts behind classes and strings included.  So the pool of the
class file is a supply for the outline file (`ConstantTable.supply`).

Only integers can become more.  One stored integer may be a truth value here and a
`byte` there, and an outline stores what each use made of it.  There are five kinds,
so a stored integer takes at most four indexes more than it had
(`exists_encodesWithin`).
-/

namespace ClassAbi

/-! ## The supply of a constant pool -/

/-- The integers that constants have that are made of a stored integer. -/
def narrowings (v : Int32) : List Int32 :=
  [90, 66, 67, 83, 73].filterMap fun tag => (Constant.ofIntegerTag? tag v).map Constant.intValue

namespace ConstantTable

/-- What the entry stands for, where `ints` says it of an integer. -/
def entryKeys (t : ConstantTable) (ints : Int32 → List Int32) : TableEntry → List PoolKey
  | .utf8 s => [.text s]
  | .integer v => (ints v.toInt32).map .integer
  | .float b => [.float b]
  | .long v => [.long v.toInt64]
  | .double b => [.double b]
  | .classRef i => (t.utf8At i).toOption.toList.map .classRef
  | .string i => (t.utf8At i).toOption.toList.map .string
  | .unusable | .other _ => []

/-- What the entries of the table stand for. -/
def supply (t : ConstantTable) (ints : Int32 → List Int32) : List PoolKey :=
  t.toList.flatMap (t.entryKeys ints)

/-- The number of 32-bit integers in the table. -/
def integerCount (t : ConstantTable) : Nat := t.toList.countP (·.tag == tagInteger)

variable {t : ConstantTable} {ints : Int32 → List Int32}

theorem mem_supply {e : TableEntry} (mem : e ∈ t) {k : PoolKey} (key : k ∈ t.entryKeys ints e) :
    k ∈ t.supply ints :=
  List.mem_flatMap.mpr ⟨e, Array.mem_toList_iff.mpr mem, key⟩

theorem mem_supply_of_entryAt {i : UInt16} {e : TableEntry} (found : t.entryAt i = .ok e)
    {k : PoolKey} (key : k ∈ t.entryKeys ints e) : k ∈ t.supply ints :=
  mem_supply (mem_of_entryAt found) key

theorem text_mem_supply {i : UInt16} {s : Text} (h : t.utf8At i = .ok s) :
    .text s ∈ t.supply ints :=
  mem_supply_of_entryAt (utf8At_eq_ok.mp h) List.mem_cons_self

/-! ## Everything that is found is supplied -/

/-- The constants that a tag makes of an integer have the integers that are listed. -/
theorem intValue_mem_narrowings {tag : UInt8} {v : Int32} {c : Constant}
    (h : Constant.ofIntegerTag? tag v = some c) : c.intValue ∈ narrowings v := by
  have known : tag ∈ [90, 66, 67, 83, 73] := by
    obtain ⟨rfl, isInteger⟩ := Constant.tag_of_ofIntegerTag? h
    cases c <;> first | (cases isInteger; done) | simp [Constant.tag]
  exact List.mem_filterMap.mpr ⟨tag, known, by rw [h]; rfl⟩

theorem integer_mem_supply {i : UInt16} {v : Int32} (found : t.integerAt i = .ok v)
    {n : Int32} (listed : n ∈ ints v) : .integer n ∈ t.supply ints :=
  mem_supply_of_entryAt (integerAt_eq_ok.mp found)
    (List.mem_map.mpr ⟨n, by simpa using listed, rfl⟩)

/-- An integer of the table is supplied by itself. -/
theorem integer_mem_supply_self {v : Int32} (h : .integer v.toUInt32 ∈ t) :
    .integer v ∈ t.supply fun v => [v] :=
  mem_supply h (List.mem_map.mpr ⟨v, by simp, rfl⟩)

theorem elementKey_mem_supply {i : UInt16} {c : Constant} (h : t.HasElement i c) :
    c.elementKey ∈ t.supply narrowings := by
  have integer {c : Constant} (key : c.elementKey = .integer c.intValue)
      (h : ∃ v, t.integerAt i = .ok v ∧ Constant.ofIntegerTag? c.tag v = some c) :
      c.elementKey ∈ t.supply narrowings := by
    obtain ⟨v, found, kind⟩ := h
    rw [key]
    exact integer_mem_supply found (intValue_mem_narrowings kind)
  cases c with
  | string s => exact text_mem_supply h
  | classLiteral s => exact text_mem_supply h
  | long v =>
    obtain ⟨e, found, picked⟩ := bind_eq_ok.mp h
    cases e <;> cases picked
    exact mem_supply_of_entryAt found List.mem_cons_self
  | float b =>
    obtain ⟨e, found, picked⟩ := bind_eq_ok.mp h
    cases e <;> cases picked
    exact mem_supply_of_entryAt found List.mem_cons_self
  | double b =>
    obtain ⟨e, found, picked⟩ := bind_eq_ok.mp h
    cases e <;> cases picked
    exact mem_supply_of_entryAt found List.mem_cons_self
  | _ => exact integer rfl h

theorem fieldKey_mem_supply {descriptor : Text} {i : UInt16} {c : Constant}
    (h : t.constantAt descriptor i = .ok c) : c.fieldKey ∈ t.supply narrowings := by
  obtain ⟨e, found, picked⟩ := bind_eq_ok.mp h
  cases e with
  | integer w =>
    have kind := Constant.ofFieldInteger_eq descriptor w.toInt32
    rw [Except.ok.inj picked] at kind
    have key : c.fieldKey = .integer c.intValue := by
      have isInteger := (Constant.tag_of_ofIntegerTag? kind).2
      cases c <;> first | rfl | cases isInteger
    rw [key]
    exact mem_supply_of_entryAt found (List.mem_map.mpr ⟨_, intValue_mem_narrowings kind, rfl⟩)
  | string j =>
    obtain ⟨s, text, picked⟩ := bind_eq_ok.mp picked
    cases picked
    exact mem_supply_of_entryAt found (by simp [entryKeys, text, Except.toOption, Constant.fieldKey])
  | long v =>
    cases picked
    exact mem_supply_of_entryAt found List.mem_cons_self
  | float b =>
    cases picked
    exact mem_supply_of_entryAt found List.mem_cons_self
  | double b =>
    cases picked
    exact mem_supply_of_entryAt found List.mem_cons_self
  | _ => cases picked

theorem coveredBy_supply (t : ConstantTable) : t.CoveredBy (t.supply narrowings) where
  text := text_mem_supply
  classRef h := by
    obtain ⟨j, found, name⟩ := classNameAt_eq_ok.mp h
    exact mem_supply_of_entryAt found (by simp [entryKeys, name, Except.toOption])
  element := elementKey_mem_supply
  constant := fieldKey_mem_supply

/-- Supplies of one table differ in integers only. -/
theorem suppliesAlso_supply (t : ConstantTable) (ints ints' : Int32 → List Int32) :
    SuppliesAlso (t.supply ints) (t.supply ints') := by
  intro k mem other
  obtain ⟨e, there, key⟩ := List.mem_flatMap.mp mem
  refine List.mem_flatMap.mpr ⟨e, there, ?_⟩
  cases e with
  | integer v =>
    obtain ⟨n, -, rfl⟩ := List.mem_map.mp key
    exact absurd rfl (other n)
  | _ => exact key

/-! ## The supply is large enough and no larger -/

theorem totalSlots_map_integer (vs : List Int32) :
    totalSlots (vs.map PoolKey.integer) = vs.length := by
  simp [totalSlots, Function.comp_def, PoolKey.slots]

/-- The keys of an item take the indexes of the item, and `extra` more for an integer. -/
theorem totalSlots_item {extra : Nat} (few : ∀ v, (ints v).length ≤ 1 + extra)
    (item : PoolItem) :
    totalSlots (item.entries.flatMap (t.entryKeys ints)) ≤
      item.entries.length + extra * item.entries.countP (·.tag == tagInteger) := by
  have reference (name : Except ReadError Text) (key : Text → PoolKey)
      (one : ∀ s, (key s).slots = 1) : totalSlots (name.toOption.toList.map key) ≤ 1 := by
    cases name with
    | error e => exact Nat.zero_le _
    | ok s => simp [Except.toOption, totalSlots, one]
  cases item with
  | integer v =>
    change totalSlots ([TableEntry.integer v].flatMap (t.entryKeys ints)) ≤ 1 + extra * 1
    rw [List.flatMap_singleton, entryKeys, totalSlots_map_integer, Nat.mul_one]
    exact few v.toInt32
  | classRef i =>
    have keys : totalSlots ([TableEntry.classRef i].flatMap (t.entryKeys ints)) ≤ 1 := by
      rw [List.flatMap_singleton]
      exact reference _ _ fun _ => rfl
    exact Nat.le_trans keys (Nat.le_add_right 1 _)
  | string i =>
    have keys : totalSlots ([TableEntry.string i].flatMap (t.entryKeys ints)) ≤ 1 := by
      rw [List.flatMap_singleton]
      exact reference _ _ fun _ => rfl
    exact Nat.le_trans keys (Nat.le_add_right 1 _)
  | other tag contents => exact Nat.zero_le _
  | long v => exact Nat.le_add_right 2 _
  | double b => exact Nat.le_add_right 2 _
  | _ => exact Nat.le_add_right 1 _

theorem totalSlots_supply {extra : Nat} (few : ∀ v, (ints v).length ≤ 1 + extra)
    (items : List PoolItem) :
    1 + totalSlots ((tableOf items).supply ints) ≤
      (tableOf items).size + extra * (tableOf items).integerCount := by
  have each (t : ConstantTable) (items : List PoolItem) :
      totalSlots ((items.flatMap PoolItem.entries).flatMap (t.entryKeys ints)) ≤
        (items.flatMap PoolItem.entries).length +
          extra * (items.flatMap PoolItem.entries).countP (·.tag == tagInteger) := by
    induction items with
    | nil => exact Nat.zero_le _
    | cons item items ih =>
      have first := totalSlots_item (t := t) few item
      rw [List.flatMap_cons, List.flatMap_append, totalSlots_append, List.length_append,
        List.countP_append, Nat.mul_add]
      omega
  have all := each (tableOf items) items
  have size : (tableOf items).size = 1 + (items.flatMap PoolItem.entries).length := by
    rw [tableOf, List.size_toArray, List.length_cons, Nat.add_comm]
  have count : (tableOf items).integerCount =
      (items.flatMap PoolItem.entries).countP (·.tag == tagInteger) :=
    List.countP_cons_of_neg (by decide)
  rw [size, count, Nat.add_assoc]
  exact Nat.add_le_add_left all 1

/-- The key of a text is that of its entry. -/
theorem eq_utf8_of_text_mem {e : TableEntry} {s : Text} (key : .text s ∈ t.entryKeys ints e) :
    e = .utf8 s := by
  cases e <;> simp_all [entryKeys]

/-- A class whose key is there has a name. -/
theorem exists_utf8At_of_classRef_mem {e : TableEntry} {name : Text}
    (key : .classRef name ∈ t.entryKeys ints e) : ∃ i, t.utf8At i = .ok name := by
  cases e with
  | classRef i =>
    obtain ⟨_, there, same⟩ := List.mem_map.mp key
    cases same
    exact ⟨i, toOption_eq_some.mp (Option.mem_toList.mp there)⟩
  | _ => simp [entryKeys] at key

/-- A string whose key is there has a text. -/
theorem exists_utf8At_of_string_mem {e : TableEntry} {s : Text}
    (key : .string s ∈ t.entryKeys ints e) : ∃ i, t.utf8At i = .ok s := by
  cases e with
  | string i =>
    obtain ⟨_, there, same⟩ := List.mem_map.mp key
    cases same
    exact ⟨i, toOption_eq_some.mp (Option.mem_toList.mp there)⟩
  | _ => simp [entryKeys] at key

theorem length_le_of_mem_entries {item : PoolItem} {s : Text} (fits : item.Fits)
    (entry : .utf8 s ∈ item.entries) : s.length ≤ 0xFFFF := by
  cases item with
  | utf8 t =>
    cases List.mem_singleton.mp entry
    exact fits
  | _ => simp [PoolItem.entries, PoolItem.isWide, PoolItem.entry] at entry

/-- What the items of a pool stand for is a supply, if there are indexes enough. -/
theorem isSupply_supply {items : List PoolItem} (fits : ∀ i ∈ items, i.Fits)
    (slots : 1 + totalSlots ((tableOf items).supply ints) ≤ 0xFFFF) :
    IsSupply ((tableOf items).supply ints) where
  texts s mem := by
    obtain ⟨e, there, key⟩ := List.mem_flatMap.mp mem
    obtain rfl := eq_utf8_of_text_mem key
    rcases List.mem_cons.mp there with first | there
    · cases first
    · obtain ⟨item, inside, entry⟩ := List.mem_flatMap.mp there
      exact length_le_of_mem_entries (fits item inside) entry
  classes name mem := by
    obtain ⟨e, -, key⟩ := List.mem_flatMap.mp mem
    exact text_mem_supply (exists_utf8At_of_classRef_mem key).choose_spec
  strings s mem := by
    obtain ⟨e, -, key⟩ := List.mem_flatMap.mp mem
    exact text_mem_supply (exists_utf8At_of_string_mem key).choose_spec
  slots := slots

end ConstantTable

/-! ## Outlines -/

/-- The small kinds of constants that are stored as 32-bit integers. -/
def Constant.isNarrow : Constant → Bool
  | .boolean _ | .byte _ | .char _ | .short _ => true
  | _ => false

namespace Outline

/-- The constant is one that the outline tells. -/
def Holds (o : Outline) (c : Constant) : Prop :=
  ∃ events, o.replay = .ok events ∧ ∃ e ∈ events, e.constant? = some c

/-- Every small integer constant of the outline is the same number in the table. -/
def NarrowStored (o : Outline) (t : ConstantTable) : Prop :=
  ∀ c, o.Holds c → c.isNarrow → .integer c.intValue.toUInt32 ∈ t

/-- The outline is encoded, and the constant pool of its file counts no more than the limit. -/
def EncodesWithin (o : Outline) (limit : Nat) : Prop :=
  ∃ bytes count, o.encode = .ok bytes ∧ CountsIndexes bytes count ∧ count.toNat ≤ limit

end Outline

/-- A file that is gone through has a constant pool of items, counted in front of it. -/
theorem exists_pool_of_scan {d : ByteArray} {l : ClassLayout} (h : ClassLayout.scan d = .ok l) :
    ∃ (items : List PoolItem) (count : UInt16) (stop : Nat), (∀ i ∈ items, i.Fits) ∧
      l.table = tableOf items ∧ CountsIndexes d count ∧ scanPool d 8 = .ok (l.table, stop) ∧
      l.table.size = count.toNat := by
  obtain ⟨f, laidOut⟩ := exists_classFile_of_scan h
  have pool : HoldsAt d 8 (encodePool f.pool) := laidOut.held.right.right.right.left
  have scanned := scanPool_eq laidOut.pool laidOut.size pool
  refine ⟨f.pool, f.table.size.toUInt16, 8 + (encodePool f.pool).length, laidOut.pool,
    laidOut.table, scanU2_eq_ok.mpr ⟨pool.left, rfl⟩, ?_, ?_⟩
  · rw [laidOut.table]
    exact scanned
  · rw [laidOut.table, toNat_toUInt16 laidOut.size]

/-- Of a file that is accepted, the outline is encoded if the constant pool of the file has four
indexes left for each of its integers, and takes no more than these.  If the small integer
constants of the outline are stored as the numbers that they are, the outline is encoded in any
case and needs no index more than the file has. -/
theorem exists_encodesWithin (file : Text) {d : ByteArray}
    (accepted : (readClass d).result = .ok ()) :
    ∃ o count t stop, Outline.ofClassFile file d = .ok (o, .ok ()) ∧ CountsIndexes d count ∧
      scanPool d 8 = .ok (t, stop) ∧ t.size = count.toNat ∧
      (count.toNat + 4 * t.integerCount ≤ 0xFFFF →
        o.EncodesWithin (count.toNat + 4 * t.integerCount)) ∧
      (o.NarrowStored t → o.EncodesWithin count.toNat) := by
  have whole : readClass d = ⟨(readClass d).events, .ok ()⟩ := Delivery.ext rfl accepted
  obtain ⟨l, scanned, read⟩ := readClass_eq_ok.mp whole
  obtain ⟨items, count, stop, fits, table, counts, pool, size⟩ := exists_pool_of_scan scanned
  obtain ⟨c, told, nonneg, stored⟩ :=
    exists_storable_of_read scanned (ConstantTable.coveredBy_supply l.table) read
  rw [told] at whole read
  obtain ⟨o, outline, replay⟩ := exists_outline_of_readClass file nonneg whole
  refine ⟨o, count, l.table, stop, outline, counts, pool, size, ?_⟩
  have within (ints : Int32 → List Int32) (extra : Nat) (few : ∀ v, (ints v).length ≤ 1 + extra)
      (room : count.toNat + extra * l.table.integerCount ≤ 0xFFFF)
      (stored : c.canonical.stream.Storable (l.table.supply ints)) :
      o.EncodesWithin (count.toNat + extra * l.table.integerCount) := by
    have slots := ConstantTable.totalSlots_supply few items
    rw [← table, size] at slots
    have supply : IsSupply (l.table.supply ints) := by
      rw [table] at slots room ⊢
      exact ConstantTable.isSupply_supply fits (Nat.le_trans slots room)
    obtain ⟨bytes, n, encoded, counted, le⟩ := exists_encodeClass supply stored
    exact ⟨bytes, n, (encode_eq_ok_iff replay).mpr encoded, counted, Nat.le_trans le slots⟩
  refine ⟨fun room => within narrowings 4 (fun v => Nat.le_refl 5) room stored.canonical,
    fun narrow => ?_⟩
  -- With the integers as they are stored, every integer of the outline is supplied.
  have exactly : c.canonical.stream.Storable (l.table.supply fun v => [v]) := by
    refine stored.canonical.transfer (ConstantTable.suppliesAlso_supply l.table _ _)
      fun e mem x there isInteger => ConstantTable.integer_mem_supply_self ?_
    cases x with
    | int v =>
      have all := ClassLayout.read_tells d l
      rw [read] at all
      have kept := all e (c.stream.canonical_events_subset mem) v there
      rwa [show (Constant.int v).intValue = v by simp [Constant.intValue, Constant.bits,
        Constant.toInt32_lowHalf]]
    | long v => cases isInteger
    | float b => cases isInteger
    | double b => cases isInteger
    | string s => cases isInteger
    | classLiteral s => cases isInteger
    | _ => exact narrow _ ⟨_, replay, e, mem, there⟩ rfl
  have bound := within (fun v => [v]) 0 (fun _ => Nat.le_refl 1)
    (by rw [Nat.zero_mul]; exact Nat.le_of_lt_succ count.toNat_lt) exactly
  rwa [Nat.zero_mul] at bound

/-! ## One integer in five kinds -/

/-- A class with an annotation that has one integer of the constant pool in five kinds. -/
def fiveKindsFile : ClassFile where
  minor := 0
  major := 52
  pool := [.utf8 [65], .classRef 1, .utf8 (Text.ascii "RuntimeVisibleAnnotations"), .utf8 [88],
    .integer 0x1F1F2]
  flags := 0x21
  thisClass := 2
  superClass := 0
  interfaces := []
  fields := []
  methods := []
  attributes := [⟨3, [0, 1, 0, 4, 0, 1, 0, 4, 91, 0, 5] ++
    [90, 66, 67, 83, 73].flatMap fun tag => [tag, 0, 5]⟩]

/-- The bytes of the class. -/
def fiveKindsBytes : ByteArray := ⟨fiveKindsFile.encode.toArray⟩

theorem exists_encodesWithin_fiveKinds :
    (readClass fiveKindsBytes).result = .ok () ∧
      ∃ o, Outline.ofClassFile [] fiveKindsBytes = .ok (o, .ok ()) ∧ o.EncodesWithin (6 + 4) := by
  have accepted : (readClass fiveKindsBytes).result = .ok () := rfl
  obtain ⟨o, count, t, stop, outline, counts, pool, -, bound, -⟩ :=
    exists_encodesWithin [] accepted
  have counted : scanU2 fiveKindsBytes 8 = .ok (6, 10) := rfl
  have table : (scanPool fiveKindsBytes 8).map Prod.fst = .ok fiveKindsFile.table := rfl
  rw [pool] at table
  obtain rfl : t = fiveKindsFile.table := Except.ok.inj table
  obtain rfl : count = 6 := congrArg Prod.fst (Except.ok.inj (counts.symm.trans counted))
  have single : fiveKindsFile.table.integerCount = 1 := rfl
  rw [single] at bound
  exact ⟨accepted, o, outline, bound (by decide)⟩

end ClassAbi
