import ClassAbi.ClassFile.Pool
import ClassAbi.Proofs.Constants
import ClassAbi.Proofs.Lookups
import ClassAbi.Proofs.StoredPool

/-!
# Constant pools that grow

A pool under construction is `WellFormed` if its next index is the size of the
table that its entries make, and every index it remembers has its entry in that
table.  Adding an entry keeps the pool well formed and only adds to the table
(`Pool.Grows`), and the index that comes back has the entry in the new table.
So the table of the final pool has everything that was ever added at the index
that was handed out for it.
-/

namespace ClassAbi

/-- The entry as an item of the class file. -/
def PoolEntry.item : PoolEntry → PoolItem
  | utf8 t => .utf8 t
  | integer v => .integer v.toUInt32
  | float b => .float b
  | long v => .long v.toUInt64
  | double b => .double b
  | classRef i => .classRef i
  | string i => .string i

namespace PoolEntry

theorem encode_item (e : PoolEntry) : e.item.encode = e.encode := by
  cases e <;> simp [item, encode, PoolItem.encode]

theorem length_entries_item (e : PoolEntry) : e.item.entries.length = e.slots := by
  cases e <;> rfl

/-- Nothing is put in a pool that no declaration can refer to. -/
theorem referable_item (e : PoolEntry) : e.item.entry.Referable := by
  cases e <;> trivial

end PoolEntry

namespace Pool

/-- The items of the pool in the order of their indexes. -/
def items (p : Pool) : List PoolItem := p.entries.toList.map PoolEntry.item

/-- The table that a reader makes of the pool. -/
def table (p : Pool) : ConstantTable := tableOf p.items

/-- What is remembered about the entries agrees with the entries. -/
structure WellFormed (p : Pool) : Prop where
  size : p.table.size = p.next.toNat
  known : ∀ (e : PoolEntry) index, p.indexes[e]? = some index → p.table.entryAt index = .ok e.item.entry
  fits : ∀ i ∈ p.items, i.Fits

/-- The pool after more entries were added. -/
structure Grows (p q : Pool) : Prop where
  wellFormed : q.WellFormed
  within : p.table.Within q.table

theorem WellFormed.grows {p : Pool} (h : p.WellFormed) : p.Grows p := ⟨h, .refl _⟩

theorem Grows.trans {p q r : Pool} (h : p.Grows q) (h' : q.Grows r) : p.Grows r :=
  ⟨h'.wellFormed, h.within.trans h'.within⟩

theorem wellFormed_empty : (∅ : Pool).WellFormed where
  size := rfl
  known := by
    intro e index h
    have : (∅ : Pool).indexes[e]? = none := Std.HashMap.getElem?_empty
    rw [this] at h
    cases h
  fits := by
    intro i h
    cases h

/-! ## Adding entries -/

theorem table_push (p : Pool) (e : PoolEntry) (indexes : Std.HashMap PoolEntry UInt16)
    (next : UInt16) :
    (⟨p.entries.push e, indexes, next⟩ : Pool).table = p.table ++ e.item.entries.toArray := by
  simp [table, items, tableOf]

/-- The index of an added entry has the entry. -/
theorem add_spec {p q : Pool} {e : PoolEntry} {index : UInt16} (hp : p.WellFormed)
    (fits : e.item.Fits) (h : p.add e = .ok (index, q)) :
    p.Grows q ∧ q.table.entryAt index = .ok e.item.entry := by
  unfold add at h
  split at h
  · next index' found =>
    cases h
    exact ⟨hp.grows, hp.known e index found⟩
  · next absent =>
    split at h
    · next room =>
      cases h
      have next_pos : 0 < p.next.toNat := by
        rw [← hp.size]
        simp [table, tableOf]
      have next_eq : (p.next + e.slots.toUInt16).toNat = p.next.toNat + e.slots := by
        rw [UInt16.toNat_add, UInt16.toNat_ofNat']
        omega
      have table_eq := table_push p e (p.indexes.insert e p.next) (p.next + e.slots.toUInt16)
      have within := ConstantTable.within_append p.table e.item.entries.toArray
      rw [← table_eq] at within
      have new : (⟨p.entries.push e, p.indexes.insert e p.next,
          p.next + e.slots.toUInt16⟩ : Pool).table.entryAt p.next = .ok e.item.entry := by
        refine ConstantTable.entryAt_eq_ok.mpr ⟨?_, ?_⟩
        · rintro zero
          rw [zero] at next_pos
          exact absurd next_pos (Nat.lt_irrefl 0)
        · rw [table_eq, Array.getElem?_append_right (Nat.le_of_eq hp.size), hp.size,
            Nat.sub_self]
          cases e <;> rfl
      refine ⟨⟨⟨?_, ?_, ?_⟩, within⟩, new⟩
      · rw [table_eq, Array.size_append, hp.size, List.size_toArray, e.length_entries_item]
        exact next_eq.symm
      · intro e' index' found
        rw [Std.HashMap.getElem?_insert] at found
        split at found
        · next same =>
          cases found
          rw [← beq_iff_eq.mp same]
          exact new
        · exact within _ _ e'.referable_item (hp.known e' index' found)
      · intro i hi
        simp only [items, Array.toList_push, List.map_append, List.map_cons, List.map_nil,
          List.mem_append, List.mem_singleton] at hi
        rcases hi with hi | rfl
        · exact hp.fits i hi
        · exact fits
    · cases h

theorem addUtf8_spec {p q : Pool} {t : Text} {index : UInt16} (hp : p.WellFormed)
    (h : p.addUtf8 t = .ok (index, q)) : p.Grows q ∧ q.table.utf8At index = .ok t := by
  unfold addUtf8 at h
  split at h
  · next short =>
    obtain ⟨grows, found⟩ := add_spec (e := .utf8 t) hp short h
    exact ⟨grows, ConstantTable.utf8At_eq_ok.mpr found⟩
  · cases h

theorem addClass_spec {p q : Pool} {name : Text} {index : UInt16} (hp : p.WellFormed)
    (h : p.addClass name = .ok (index, q)) :
    p.Grows q ∧ q.table.classNameAt index = .ok name := by
  obtain ⟨⟨i, r⟩, text, h⟩ := bind_eq_ok.mp h
  obtain ⟨grows, text⟩ := addUtf8_spec hp text
  obtain ⟨grows', found⟩ := add_spec (e := .classRef i) grows.wellFormed trivial h
  exact ⟨grows.trans grows',
    ConstantTable.classNameAt_eq_ok.mpr ⟨i, found, grows'.within.utf8At text⟩⟩

theorem addString_spec {p q : Pool} {t : Text} {index : UInt16} (hp : p.WellFormed)
    (h : p.addString t = .ok (index, q)) (descriptor : Text) :
    p.Grows q ∧ q.table.constantAt descriptor index = .ok (.string t) := by
  obtain ⟨⟨i, r⟩, text, h⟩ := bind_eq_ok.mp h
  obtain ⟨grows, text⟩ := addUtf8_spec hp text
  obtain ⟨grows', found⟩ := add_spec (e := .string i) grows.wellFormed trivial h
  exact ⟨grows.trans grows',
    bind_eq_ok.mpr ⟨_, found, bind_eq_ok.mpr ⟨t, grows'.within.utf8At text, rfl⟩⟩⟩

/-! ## Adding constants -/

/-- The index of the number that the class file keeps of an integer constant. -/
theorem addInteger_spec {p q : Pool} {v : Int32} {index : UInt16} (hp : p.WellFormed)
    (h : p.add (.integer v) = .ok (index, q)) :
    p.Grows q ∧ q.table.entryAt index = .ok (.integer v.toUInt32) :=
  add_spec (e := .integer v) hp trivial h

/-- The index of a field's initial value gives the value back, if it is of the kind of the
field. -/
theorem addConstant_spec {p q : Pool} {c : Constant} {index : UInt16} {descriptor : Text}
    (hp : p.WellFormed) (h : p.addConstant c = .ok (index, q)) :
    p.Grows q ∧ (c.FitsField descriptor → q.table.constantAt descriptor index = .ok c) := by
  cases c with
  | long v =>
    obtain ⟨grows, found⟩ := add_spec (e := .long v) hp trivial h
    exact ⟨grows, fun _ => bind_eq_ok.mpr ⟨_, found, rfl⟩⟩
  | float b =>
    obtain ⟨grows, found⟩ := add_spec (e := .float b) hp trivial h
    exact ⟨grows, fun _ => bind_eq_ok.mpr ⟨_, found, rfl⟩⟩
  | double b =>
    obtain ⟨grows, found⟩ := add_spec (e := .double b) hp trivial h
    exact ⟨grows, fun _ => bind_eq_ok.mpr ⟨_, found, rfl⟩⟩
  | string t =>
    obtain ⟨grows, found⟩ := addString_spec hp h descriptor
    exact ⟨grows, fun _ => found⟩
  | classLiteral t =>
    exact ⟨(addClass_spec hp h).1, fun fits => absurd rfl (fits.noClass t)⟩
  | _ =>
    obtain ⟨grows, found⟩ := addInteger_spec hp h
    refine ⟨grows, fun fits => bind_eq_ok.mpr ⟨_, found, ?_⟩⟩
    exact congrArg Except.ok (Constant.ofFieldInteger_intValue fits rfl)

/-- The index of an annotation's constant has the constant. -/
theorem addElement_spec {p q : Pool} {c : Constant} {index : UInt16} (hp : p.WellFormed)
    (h : p.addElement c = .ok (index, q)) : p.Grows q ∧ q.table.HasElement index c := by
  cases c with
  | long v =>
    obtain ⟨grows, found⟩ := add_spec (e := .long v) hp trivial h
    exact ⟨grows, bind_eq_ok.mpr ⟨_, found, rfl⟩⟩
  | float b =>
    obtain ⟨grows, found⟩ := add_spec (e := .float b) hp trivial h
    exact ⟨grows, bind_eq_ok.mpr ⟨_, found, rfl⟩⟩
  | double b =>
    obtain ⟨grows, found⟩ := add_spec (e := .double b) hp trivial h
    exact ⟨grows, bind_eq_ok.mpr ⟨_, found, rfl⟩⟩
  | string t => exact addUtf8_spec hp h
  | classLiteral t => exact addUtf8_spec hp h
  | _ =>
    obtain ⟨grows, found⟩ := addInteger_spec hp h
    exact ⟨grows, _, bind_eq_ok.mpr ⟨_, found, rfl⟩, Constant.ofIntegerTag?_intValue rfl⟩

/-! ## Writing the pool -/

/-- A pool is written as its items with the count of indexes in front. -/
theorem toList_put {p : Pool} (hp : p.WellFormed) (b : Buffer) :
    (p.put b).toList = b.toList ++ encodePool p.items := by
  have entries : ∀ (l : List PoolEntry) (b : Buffer),
      (l.foldl (fun b e => b.pushText e.encode) b).toList =
        b.toList ++ (l.map PoolEntry.item).flatMap PoolItem.encode := by
    intro l
    induction l with
    | nil => simp
    | cons e l ih => simp [ih, PoolEntry.encode_item]
  have next : p.next = p.table.size.toUInt16 := by
    rw [hp.size]
    simp
  rw [put, ← Array.foldl_toList, entries, Buffer.toList_pushU2, next, encodePool, List.append_assoc]
  rfl

end Pool

end ClassAbi
