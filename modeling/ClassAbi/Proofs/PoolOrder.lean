import ClassAbi.Proofs.PoolGrowth
import ClassAbi.Proofs.PoolSupply
import Mathlib.Data.List.Nodup

/-!
# The order of a constant pool

The entries of a pool under construction stand for keys, and the pool depends on the keys
in the order of first use alone.  The entries stand in this order, and an entry has as its
index one more than the indexes that the keys before it take (`numberIn`).

`Pool.Lists p K` says that `p` is the pool of the keys `K`.  Adding an entry keeps it, with
a new key at the end of `K` (`Pool.Lists.add`).  What the table of such a pool finds at an
index is the key with this number (`Pool.Lists.finds_iff`).
-/

namespace ClassAbi

/-! ## Numbers of keys -/

/-- The text that the entry for the key refers to. -/
def PoolKey.text? : PoolKey → Option Text
  | classRef name => some name
  | string t => some t
  | _ => none

/-- The keys whose entries adding the key leaves in the pool, in their order. -/
def PoolKey.uses (k : PoolKey) : List PoolKey := (k.text?.map .text).toList ++ [k]

/-- The index of the key in the pool of the keys. -/
def numberIn (K : List PoolKey) (k : PoolKey) : Nat := 1 + totalSlots (K.take (K.idxOf k))

/-- The entry for the key in the pool of the keys. -/
def PoolKey.entryIn (K : List PoolKey) : PoolKey → PoolEntry
  | .text t => .utf8 t
  | .integer v => .integer v
  | .float b => .float b
  | .long v => .long v
  | .double b => .double b
  | .classRef name => .classRef (numberIn K (.text name)).toUInt16
  | .string t => .string (numberIn K (.text t)).toUInt16

theorem PoolKey.slots_entryIn (K : List PoolKey) (k : PoolKey) : (k.entryIn K).slots = k.slots := by
  cases k <;> rfl

theorem PoolKey.slots_pos (k : PoolKey) : 0 < k.slots := by
  cases k <;> simp [slots]

section Numbers

variable {K L : List PoolKey} {k k' : PoolKey}

theorem totalSlots_concat (K : List PoolKey) (k : PoolKey) :
    totalSlots (K ++ [k]) = totalSlots K + k.slots := by
  rw [totalSlots_append]
  simp [totalSlots]

/-- What comes before the end of a list takes no more than the list. -/
theorem totalSlots_take_le (K : List PoolKey) (n : Nat) : totalSlots (K.take n) ≤ totalSlots K := by
  have split := totalSlots_append (K.take n) (K.drop n)
  rw [List.take_append_drop] at split
  omega

/-- The indexes of a key end before those of a later one begin. -/
theorem numberIn_add_le (h : K.idxOf k < K.idxOf k') : numberIn K k + k.slots ≤ numberIn K k' := by
  have inside : K.idxOf k < K.length := Nat.lt_of_lt_of_le h List.idxOf_le_length
  have upTo : K.take (K.idxOf k + 1) = K.take (K.idxOf k) ++ [k] := by
    rw [List.take_succ_eq_append_getElem inside, List.getElem_idxOf]
  have before := totalSlots_take_le (K.take (K.idxOf k')) (K.idxOf k + 1)
  rw [List.take_take, Nat.min_eq_left h, upTo, totalSlots_concat] at before
  unfold numberIn
  omega

theorem numberIn_add_le_total (mem : k ∈ K) : numberIn K k + k.slots ≤ 1 + totalSlots K := by
  have inside : K.idxOf k < K.length := List.idxOf_lt_length_iff.mpr mem
  have upTo := totalSlots_take_le K (K.idxOf k + 1)
  rw [List.take_succ_eq_append_getElem inside, List.getElem_idxOf, totalSlots_concat] at upTo
  unfold numberIn
  omega

/-- Different keys have different numbers. -/
theorem numberIn_inj (mem : k ∈ K) (h : numberIn K k = numberIn K k') : k = k' := by
  rcases Nat.lt_trichotomy (K.idxOf k) (K.idxOf k') with before | same | after
  · have := numberIn_add_le before
    have := k.slots_pos
    omega
  · exact (List.idxOf_inj mem).mp same
  · have := numberIn_add_le after
    have := k'.slots_pos
    omega

theorem numberIn_append (mem : k ∈ K) (L : List PoolKey) : numberIn (K ++ L) k = numberIn K k := by
  rw [numberIn, numberIn, List.idxOf_append_of_mem mem,
    List.take_append_of_le_length List.idxOf_le_length]

/-- A key that is not among the first ones comes behind all of them. -/
theorem le_numberIn_append (new : k ∉ K) (L : List PoolKey) :
    1 + totalSlots K ≤ numberIn (K ++ L) k := by
  have first := totalSlots_take_le ((K ++ L).take ((K ++ L).idxOf k)) K.length
  rw [List.take_take, List.idxOf_append_of_notMem new, Nat.min_eq_left (Nat.le_add_right _ _),
    List.take_append_of_le_length (Nat.le_refl _), List.take_length] at first
  rw [numberIn, List.idxOf_append_of_notMem new]
  omega

theorem numberIn_concat (new : k ∉ K) : numberIn (K ++ [k]) k = 1 + totalSlots K := by
  rw [numberIn, List.idxOf_append_of_notMem new, List.idxOf_cons_self, Nat.add_zero,
    List.take_append_of_le_length (Nat.le_refl _), List.take_length]

end Numbers

/-! ## Entries of keys -/

/-- The text that the key refers to is among the keys before it. -/
def RefersBack (K : List PoolKey) (k : PoolKey) : Prop :=
  ∀ t ∈ k.text?, .text t ∈ K ∧ numberIn K (.text t) < numberIn K k

section Entries

variable {K : List PoolKey} {k k' : PoolKey}

/-- The entry for a key depends on the keys up to the text that it refers to. -/
theorem PoolKey.entryIn_append (texts : ∀ t ∈ k.text?, .text t ∈ K) (L : List PoolKey) :
    k.entryIn (K ++ L) = k.entryIn K := by
  cases k with
  | classRef name => simp only [entryIn, numberIn_append (texts name rfl)]
  | string t => simp only [entryIn, numberIn_append (texts t rfl)]
  | _ => rfl

/-- Numbers in the pool fit an index. -/
theorem toNat_numberIn (room : 1 + totalSlots K ≤ 0xFFFF) (mem : k ∈ K) :
    (numberIn K k).toUInt16.toNat = numberIn K k := by
  have := numberIn_add_le_total mem
  exact toNat_toUInt16 (by omega)

/-- Different keys have different entries. -/
theorem PoolKey.entryIn_inj (room : 1 + totalSlots K ≤ 0xFFFF) (texts : ∀ t ∈ k.text?, .text t ∈ K)
    (texts' : ∀ t ∈ k'.text?, .text t ∈ K) (h : k.entryIn K = k'.entryIn K) : k = k' := by
  have reference {s t : Text} (hs : .text s ∈ K) (ht : .text t ∈ K)
      (same : (numberIn K (.text s)).toUInt16 = (numberIn K (.text t)).toUInt16) : s = t := by
    rw [← UInt16.toNat_inj, toNat_numberIn room hs, toNat_numberIn room ht] at same
    exact PoolKey.text.inj (numberIn_inj hs same)
  cases k with
  | classRef name =>
    cases k' <;> try cases h
    next name' => rw [reference (texts name rfl) (texts' name' rfl) (PoolEntry.classRef.inj h)]
  | string s =>
    cases k' <;> try cases h
    next t => rw [reference (texts s rfl) (texts' t rfl) (PoolEntry.string.inj h)]
  | _ =>
    cases k' <;> first | (cases h; done) | (injection h with h; rw [h])

end Entries

/-! ## What an index stands for -/

/-- The table has the key at the index, as the lookups for its kind find it. -/
def ConstantTable.Finds (t : ConstantTable) (index : UInt16) : PoolKey → Prop
  | .text s => t.utf8At index = .ok s
  | .integer v => t.integerAt index = .ok v
  | .float b => t.floatAt index = .ok (.float b)
  | .long v => t.longAt index = .ok (.long v)
  | .double b => t.doubleAt index = .ok (.double b)
  | .classRef name => t.classNameAt index = .ok name
  | .string s => ∀ descriptor, t.constantAt descriptor index = .ok (.string s)

/-- The key that an entry of the table stands for. -/
def ConstantTable.keyOf (t : ConstantTable) : TableEntry → Option PoolKey
  | .utf8 s => some (.text s)
  | .integer v => some (.integer v.toInt32)
  | .float b => some (.float b)
  | .long v => some (.long v.toInt64)
  | .double b => some (.double b)
  | .classRef i => (t.utf8At i).toOption.map .classRef
  | .string i => (t.utf8At i).toOption.map .string
  | .unusable | .other _ => none

namespace ConstantTable

variable {t : ConstantTable} {index : UInt16} {k k' : PoolKey}

/-- A lookup finds what its entry stands for. -/
theorem finds_iff : t.Finds index k ↔ ∃ e, t.entryAt index = .ok e ∧ t.keyOf e = some k := by
  cases k with
  | text s =>
    refine utf8At_eq_ok.trans ⟨fun h => ⟨_, h, rfl⟩, ?_⟩
    rintro ⟨e, found, key⟩
    cases e <;> simp [keyOf] at key
    rw [found, key]
  | string s =>
    constructor
    · intro h
      obtain ⟨e, found, picked⟩ := bind_eq_ok.mp (h [])
      refine ⟨e, found, ?_⟩
      cases e with
      | string i =>
        obtain ⟨value, text, picked⟩ := bind_eq_ok.mp picked
        cases picked
        simp [keyOf, text, Except.toOption]
      | _ => cases picked
    · rintro ⟨e, found, key⟩ descriptor
      cases e <;> simp [keyOf, toOption_eq_some] at key
      exact bind_eq_ok.mpr ⟨_, found, bind_eq_ok.mpr ⟨s, key, rfl⟩⟩
  | classRef name =>
    refine classNameAt_eq_ok.trans ⟨?_, ?_⟩
    · rintro ⟨i, found, text⟩
      exact ⟨_, found, by simp [keyOf, text, Except.toOption]⟩
    · rintro ⟨e, found, key⟩
      cases e <;> simp [keyOf, toOption_eq_some] at key
      exact ⟨_, found, key⟩
  | _ =>
    refine bind_eq_ok.trans (exists_congr fun e => and_congr_right fun _ => ?_)
    cases e <;> simp [keyOf, toOption_eq_some, pure, Except.pure]

/-- An index stands for one key. -/
theorem Finds.unique (h : t.Finds index k) (h' : t.Finds index k') : k = k' := by
  obtain ⟨e, found, key⟩ := finds_iff.mp h
  obtain ⟨e', found', key'⟩ := finds_iff.mp h'
  obtain rfl : e = e' := Except.ok.inj (found.symm.trans found')
  exact Option.some.inj (key.symm.trans key')

end ConstantTable

/-! ## Bytes of entries -/

/-- Entries are told apart by their bytes. -/
theorem PoolEntry.encode_injective {e e' : PoolEntry} (h : e.encode = e'.encode) : e = e' := by
  cases e <;> cases e' <;> obtain ⟨tags, contents⟩ := List.cons.inj h <;>
    first | exact absurd tags (by decide) | skip
  case utf8.utf8 => rw [(List.append_inj contents rfl).2]
  case integer.integer => exact congrArg _ (by simpa using congrArg UInt32.toInt32 (bytesU4_injective contents))
  case float.float => rw [bytesU4_injective contents]
  case long.long => exact congrArg _ (by simpa using congrArg UInt64.toInt64 (bytesU8_injective contents))
  case double.double => rw [bytesU8_injective contents]
  case classRef.classRef => rw [bytesU2_injective contents]
  case string.string => rw [bytesU2_injective contents]

/-- The first of the entries that an item makes is its own, and another one is unusable. -/
theorem PoolItem.of_getElem?_entries {item : PoolItem} {n : Nat} {e : TableEntry}
    (h : item.entries[n]? = some e) : n = 0 ∧ item.entry = e ∨ e = .unusable := by
  unfold entries at h
  split at h
  · match n with
    | 0 => exact .inl ⟨rfl, Option.some.inj h⟩
    | 1 => exact .inr (Option.some.inj h).symm
  · match n with
    | 0 => exact .inl ⟨rfl, Option.some.inj h⟩

namespace Pool

/-- The pool with one more entry, at its next index. -/
def push (p : Pool) (e : PoolEntry) : Pool :=
  ⟨p.entries.push e, p.indexes.insert e p.next, p.next + e.slots.toUInt16⟩

theorem add_cases {p q : Pool} {e : PoolEntry} {i : UInt16} (h : p.add e = .ok (i, q)) :
    p.indexes[e]? = some i ∧ q = p ∨
      p.indexes[e]? = none ∧ p.next.toNat + e.slots ≤ 0xFFFF ∧ i = p.next ∧ q = p.push e := by
  unfold add at h
  split at h
  · next index found =>
    cases h
    exact .inl ⟨found, rfl⟩
  · next absent =>
    split at h
    · next inside =>
      cases h
      exact .inr ⟨absent, inside, rfl, rfl⟩
    · cases h

/-! ## The pool of a list of keys -/

/-- The pool has the entries of the keys, in their order and at their numbers. -/
structure Lists (p : Pool) (K : List PoolKey) : Prop where
  wellFormed : p.WellFormed
  distinct : K.Nodup
  back : ∀ k ∈ K, RefersBack K k
  entries : p.entries.toList = K.map (PoolKey.entryIn K)
  next : p.next.toNat = 1 + totalSlots K
  indexes : ∀ (e : PoolEntry) i, p.indexes[e]? = some i ↔
    ∃ k ∈ K, k.entryIn K = e ∧ i.toNat = numberIn K k
  /-- Nothing is in the table that no index is remembered for. -/
  complete : ∀ i e, p.table.entryAt i = .ok e → e = .unusable ∨
    ∃ entry : PoolEntry, p.indexes[entry]? = some i ∧ entry.item.entry = e

theorem lists_empty : (∅ : Pool).Lists [] where
  wellFormed := wellFormed_empty
  distinct := .nil
  back k mem := by cases mem
  entries := rfl
  next := rfl
  indexes e i := by
    have none : (∅ : Pool).indexes[e]? = none := Std.HashMap.getElem?_empty
    simp [none]
  complete i e found := by
    obtain ⟨nonzero, found⟩ := ConstantTable.entryAt_eq_ok.mp found
    obtain ⟨lt, -⟩ := Array.getElem?_eq_some_iff.mp found
    have : i.toNat < 1 := lt
    exact absurd (UInt16.toNat_inj.mp (Nat.lt_one_iff.mp this)) nonzero

namespace Lists

variable {p q : Pool} {K L : List PoolKey} {k : PoolKey} {i : UInt16}

theorem room (h : p.Lists K) : 1 + totalSlots K ≤ 0xFFFF := by
  rw [← h.next]
  exact Nat.le_of_lt_succ p.next.toNat_lt

/-- A key of the pool is remembered with its number. -/
theorem index_of_mem (h : p.Lists K) (mem : k ∈ K) :
    p.indexes[k.entryIn K]? = some (numberIn K k).toUInt16 :=
  (h.indexes _ _).mpr ⟨k, mem, rfl, toNat_numberIn h.room mem⟩

/-- A key is in the pool if its entry is. -/
theorem mem_of_index (h : p.Lists K) (texts : ∀ t ∈ k.text?, .text t ∈ K)
    (found : p.indexes[k.entryIn K]? = some i) : k ∈ K ∧ i.toNat = numberIn K k := by
  obtain ⟨k', mem, same, number⟩ := (h.indexes _ _).mp found
  obtain rfl := PoolKey.entryIn_inj h.room (fun t ht => (h.back k' mem t ht).1) texts same
  exact ⟨mem, number⟩

/-- The entry for a key of the pool stays when a key is added. -/
theorem entryIn_concat (h : p.Lists K) (mem : k ∈ K) (k' : PoolKey) :
    k.entryIn (K ++ [k']) = k.entryIn K :=
  PoolKey.entryIn_append (fun t ht => (h.back k mem t ht).1) [k']

/-- The entries of the keys stay when a key is added. -/
theorem indexes_push (h : p.Lists K) (new : k ∉ K) (texts : ∀ t ∈ k.text?, .text t ∈ K)
    (e : PoolEntry) (j : UInt16) : (p.push (k.entryIn K)).indexes[e]? = some j ↔
      ∃ k' ∈ K ++ [k], k'.entryIn (K ++ [k]) = e ∧ j.toNat = numberIn (K ++ [k]) k' := by
  have last : k.entryIn (K ++ [k]) = k.entryIn K := PoolKey.entryIn_append texts [k]
  have inserted : (p.push (k.entryIn K)).indexes[e]? =
      if k.entryIn K == e then some p.next else p.indexes[e]? := Std.HashMap.getElem?_insert
  rw [inserted]
  constructor
  · intro found
    split at found
    · next same =>
      cases found
      refine ⟨k, by simp, last.trans (beq_iff_eq.mp same), ?_⟩
      rw [numberIn_concat new, h.next]
    · obtain ⟨k', mem, entry, number⟩ := (h.indexes _ _).mp found
      exact ⟨k', List.mem_append_left _ mem, (h.entryIn_concat mem k).trans entry,
        number.trans (numberIn_append mem [k]).symm⟩
  · rintro ⟨k', mem, rfl, number⟩
    rcases List.mem_append.mp mem with mem | mem
    · rw [h.entryIn_concat mem, numberIn_append mem] at *
      have found : p.indexes[k'.entryIn K]? = some j := (h.indexes _ _).mpr ⟨k', mem, rfl, number⟩
      have other : k.entryIn K ≠ k'.entryIn K := fun same =>
        new (h.mem_of_index texts (same ▸ found)).1
      rw [if_neg (by simpa using other), found]
    · obtain rfl := List.mem_singleton.mp mem
      rw [numberIn_concat new, ← h.next] at number
      rw [last, if_pos BEq.rfl, UInt16.toNat_inj.mp number]

/-- The table has no more than the new entry. -/
theorem complete_push (h : p.Lists K) (new : p.indexes[k.entryIn K]? = none) (j : UInt16)
    (e : TableEntry) (found : (p.push (k.entryIn K)).table.entryAt j = .ok e) : e = .unusable ∨
      ∃ entry : PoolEntry, (p.push (k.entryIn K)).indexes[entry]? = some j ∧
        entry.item.entry = e := by
  have inserted (e' : PoolEntry) : (p.push (k.entryIn K)).indexes[e']? =
      if k.entryIn K == e' then some p.next else p.indexes[e']? := Std.HashMap.getElem?_insert
  obtain ⟨nonzero, found⟩ := ConstantTable.entryAt_eq_ok.mp found
  rw [push, table_push] at found
  rcases Nat.lt_or_ge j.toNat p.table.size with old | fresh
  · rw [Array.getElem?_append_left old] at found
    rcases h.complete j e (ConstantTable.entryAt_eq_ok.mpr ⟨nonzero, found⟩) with
      unusable | ⟨entry, index, same⟩
    · exact .inl unusable
    · refine .inr ⟨entry, ?_, same⟩
      rw [inserted, if_neg, index]
      rintro equal
      rw [beq_iff_eq.mp equal, index] at new
      cases new
  · rw [Array.getElem?_append_right fresh, List.getElem?_toArray] at found
    rcases PoolItem.of_getElem?_entries found with ⟨first, same⟩ | unusable
    · have number : p.next = j := by
        rw [← UInt16.toNat_inj, ← h.wellFormed.size]
        omega
      exact .inr ⟨k.entryIn K, by rw [inserted, if_pos BEq.rfl, number], same⟩
    · exact .inl unusable

/-- Adding the entry for a key that is not there adds the key. -/
theorem add (h : p.Lists K) (texts : ∀ t ∈ k.text?, .text t ∈ K)
    (fits : (k.entryIn K).item.Fits) (added : p.add (k.entryIn K) = .ok (i, q)) :
    q.Lists (if k ∈ K then K else K ++ [k]) ∧
      i.toNat = numberIn (if k ∈ K then K else K ++ [k]) k := by
  have grows := (add_spec h.wellFormed fits added).1
  rcases add_cases added with ⟨found, rfl⟩ | ⟨absent, inside, rfl, rfl⟩
  · obtain ⟨mem, number⟩ := h.mem_of_index texts found
    rw [if_pos mem]
    exact ⟨h, number⟩
  · have new : k ∉ K := fun mem => by
      rw [h.index_of_mem mem] at absent
      cases absent
    have start := h.next
    rw [if_neg new]
    refine ⟨⟨grows.wellFormed, ?_, ?_, ?_, ?_, h.indexes_push new texts, h.complete_push absent⟩,
      by rw [numberIn_concat new, start]⟩
    · refine List.nodup_append.mpr ⟨h.distinct, by simp, ?_⟩
      rintro k' mem _ last rfl
      exact new (List.mem_singleton.mp last ▸ mem)
    · intro k' mem t ht
      rcases List.mem_append.mp mem with mem | last
      · obtain ⟨text, before⟩ := h.back k' mem t ht
        exact ⟨List.mem_append_left _ text, by rwa [numberIn_append text, numberIn_append mem]⟩
      · obtain rfl := List.mem_singleton.mp last
        have text := texts t ht
        refine ⟨List.mem_append_left _ text, ?_⟩
        have := numberIn_add_le_total text
        have := (PoolKey.text t).slots_pos
        rw [numberIn_append text, numberIn_concat new]
        omega
    · have last : k.entryIn (K ++ [k]) = k.entryIn K := PoolKey.entryIn_append texts [k]
      have before : K.map (PoolKey.entryIn (K ++ [k])) = K.map (PoolKey.entryIn K) :=
        List.map_congr_left fun k' mem => h.entryIn_concat mem k
      simp [push, h.entries, before, last]
    · rw [k.slots_entryIn] at inside
      rw [totalSlots_concat, push, UInt16.toNat_add, k.slots_entryIn, UInt16.toNat_ofNat']
      omega

/-- The table has the entry of a key of the pool at its number. -/
theorem entryAt_of_mem (h : p.Lists K) (mem : k ∈ K) (number : i.toNat = numberIn K k) :
    p.table.entryAt i = .ok (k.entryIn K).item.entry :=
  h.wellFormed.known _ _ ((h.indexes _ _).mpr ⟨k, mem, rfl, number⟩)

theorem utf8At_of_mem (h : p.Lists K) {t : Text} (mem : .text t ∈ K) :
    p.table.utf8At (numberIn K (.text t)).toUInt16 = .ok t :=
  ConstantTable.utf8At_eq_ok.mpr
    (h.entryAt_of_mem (k := .text t) mem (toNat_numberIn h.room mem))

/-- The entry of a key stands for the key. -/
theorem keyOf_entryIn (h : p.Lists K) (mem : k ∈ K) :
    p.table.keyOf (k.entryIn K).item.entry = some k := by
  cases k with
  | classRef name =>
    have value := h.utf8At_of_mem (h.back _ mem name rfl).1
    simp [PoolKey.entryIn, PoolEntry.item, PoolItem.entry, ConstantTable.keyOf, value,
      Except.toOption]
  | string t =>
    have value := h.utf8At_of_mem (h.back _ mem t rfl).1
    simp [PoolKey.entryIn, PoolEntry.item, PoolItem.entry, ConstantTable.keyOf, value,
      Except.toOption]
  | _ => simp [PoolKey.entryIn, PoolEntry.item, PoolItem.entry, ConstantTable.keyOf]

/-- The table finds the keys of the pool, each at its number, and nothing else. -/
theorem finds_iff (h : p.Lists K) : p.table.Finds i k ↔ k ∈ K ∧ i.toNat = numberIn K k := by
  have found {k : PoolKey} (mem : k ∈ K) (number : i.toNat = numberIn K k) : p.table.Finds i k :=
    ConstantTable.finds_iff.mpr ⟨_, h.entryAt_of_mem mem number, h.keyOf_entryIn mem⟩
  refine ⟨fun finds => ?_, fun ⟨mem, number⟩ => found mem number⟩
  obtain ⟨e, there, key⟩ := ConstantTable.finds_iff.mp finds
  rcases h.complete i e there with rfl | ⟨entry, index, -⟩
  · cases key
  · obtain ⟨k', mem, -, number⟩ := (h.indexes _ _).mp index
    obtain rfl := finds.unique (found mem number)
    exact ⟨mem, number⟩

/-- A reference stands behind the text that it refers to. -/
theorem refers_back (h : p.Lists K) {j : UInt16}
    (found : p.table.entryAt i = .ok (.classRef j) ∨ p.table.entryAt i = .ok (.string j)) :
    j < i ∧ ∃ t, p.table.utf8At j = .ok t := by
  -- Only a key that refers to a text has such an entry.
  have behind {k : PoolKey} {t : Text} (mem : k ∈ K) (number : i.toNat = numberIn K k)
      (refers : k.text? = some t) : (numberIn K (.text t)).toUInt16 < i ∧
        ∃ t', p.table.utf8At (numberIn K (.text t)).toUInt16 = .ok t' := by
    obtain ⟨text, before⟩ := h.back k mem t refers
    refine ⟨?_, t, h.utf8At_of_mem text⟩
    rw [UInt16.lt_iff_toNat_lt, toNat_numberIn h.room text, number]
    exact before
  rcases found with found | found <;>
  · rcases h.complete _ _ found with unusable | ⟨entry, index, same⟩
    · cases unusable
    · obtain ⟨k, mem, rfl, number⟩ := (h.indexes _ _).mp index
      cases k <;> cases same
      exact behind mem number rfl

end Lists

end Pool

end ClassAbi
