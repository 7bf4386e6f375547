import ClassAbi.ClassFile.Pool
import ClassAbi.Proofs.Chains
import Mathlib.Algebra.GroupWithZero.Nat

/-!
# Pools that are large enough

A `PoolKey` is what an entry of a constant pool stands for, with no index in it.
A pool under construction has at most one entry for each key.  So a pool whose
entries all have their keys in a list, the *supply*, never has more indexes than
the keys of the supply take.

`Pool.Room` is the invariant: the indexes handed out, together with those that
the missing keys of the supply will take, are no more than the supply takes.
Adding an entry with a key of the supply succeeds and keeps it.
-/

namespace ClassAbi

/-! ## Keys -/

/-- What an entry of a constant pool stands for. -/
inductive PoolKey where
  /-- A text. -/
  | text (value : Text)
  /-- A 32-bit integer. -/
  | integer (value : Int32)
  /-- A single precision number, as its bits. -/
  | float (bits : UInt32)
  /-- A 64-bit integer. -/
  | long (value : Int64)
  /-- A double precision number, as its bits. -/
  | double (bits : UInt64)
  /-- A class, by its name. -/
  | classRef (name : Text)
  /-- A string, by its text. -/
  | string (value : Text)
deriving DecidableEq, Repr

/-- The number of indexes that the entry takes. -/
def PoolKey.slots : PoolKey → Nat
  | long _ => 2
  | double _ => 2
  | _ => 1

/-- The number of indexes that entries for the keys take. -/
def totalSlots (keys : List PoolKey) : Nat := (keys.map PoolKey.slots).sum

theorem totalSlots_append (U V : List PoolKey) :
    totalSlots (U ++ V) = totalSlots U + totalSlots V := by
  simp [totalSlots]

/-- Pools may be made of the keys: texts are short, what refers to a text comes with the text,
and there are indexes enough for all. -/
structure IsSupply (U : List PoolKey) : Prop where
  texts : ∀ t, .text t ∈ U → t.length ≤ 0xFFFF
  classes : ∀ name, .classRef name ∈ U → .text name ∈ U
  strings : ∀ t, .string t ∈ U → .text t ∈ U
  slots : 1 + totalSlots U ≤ 0xFFFF

namespace Constant

/-- The key of the entry that a field's initial value refers to. -/
def fieldKey : Constant → PoolKey
  | long v => .long v
  | float b => .float b
  | double b => .double b
  | string t => .string t
  | classLiteral t => .classRef t
  | c => .integer c.intValue

/-- The key of the entry that an annotation value refers to. -/
def elementKey : Constant → PoolKey
  | string t => .text t
  | classLiteral t => .text t
  | c => c.fieldKey

end Constant

/-! ## Items that are kept -/

section Weights

variable {α : Type} (w : α → Nat)

/-- The weight of the items of a list that are kept. -/
def keptWeight (keep : α → Bool) (l : List α) : Nat := ((l.filter keep).map w).sum

theorem keptWeight_cons (keep : α → Bool) (a : α) (l : List α) :
    keptWeight w keep (a :: l) = (if keep a then w a else 0) + keptWeight w keep l := by
  unfold keptWeight
  rw [List.filter_cons]
  split <;> simp

variable {keep keep' : α → Bool} (fewer : ∀ a, keep' a → keep a)

include fewer in
theorem keptWeight_le (l : List α) : keptWeight w keep' l ≤ keptWeight w keep l := by
  induction l with
  | nil => exact Nat.le_refl 0
  | cons x l ih =>
    have := fewer x
    rw [keptWeight_cons, keptWeight_cons]
    split <;> split <;> first | omega | exact absurd (this ‹_›) ‹_›

include fewer in
/-- Without an item that was kept, what is kept weighs less by the weight of the item. -/
theorem keptWeight_add_le {a : α} {l : List α} (mem : a ∈ l) (kept : keep a)
    (dropped : ¬ keep' a) : keptWeight w keep' l + w a ≤ keptWeight w keep l := by
  induction l with
  | nil => cases mem
  | cons x l ih =>
    have := fewer x
    rw [keptWeight_cons, keptWeight_cons]
    rcases List.mem_cons.mp mem with rfl | mem
    · rw [if_neg dropped, if_pos kept]
      have := keptWeight_le w fewer l
      omega
    · have rest := ih mem
      split <;> split <;> first | omega | exact absurd (this ‹_›) ‹_›

end Weights

namespace Pool

/-! ## Missing keys -/

/-- The entry for a key.  A reference needs the text that it refers to. -/
def entryFor? (p : Pool) : PoolKey → Option PoolEntry
  | .text t => some (.utf8 t)
  | .integer v => some (.integer v)
  | .float b => some (.float b)
  | .long v => some (.long v)
  | .double b => some (.double b)
  | .classRef name => p.indexes[PoolEntry.utf8 name]?.map .classRef
  | .string t => p.indexes[PoolEntry.utf8 t]?.map .string

/-- The pool has the entry for the key. -/
def has (p : Pool) (k : PoolKey) : Bool := ((p.entryFor? k).bind (p.indexes[·]?)).isSome

/-- The number of indexes that the pool still needs for the keys of the supply. -/
def missing (p : Pool) (U : List PoolKey) : Nat := keptWeight PoolKey.slots (fun k => !p.has k) U

/-- The supply has room for the pool and all that the pool lacks of it. -/
def Room (U : List PoolKey) (p : Pool) : Prop :=
  p.next.toNat + p.missing U ≤ 1 + totalSlots U

/-- Every entry of `p` is one of `q`, with the same index. -/
def Keeps (p q : Pool) : Prop :=
  ∀ (e : PoolEntry) index, p.indexes[e]? = some index → q.indexes[e]? = some index

theorem Keeps.entryFor? {p q : Pool} (h : p.Keeps q) {k : PoolKey} {e : PoolEntry}
    (found : p.entryFor? k = some e) : q.entryFor? k = some e := by
  cases k with
  | classRef name =>
    obtain ⟨i, there, rfl⟩ := Option.map_eq_some_iff.mp found
    exact Option.map_eq_some_iff.mpr ⟨i, h _ _ there, rfl⟩
  | string t =>
    obtain ⟨i, there, rfl⟩ := Option.map_eq_some_iff.mp found
    exact Option.map_eq_some_iff.mpr ⟨i, h _ _ there, rfl⟩
  | _ => exact found

theorem has_iff {p : Pool} {k : PoolKey} :
    p.has k ↔ ∃ e index, p.entryFor? k = some e ∧ p.indexes[e]? = some index := by
  rw [has, Option.isSome_iff_exists]
  simp only [Option.bind_eq_some_iff]
  exact ⟨fun ⟨i, e, h, h'⟩ => ⟨e, i, h, h'⟩, fun ⟨e, i, h, h'⟩ => ⟨i, e, h, h'⟩⟩

theorem Keeps.has {p q : Pool} (h : p.Keeps q) {k : PoolKey} (there : p.has k) : q.has k := by
  obtain ⟨e, index, entry, found⟩ := has_iff.mp there
  exact has_iff.mpr ⟨e, index, h.entryFor? entry, h e index found⟩

theorem room_empty (U : List PoolKey) : (∅ : Pool).Room U := by
  have fewer : (∅ : Pool).missing U ≤ keptWeight PoolKey.slots (fun _ => true) U :=
    keptWeight_le PoolKey.slots (fun _ _ => rfl) U
  have all : keptWeight PoolKey.slots (fun _ => true) U = totalSlots U := by
    rw [keptWeight, List.filter_true, totalSlots]
  exact Nat.add_le_add_left (all ▸ fewer) 1

/-! ## Adding entries -/

variable {U : List PoolKey} {p : Pool}

/-- An entry that the pool has or that the supply still has room for is added. -/
theorem exists_add (supply : IsSupply U) (room : p.Room U) {k : PoolKey} (mem : k ∈ U)
    {e : PoolEntry} (entry : p.entryFor? k = some e) (slots : e.slots = k.slots) :
    ∃ index q, p.add e = .ok (index, q) ∧ q.Room U ∧ p.Keeps q ∧ q.indexes[e]? = some index := by
  unfold add
  split
  · next index found => exact ⟨index, p, rfl, room, fun _ _ h => h, found⟩
  · next absent =>
    have limit := supply.slots
    obtain ⟨q, hq⟩ : ∃ q, q = (⟨p.entries.push e, p.indexes.insert e p.next,
        p.next + e.slots.toUInt16⟩ : Pool) := ⟨_, rfl⟩
    have inserted (e' : PoolEntry) :
        q.indexes[e']? = if e == e' then some p.next else p.indexes[e']? := by
      rw [hq]
      exact Std.HashMap.getElem?_insert
    have keeps : p.Keeps q := by
      intro e' index found
      rw [inserted]
      split
      · next same =>
        rw [← beq_iff_eq.mp same, absent] at found
        cases found
      · exact found
    have there : q.indexes[e]? = some p.next := by rw [inserted, if_pos BEq.rfl]
    have lacked : ¬ p.has k := by
      intro had
      obtain ⟨e', index, entry', found⟩ := has_iff.mp had
      rw [entry] at entry'
      cases entry'
      rw [absent] at found
      cases found
    -- What is missing gets smaller by what the pool gets larger.
    have less : q.missing U + k.slots ≤ p.missing U := by
      refine keptWeight_add_le PoolKey.slots (fun a lacks => ?_) mem (by simpa using lacked) ?_
      · rw [Bool.not_eq_true', ← Bool.not_eq_true] at lacks ⊢
        exact fun had => lacks (keeps.has had)
      · rw [has_iff.mpr ⟨e, p.next, keeps.entryFor? entry, there⟩]
        decide
    unfold Room at room
    have fits : p.next.toNat + e.slots ≤ 0xFFFF := by omega
    have next : q.next.toNat = p.next.toNat + e.slots := by
      rw [hq, UInt16.toNat_add, UInt16.toNat_ofNat']
      omega
    rw [if_pos fits, ← hq]
    refine ⟨p.next, q, rfl, ?_, keeps, there⟩
    rw [Room, next]
    omega

theorem exists_addUtf8 (supply : IsSupply U) (room : p.Room U) {t : Text} (mem : .text t ∈ U) :
    ∃ index q, p.addUtf8 t = .ok (index, q) ∧ q.Room U ∧
      q.indexes[PoolEntry.utf8 t]? = some index := by
  obtain ⟨index, q, added, room, -, there⟩ := exists_add supply room mem (e := .utf8 t) rfl rfl
  exact ⟨index, q, by rw [addUtf8, if_pos (supply.texts t mem), added], room, there⟩

theorem exists_addClass (supply : IsSupply U) (room : p.Room U) {name : Text}
    (mem : .classRef name ∈ U) : ∃ index q, p.addClass name = .ok (index, q) ∧ q.Room U := by
  obtain ⟨i, r, text, room, there⟩ := exists_addUtf8 supply room (supply.classes name mem)
  have entry : r.entryFor? (.classRef name) = some (.classRef i) :=
    Option.map_eq_some_iff.mpr ⟨i, there, rfl⟩
  obtain ⟨index, q, added, room, -⟩ := exists_add supply room mem entry rfl
  exact ⟨index, q, bind_eq_ok.mpr ⟨(i, r), text, added⟩, room⟩

theorem exists_addString (supply : IsSupply U) (room : p.Room U) {t : Text}
    (mem : .string t ∈ U) : ∃ index q, p.addString t = .ok (index, q) ∧ q.Room U := by
  obtain ⟨i, r, text, room, there⟩ := exists_addUtf8 supply room (supply.strings t mem)
  have entry : r.entryFor? (.string t) = some (.string i) :=
    Option.map_eq_some_iff.mpr ⟨i, there, rfl⟩
  obtain ⟨index, q, added, room, -⟩ := exists_add supply room mem entry rfl
  exact ⟨index, q, bind_eq_ok.mpr ⟨(i, r), text, added⟩, room⟩

theorem exists_addConstant (supply : IsSupply U) (room : p.Room U) {c : Constant}
    (mem : c.fieldKey ∈ U) : ∃ index q, p.addConstant c = .ok (index, q) ∧ q.Room U := by
  -- A number is its own entry.
  have number {k : PoolKey} {e : PoolEntry} (mem : k ∈ U) (entry : p.entryFor? k = some e)
      (slots : e.slots = k.slots) : ∃ index q, p.add e = .ok (index, q) ∧ q.Room U := by
    obtain ⟨index, q, added, room, -⟩ := exists_add supply room mem entry slots
    exact ⟨index, q, added, room⟩
  cases c with
  | string t => exact exists_addString supply room mem
  | classLiteral t => exact exists_addClass supply room mem
  | _ => exact number mem rfl rfl

theorem exists_addElement (supply : IsSupply U) (room : p.Room U) {c : Constant}
    (mem : c.elementKey ∈ U) : ∃ index q, p.addElement c = .ok (index, q) ∧ q.Room U := by
  have text {t : Text} (mem : .text t ∈ U) :
      ∃ index q, p.addUtf8 t = .ok (index, q) ∧ q.Room U := by
    obtain ⟨index, q, added, room, -⟩ := exists_addUtf8 supply room mem
    exact ⟨index, q, added, room⟩
  have other (key : c.elementKey = c.fieldKey) (add : p.addElement c = p.addConstant c) :
      ∃ index q, p.addElement c = .ok (index, q) ∧ q.Room U := by
    rw [add]
    exact exists_addConstant supply room (key ▸ mem)
  cases c with
  | string t => exact text mem
  | classLiteral t => exact text mem
  | _ => exact other rfl rfl

end Pool

end ClassAbi
