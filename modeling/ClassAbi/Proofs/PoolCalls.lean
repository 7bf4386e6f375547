import ClassAbi.Proofs.PoolOrder

/-!
# Calls on a constant pool

A run of calls on an empty pool uses keys, a reference behind the text that it refers to.
Each call keeps the pool that of the keys used so far, in the order of first use.  So all
that a run comes to can be read off the calls: `Pool.callEach_lawful` says it of every run
that does not fail, and of every beginning of the run along with it.
-/

namespace ClassAbi

/-! ## Calls and what they add -/

/-- A call on a constant pool. -/
inductive PoolCall where
  /-- Adds a text. -/
  | utf8 (value : Text)
  /-- Adds a class, by its name. -/
  | classRef (name : Text)
  /-- Adds a string. -/
  | string (value : Text)
  /-- Adds a 32-bit integer. -/
  | integer (value : Int32)
  /-- Adds a single precision number, as its bits. -/
  | float (bits : UInt32)
  /-- Adds a 64-bit integer. -/
  | long (value : Int64)
  /-- Adds a double precision number, as its bits. -/
  | double (bits : UInt64)
  /-- Adds the initial value of a field. -/
  | constant (value : Constant)
deriving DecidableEq, Repr

/-- The kind of entry that the call adds, with its value. -/
def PoolCall.key : PoolCall → PoolKey
  | utf8 t => .text t
  | classRef name => .classRef name
  | string t => .string t
  | integer v => .integer v
  | float b => .float b
  | long v => .long v
  | double b => .double b
  | constant c => c.fieldKey

/-- The keys that the calls use, in their order. -/
def usedKeys (calls : List PoolCall) : List PoolKey := calls.flatMap fun c => c.key.uses

/-- The keys that the calls use, in the order of first use. -/
def firstUses (calls : List PoolCall) : List PoolKey := (usedKeys calls).eraseDups

theorem key_mem_firstUses {calls : List PoolCall} {c : PoolCall} (mem : c ∈ calls) :
    c.key ∈ firstUses calls := by
  refine List.mem_eraseDups.mpr (List.mem_flatMap.mpr ⟨c, mem, ?_⟩)
  simp [PoolKey.uses]

namespace Pool

/-- Makes the call. -/
def call (p : Pool) : PoolCall → Except EncodeFault (UInt16 × Pool)
  | .utf8 t => p.addUtf8 t
  | .classRef name => p.addClass name
  | .string t => p.addString t
  | .integer v => p.add (.integer v)
  | .float b => p.add (.float b)
  | .long v => p.add (.long v)
  | .double b => p.add (.double b)
  | .constant c => p.addConstant c

/-- Makes the calls one after the other, for their indexes. -/
def callEach (p : Pool) : List PoolCall → Except EncodeFault (List UInt16 × Pool)
  | [] => .ok ([], p)
  | c :: calls => do
    let (index, p) ← p.call c
    let (indexes, p) ← p.callEach calls
    return (index :: indexes, p)

/-! ## One call -/

/-- Adds the entries for a key. -/
def addKey (p : Pool) : PoolKey → Except EncodeFault (UInt16 × Pool)
  | .text t => p.addUtf8 t
  | .integer v => p.add (.integer v)
  | .float b => p.add (.float b)
  | .long v => p.add (.long v)
  | .double b => p.add (.double b)
  | .classRef name => p.addClass name
  | .string t => p.addString t

theorem eraseDups_concat (l : List PoolKey) (k : PoolKey) :
    (l ++ [k]).eraseDups = if k ∈ l.eraseDups then l.eraseDups else l.eraseDups ++ [k] := by
  rw [List.eraseDups_append, List.removeAll]
  by_cases mem : k ∈ l <;> simp [mem, List.eraseDups_cons]

theorem Lists.addText {p q : Pool} {l : List PoolKey} {t : Text} {i : UInt16}
    (h : p.Lists l.eraseDups) (added : p.addUtf8 t = .ok (i, q)) :
    q.Lists (l ++ [PoolKey.text t]).eraseDups ∧
      i.toNat = numberIn (l ++ [PoolKey.text t]).eraseDups (.text t) := by
  unfold addUtf8 at added
  split at added
  · next short =>
    rw [eraseDups_concat]
    exact h.add (k := .text t) (by rintro _ ⟨⟩) short added
  · cases added

/-- A key is added behind the keys that it needs. -/
theorem Lists.addKey {p q : Pool} {l : List PoolKey} {k : PoolKey} {i : UInt16}
    (h : p.Lists l.eraseDups) (added : p.addKey k = .ok (i, q)) :
    q.Lists (l ++ k.uses).eraseDups ∧ i.toNat = numberIn (l ++ k.uses).eraseDups k := by
  have number {k : PoolKey} (alone : k.text? = none) (fits : (k.entryIn l.eraseDups).item.Fits)
      (added : p.add (k.entryIn l.eraseDups) = .ok (i, q)) :
      q.Lists (l ++ k.uses).eraseDups ∧ i.toNat = numberIn (l ++ k.uses).eraseDups k := by
    rw [PoolKey.uses, alone, Option.map_none, Option.toList_none, List.nil_append,
      eraseDups_concat]
    exact h.add (by rw [alone]; rintro _ ⟨⟩) fits added
  have reference {k : PoolKey} {t : Text} (refers : k.text? = some t) {r : Pool} {j : UInt16}
      (text : p.addUtf8 t = .ok (j, r)) (fits : ∀ K, (k.entryIn K).item.Fits)
      (added : ∀ K, j.toNat = numberIn K (.text t) → r.add (k.entryIn K) = .ok (i, q)) :
      q.Lists (l ++ k.uses).eraseDups ∧ i.toNat = numberIn (l ++ k.uses).eraseDups k := by
    obtain ⟨lists, index⟩ := h.addText text
    rw [PoolKey.uses, refers, Option.map_some, Option.toList_some, ← List.append_assoc,
      eraseDups_concat]
    refine lists.add ?_ (fits _) (added _ index)
    rw [refers]
    rintro _ ⟨⟩
    simp
  cases k with
  | text t => exact h.addText added
  | classRef name =>
    obtain ⟨⟨j, r⟩, text, added⟩ := bind_eq_ok.mp added
    refine reference rfl text (fun _ => trivial) fun K index => ?_
    rwa [PoolKey.entryIn, ← toUInt16_of_eq_toNat index.symm]
  | string t =>
    obtain ⟨⟨j, r⟩, text, added⟩ := bind_eq_ok.mp added
    refine reference rfl text (fun _ => trivial) fun K index => ?_
    rwa [PoolKey.entryIn, ← toUInt16_of_eq_toNat index.symm]
  | _ => exact number rfl trivial added

/-- A call adds its key. -/
theorem call_eq (p : Pool) (c : PoolCall) : p.call c = p.addKey c.key := by
  cases c with
  | constant c => cases c <;> rfl
  | _ => rfl

/-! ## Runs of calls -/

theorem callEach_cons_eq_ok {p q : Pool} {c : PoolCall} {calls : List PoolCall}
    {indexes : List UInt16} : p.callEach (c :: calls) = .ok (indexes, q) ↔
      ∃ i r rest, p.call c = .ok (i, r) ∧ r.callEach calls = .ok (rest, q) ∧ indexes = i :: rest := by
  rw [callEach, bind_eq_ok]
  constructor
  · rintro ⟨⟨i, r⟩, first, h⟩
    obtain ⟨⟨rest, q'⟩, more, h⟩ := bind_eq_ok.mp h
    cases h
    exact ⟨i, r, rest, first, more, rfl⟩
  · rintro ⟨i, r, rest, first, more, rfl⟩
    exact ⟨(i, r), first, bind_eq_ok.mpr ⟨(rest, q), more, rfl⟩⟩

/-- A run is a run of the first calls and one of the others. -/
theorem exists_callEach_append {xs ys : List PoolCall} {p q : Pool} {indexes : List UInt16}
    (run : p.callEach (xs ++ ys) = .ok (indexes, q)) :
    ∃ first r second, p.callEach xs = .ok (first, r) ∧ r.callEach ys = .ok (second, q) ∧
      indexes = first ++ second := by
  induction xs generalizing p indexes with
  | nil => exact ⟨[], p, indexes, rfl, run, rfl⟩
  | cons c xs ih =>
    obtain ⟨i, p', rest, one, more, rfl⟩ := callEach_cons_eq_ok.mp run
    obtain ⟨first, r, second, before, after, rfl⟩ := ih more
    exact ⟨i :: first, r, second, callEach_cons_eq_ok.mpr ⟨i, p', first, one, before, rfl⟩, after,
      rfl⟩

/-- Numbers stay when more keys are used. -/
theorem numberIn_eraseDups_append {used : List PoolKey} {k : PoolKey} (mem : k ∈ used)
    (more : List PoolKey) :
    numberIn (used ++ more).eraseDups k = numberIn used.eraseDups k := by
  rw [List.eraseDups_append]
  exact numberIn_append (List.mem_eraseDups.mpr mem) _

/-- A run keeps the pool that of the keys used, and gives every call the number of its key. -/
theorem Lists.callEach {p q : Pool} {used : List PoolKey} {calls : List PoolCall}
    {indexes : List UInt16} (h : p.Lists used.eraseDups)
    (run : p.callEach calls = .ok (indexes, q)) :
    q.Lists (used ++ usedKeys calls).eraseDups ∧
      List.Forall₂ (fun c i => i.toNat = numberIn (used ++ usedKeys calls).eraseDups c.key)
        calls indexes := by
  induction calls generalizing p used indexes with
  | nil =>
    cases run
    simpa [usedKeys] using h
  | cons c calls ih =>
    obtain ⟨i, r, rest, one, more, rfl⟩ := callEach_cons_eq_ok.mp run
    rw [call_eq] at one
    obtain ⟨lists, number⟩ := h.addKey one
    have rest := ih lists more
    have keys : used ++ c.key.uses ++ usedKeys calls = used ++ usedKeys (c :: calls) := by
      simp [usedKeys]
    rw [keys] at rest
    refine ⟨rest.1, .cons ?_ rest.2⟩
    have mem : c.key ∈ used ++ c.key.uses := by simp [PoolKey.uses]
    rw [number, ← keys, numberIn_eraseDups_append mem]

/-! ## What a run comes to -/

/-- What holds of the calls of a run, the indexes that came back and the pool that was left. -/
structure Lawful (calls : List PoolCall) (indexes : List UInt16) (p : Pool) : Prop where
  /-- The count and the entries are read back from what is written, and nothing is left over. -/
  read : ∀ (d : ByteArray) (offset : Nat), HoldsAt d offset (p.put ∅).toList →
    scanU2 d offset = .ok (p.next, offset + 2) ∧
      scanPool d offset = .ok (p.table, offset + (p.put ∅).toList.length) ∧
      p.table.size = p.next.toNat
  /-- An index finds what was added, and is that of an entry. -/
  found : List.Forall₂ (fun c index => p.table.Finds index c.key ∧ 1 ≤ index ∧ index < p.next ∧
    p.table.entryAt index ≠ .ok .unusable) calls indexes
  /-- Indexes are the same for the same kind of entry with the same value, and for no other. -/
  same : ∀ x ∈ calls.zip indexes, ∀ y ∈ calls.zip indexes, x.2 = y.2 ↔ x.1.key = y.1.key
  /-- The keys have the indexes in the order of first use. -/
  order : ∀ index k, p.table.Finds index k ↔
    k ∈ firstUses calls ∧ index.toNat = numberIn (firstUses calls) k
  next : p.next.toNat = 1 + totalSlots (firstUses calls)
  /-- The text behind a class or a string has a lower index. -/
  back : ∀ index i, p.table.entryAt index = .ok (.classRef i) ∨
    p.table.entryAt index = .ok (.string i) → i < index ∧ ∃ t, p.table.utf8At i = .ok t
  /-- No two entries have the same bytes. -/
  bytes : (p.entries.toList.map PoolEntry.encode).Nodup

section Lawful

variable {p : Pool} {calls : List PoolCall} {indexes : List UInt16}

/-- A pool is read back from what is written of it. -/
theorem Lists.read {K : List PoolKey} (h : p.Lists K) {d : ByteArray} {offset : Nat}
    (held : HoldsAt d offset (p.put ∅).toList) : scanU2 d offset = .ok (p.next, offset + 2) ∧
      scanPool d offset = .ok (p.table, offset + (p.put ∅).toList.length) := by
  have size : (tableOf p.items).size = p.next.toNat := h.wellFormed.size
  have written : (p.put ∅).toList = encodePool p.items := toList_put h.wellFormed ∅
  have count : (tableOf p.items).size.toUInt16 = p.next := by simp [size]
  rw [written] at held ⊢
  refine ⟨?_, scanPool_eq h.wellFormed.fits ?_ held⟩
  · rw [← count]
    exact scanU2_eq_ok.mpr ⟨held.left, rfl⟩
  · rw [size]
    exact Nat.le_of_lt_succ p.next.toNat_lt

/-- An index that finds a key is in use. -/
theorem Lists.inUse {K : List PoolKey} (h : p.Lists K) {index : UInt16} {k : PoolKey}
    (mem : k ∈ K) (number : index.toNat = numberIn K k) : 1 ≤ index ∧ index < p.next ∧
      p.table.entryAt index ≠ .ok .unusable := by
  have := numberIn_add_le_total mem
  have := k.slots_pos
  have := h.next
  have start : 1 ≤ numberIn K k := Nat.le_add_right 1 _
  refine ⟨?_, ?_, ?_⟩
  · rw [UInt16.le_iff_toNat_le, number]
    exact start
  · rw [UInt16.lt_iff_toNat_lt]
    omega
  · rw [h.entryAt_of_mem mem number]
    intro unusable
    have key := h.keyOf_entryIn mem
    rw [Except.ok.inj unusable] at key
    cases key

theorem Lists.lawful (h : p.Lists (firstUses calls))
    (numbers : List.Forall₂ (fun c i => i.toNat = numberIn (firstUses calls) c.key) calls indexes) :
    Lawful calls indexes p := by
  obtain ⟨length, number⟩ := List.forall₂_iff_zip.mp numbers
  exact {
    read := fun d offset held => ⟨(h.read held).1, (h.read held).2, h.wellFormed.size⟩
    found := List.forall₂_iff_zip.mpr ⟨length, fun {c i} pair => by
      have mem := key_mem_firstUses (List.of_mem_zip pair).1
      exact ⟨h.finds_iff.mpr ⟨mem, number pair⟩, h.inUse mem (number pair)⟩⟩
    same := fun x hx y hy => by
      have mem := key_mem_firstUses (List.of_mem_zip hx).1
      rw [← UInt16.toNat_inj, number hx, number hy]
      exact ⟨numberIn_inj mem, fun same => by rw [same]⟩
    order := fun index k => h.finds_iff
    next := h.next
    back := fun index i => h.refers_back
    bytes := by
      rw [h.entries, List.map_map]
      refine List.Nodup.map_on (fun k mem k' mem' same => ?_) h.distinct
      exact PoolKey.entryIn_inj h.room (fun t ht => (h.back k mem t ht).1)
        (fun t ht => (h.back k' mem' t ht).1) (PoolEntry.encode_injective same) }

/-- A run on the empty pool is lawful. -/
theorem lawful_of_run (run : (∅ : Pool).callEach calls = .ok (indexes, p)) :
    p.Lists (firstUses calls) ∧ Lawful calls indexes p := by
  have fresh : (∅ : Pool).Lists ([] : List PoolKey).eraseDups := lists_empty
  obtain ⟨lists, numbers⟩ := fresh.callEach run
  exact ⟨lists, lists.lawful numbers⟩

/-- Indexes below the count of a pool find in a later one what they found in it. -/
theorem Lists.finds_append {q : Pool} {used more : List PoolKey} (h : p.Lists used.eraseDups)
    (h' : q.Lists (used ++ more).eraseDups) {index : UInt16} (old : index < p.next)
    (k : PoolKey) : q.table.Finds index k ↔ p.table.Finds index k := by
  rw [h.finds_iff, h'.finds_iff, List.mem_eraseDups, List.mem_eraseDups, List.mem_append]
  by_cases mem : k ∈ used
  · simp [mem, numberIn_eraseDups_append mem]
  · have behind := le_numberIn_append (K := used.eraseDups) (k := k) (by simpa using mem)
      (more.removeAll used).eraseDups
    rw [← List.eraseDups_append, ← h.next] at behind
    rw [UInt16.lt_iff_toNat_lt] at old
    have other : index.toNat ≠ numberIn (used ++ more).eraseDups k := by omega
    simp [mem, other]

/-- Every run of calls on an empty pool that does not fail is lawful, and so is each beginning
of it.  The calls behind a beginning leave its indexes what they are, and its count does not
get less. -/
theorem callEach_lawful {q : Pool} (run : (∅ : Pool).callEach calls = .ok (indexes, q)) :
    Lawful calls indexes q ∧ ∀ earlier later, calls = earlier ++ later →
      ∃ first p second, (∅ : Pool).callEach earlier = .ok (first, p) ∧
        p.callEach later = .ok (second, q) ∧ indexes = first ++ second ∧ Lawful earlier first p ∧
        p.next ≤ q.next ∧
        ∀ index < p.next, ∀ k, q.table.Finds index k ↔ p.table.Finds index k := by
  refine ⟨(lawful_of_run run).2, ?_⟩
  rintro earlier later rfl
  obtain ⟨first, p, second, before, after, rfl⟩ := exists_callEach_append run
  obtain ⟨lists, lawful⟩ := lawful_of_run before
  have lists' := (lists.callEach after).1
  refine ⟨first, p, second, before, after, rfl, lawful, ?_, fun index old k =>
    lists.finds_append lists' old k⟩
  rw [UInt16.le_iff_toNat_le, lists.next, lists'.next, List.eraseDups_append, totalSlots_append]
  exact Nat.add_le_add_left (Nat.le_add_right _ _) 1

end Lawful

/-! ## Runs that do not fail -/

theorem exists_addKey {U : List PoolKey} (supply : IsSupply U) {p : Pool} (room : p.Room U)
    {k : PoolKey} (mem : k ∈ U) : ∃ index q, p.addKey k = .ok (index, q) ∧ q.Room U := by
  cases k with
  | text t =>
    obtain ⟨index, q, added, room, -⟩ := exists_addUtf8 supply room mem
    exact ⟨index, q, added, room⟩
  | classRef name => exact exists_addClass supply room mem
  | string t => exact exists_addString supply room mem
  | _ =>
    obtain ⟨index, q, added, room, -⟩ := exists_add supply room mem rfl rfl
    exact ⟨index, q, added, room⟩

/-- Calls whose keys a supply has do not fail. -/
theorem exists_callEach {U : List PoolKey} (supply : IsSupply U) {calls : List PoolCall}
    (mem : ∀ c ∈ calls, c.key ∈ U) {p : Pool} (room : p.Room U) :
    ∃ indexes q, p.callEach calls = .ok (indexes, q) := by
  induction calls generalizing p with
  | nil => exact ⟨[], p, rfl⟩
  | cons c calls ih =>
    obtain ⟨i, r, one, room⟩ := exists_addKey supply room (mem c List.mem_cons_self)
    rw [← call_eq] at one
    obtain ⟨rest, q, more⟩ := ih (fun c' inside => mem c' (List.mem_cons_of_mem c inside)) room
    exact ⟨i :: rest, q, callEach_cons_eq_ok.mpr ⟨i, r, rest, one, more, rfl⟩⟩

/-- Calls for a class, a long number and one integer in two kinds. -/
def fiveCalls : List PoolCall :=
  [.classRef [65], .long 1, .integer 1, .constant (.boolean true), .classRef [65]]

theorem isSupply_fiveCalls : IsSupply (firstUses fiveCalls) := by
  have keys : firstUses fiveCalls = [.text [65], .classRef [65], .long 1, .integer 1] := by decide
  rw [keys]
  constructor
  · intro t mem
    obtain rfl : t = [65] := by simpa using mem
    decide
  · intro name mem
    obtain rfl : name = [65] := by simpa using mem
    decide
  · intro t mem
    simp at mem
  · decide

theorem callEach_lawful_fiveCalls : ∃ indexes q, (∅ : Pool).callEach fiveCalls = .ok (indexes, q) ∧
    Lawful fiveCalls indexes q := by
  obtain ⟨indexes, q, run⟩ := exists_callEach isSupply_fiveCalls
    (fun c mem => key_mem_firstUses mem) (room_empty _)
  exact ⟨indexes, q, run, (callEach_lawful run).1⟩

end Pool

end ClassAbi
