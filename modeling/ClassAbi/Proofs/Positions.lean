import ClassAbi.ClassFile.ConstantTable
import ClassAbi.Proofs.Chains
import ClassAbi.Proofs.Numbers

/-!
# Bytes at a position

`HoldsAt d offset bs` says that the file `d` has the bytes `bs` at `offset`.
What stands behind them does not matter.  Bytes one behind the other are held
one behind the other (`HoldsAt.append_iff`), so the encoding of a structure is
held exactly if the encodings of its parts are.

Each scan succeeds exactly where the bytes of its value stand.
-/

namespace ClassAbi

/-- The file has these bytes at this offset. -/
def HoldsAt (d : ByteArray) (offset : Nat) (bs : Text) : Prop :=
  offset ≤ d.size ∧ bs <+: d.data.toList.drop offset

namespace HoldsAt

variable {d : ByteArray} {offset : Nat} {bs cs : Text}

theorem le (h : HoldsAt d offset bs) : offset + bs.length ≤ d.size := by
  have size : d.data.toList.length = d.size := rfl
  have := h.2.length_le
  rw [List.length_drop, size] at this
  have := h.1
  omega

theorem append_iff :
    HoldsAt d offset (bs ++ cs) ↔ HoldsAt d offset bs ∧ HoldsAt d (offset + bs.length) cs := by
  constructor
  · intro h
    have le := h.le
    obtain ⟨start, rest, h⟩ := h
    rw [List.length_append] at le
    refine ⟨⟨start, cs ++ rest, ?_⟩, by omega, rest, ?_⟩
    · rw [← h, List.append_assoc]
    · rw [← List.drop_drop, ← h, List.append_assoc, List.drop_left]
  · rintro ⟨⟨start, rest, h⟩, _, rest', h'⟩
    refine ⟨start, rest', ?_⟩
    rw [← List.drop_drop, ← h, List.drop_left] at h'
    rw [List.append_assoc, h', h]

theorem left (h : HoldsAt d offset (bs ++ cs)) : HoldsAt d offset bs := (append_iff.mp h).1

theorem right (h : HoldsAt d offset (bs ++ cs)) : HoldsAt d (offset + bs.length) cs :=
  (append_iff.mp h).2

theorem append (h : HoldsAt d offset bs) (h' : HoldsAt d (offset + bs.length) cs) :
    HoldsAt d offset (bs ++ cs) :=
  append_iff.mpr ⟨h, h'⟩

theorem cons_iff {x : UInt8} :
    HoldsAt d offset (x :: bs) ↔ HoldsAt d offset [x] ∧ HoldsAt d (offset + 1) bs := by
  rw [← List.singleton_append]
  exact append_iff

theorem nil_iff : HoldsAt d offset [] ↔ offset ≤ d.size := by
  simp [HoldsAt]

theorem singleton_iff {x : UInt8} :
    HoldsAt d offset [x] ↔ ∃ h : offset < d.size, d[offset] = x := by
  constructor
  · intro h
    have lt : offset < d.size := h.le
    refine ⟨lt, ?_⟩
    obtain ⟨_, rest, h⟩ := h
    have lt' : offset < d.data.toList.length := lt
    rw [List.drop_eq_getElem_cons lt', List.singleton_append] at h
    injection h with h
    exact h.symm
  · rintro ⟨lt, rfl⟩
    have lt' : offset < d.data.toList.length := lt
    refine ⟨Nat.le_of_lt lt, d.data.toList.drop (offset + 1), ?_⟩
    rw [List.drop_eq_getElem_cons lt']
    rfl

theorem extract (d : ByteArray) {count : Nat} (h : offset + count ≤ d.size) :
    HoldsAt d offset (d.extract offset (offset + count)).data.toList := by
  rw [ByteArray.data_extract, Array.toList_extract, List.extract_eq_take_drop]
  exact ⟨by omega, List.take_prefix _ _⟩

/-- A file holds its own bytes. -/
theorem self (d : ByteArray) : HoldsAt d 0 d.data.toList :=
  ⟨Nat.zero_le _, List.prefix_refl _⟩

/-- Of two texts with one length, only one stands at an offset. -/
theorem unique (h : HoldsAt d offset bs) (h' : HoldsAt d offset cs) (eq : bs.length = cs.length) :
    bs = cs :=
  (List.prefix_of_prefix_length_le h.2 h'.2 (Nat.le_of_eq eq)).eq_of_length eq

end HoldsAt

/-! ## Scans -/

section Scans

variable {d : ByteArray} {offset stop : Nat}

theorem scanU1_eq_ok {v : UInt8} :
    scanU1 d offset = .ok (v, stop) ↔ HoldsAt d offset [v] ∧ stop = offset + 1 := by
  rw [HoldsAt.singleton_iff, scanU1]
  split
  · next h => simp [h, eq_comm]
  · next h => simp [h]

theorem scanU2_eq_ok {v : UInt16} :
    scanU2 d offset = .ok (v, stop) ↔ HoldsAt d offset (bytesU2 v) ∧ stop = offset + 2 := by
  rw [scanU2]
  split
  · next h =>
    have first : HoldsAt d offset [d[offset], d[offset + 1]] :=
      HoldsAt.cons_iff.mpr ⟨HoldsAt.singleton_iff.mpr ⟨by omega, rfl⟩,
        HoldsAt.singleton_iff.mpr ⟨by omega, rfl⟩⟩
    rw [Except.ok.injEq, Prod.mk.injEq, ← bytesU2_eq_iff, @eq_comm _ (offset + 2)]
    refine and_congr_left fun _ => ⟨fun h => h ▸ first, fun h => h.unique first rfl⟩
  · next h =>
    constructor
    · intro h
      cases h
    · rintro ⟨h', -⟩
      exact absurd h'.le h

theorem scanU4_eq_ok {v : UInt32} :
    scanU4 d offset = .ok (v, stop) ↔ HoldsAt d offset (bytesU4 v) ∧ stop = offset + 4 := by
  rw [scanU4]
  split
  · next h =>
    have first : HoldsAt d offset [d[offset], d[offset + 1], d[offset + 2], d[offset + 3]] := by
      refine HoldsAt.cons_iff.mpr ⟨HoldsAt.singleton_iff.mpr ⟨by omega, rfl⟩, ?_⟩
      refine HoldsAt.cons_iff.mpr ⟨HoldsAt.singleton_iff.mpr ⟨by omega, rfl⟩, ?_⟩
      exact HoldsAt.cons_iff.mpr ⟨HoldsAt.singleton_iff.mpr ⟨by omega, rfl⟩,
        HoldsAt.singleton_iff.mpr ⟨by omega, rfl⟩⟩
    rw [Except.ok.injEq, Prod.mk.injEq, ← bytesU4_eq_iff, @eq_comm _ (offset + 4)]
    refine and_congr_left fun _ => ⟨fun h => h ▸ first, fun h => h.unique first rfl⟩
  · next h =>
    constructor
    · intro h
      cases h
    · rintro ⟨h', -⟩
      exact absurd h'.le h

theorem scanU8_eq_ok {v : UInt64} :
    scanU8 d offset = .ok (v, stop) ↔ HoldsAt d offset (bytesU8 v) ∧ stop = offset + 8 := by
  rw [scanU8]
  split
  · next h =>
    simp only [bind_eq_ok, pure_eq_ok, Prod.exists, scanU4_eq_ok, Prod.mk.injEq]
    constructor
    · rintro ⟨high, middle, ⟨hhigh, rfl⟩, low, stop', ⟨hlow, rfl⟩, rfl, rfl⟩
      rw [bytesU8_eq_iff.mpr rfl]
      exact ⟨hhigh.append hlow, rfl⟩
    · rintro ⟨hv, rfl⟩
      exact ⟨_, _, ⟨hv.left, rfl⟩, _, _, ⟨hv.right, rfl⟩, bytesU8_eq_iff.mp rfl, rfl⟩
  · next h =>
    constructor
    · intro h
      cases h
    · rintro ⟨h', -⟩
      exact absurd h'.le h

theorem skipBytes_eq_ok {count : Nat} :
    skipBytes d offset count = .ok stop ↔ offset + count ≤ d.size ∧ stop = offset + count := by
  rw [skipBytes]
  split
  · next h => simp [h, eq_comm]
  · next h => simp [h]

theorem scanText_eq_ok {count : Nat} {t : Text} :
    scanText d offset count = .ok (t, stop) ↔
      HoldsAt d offset t ∧ t.length = count ∧ stop = offset + count := by
  rw [scanText]
  split
  · next h =>
    have held := HoldsAt.extract d h
    have length : (d.extract offset (offset + count)).data.toList.length = count := by
      rw [Array.length_toList, ← ByteArray.size, ByteArray.size_extract]
      omega
    rw [Except.ok.injEq, Prod.mk.injEq]
    constructor
    · rintro ⟨rfl, rfl⟩
      exact ⟨held, length, rfl⟩
    · rintro ⟨ht, hlength, rfl⟩
      exact ⟨held.unique ht (length.trans hlength.symm), rfl⟩
  · next h =>
    constructor
    · intro h
      cases h
    · rintro ⟨h', rfl, -⟩
      exact absurd h'.le h

end Scans

end ClassAbi
