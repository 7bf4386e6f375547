import ClassAbi.Deflate.Inflate
import ClassAbi.Proofs.ArchiveRecords
import ClassAbi.Proofs.Bits

/-!
# Bits that are read

At one place a stream has one sequence of bits of each length (`HoldsBits.unique`), so a number is
read exactly where its bits are held (`needBits_eq_ok`), and bytes stand in a stream exactly where
their bits are held (`holdsBits_bitsOf_iff`).
-/

namespace ClassAbi.Deflate

namespace HoldsBits

variable {d : ByteArray} {place : Nat} {bs cs : List Bool}

/-- Of two sequences of bits at one place, the shorter one is the beginning of the other. -/
theorem isPrefix (h : HoldsBits d place bs) (h' : HoldsBits d place cs)
    (le : bs.length ≤ cs.length) : bs <+: cs := by
  induction bs generalizing place cs with
  | nil => exact List.nil_prefix
  | cons b bs ih =>
    cases cs with
    | nil => cases le
    | cons c cs =>
      cases h.1.symm.trans h'.1
      exact List.cons_prefix_cons.mpr ⟨rfl, ih h.2 h'.2 (Nat.le_of_succ_le_succ le)⟩

theorem unique (h : HoldsBits d place bs) (h' : HoldsBits d place cs)
    (eq : bs.length = cs.length) : bs = cs :=
  (h.isPrefix h' (Nat.le_of_eq eq)).eq_of_length eq

/-- A bit that is held is a bit of the stream. -/
theorem length_le_of_pos (h : HoldsBits d place bs) (positive : 0 < bs.length) :
    place + bs.length ≤ d.size * 8 := by
  refine h.length_le ?_
  obtain ⟨b, bs, rfl⟩ := List.exists_cons_of_length_pos positive
  have first := h.1
  unfold bitAt at first
  split at first
  · omega
  · cases first

end HoldsBits

theorem length_bitsOf (d : ByteArray) : (bitsOf d).length = d.size * 8 := by
  have constant (byte : UInt8) : (lowBits 8 byte.toNat).length = 8 := length_lowBits ..
  rw [bitsOf, List.length_flatMap]
  simp only [constant, List.map_const', List.sum_replicate_nat]
  rfl

/-- A stream holds what its bits begin with. -/
theorem holdsBits_zero_iff {d : ByteArray} {bits : List Bool} :
    HoldsBits d 0 bits ↔ bits <+: bitsOf d := by
  constructor
  · intro held
    refine held.isPrefix (holdsBits_bitsOf d) ?_
    have le := held.length_le (Nat.zero_le _)
    rwa [Nat.zero_add, ← length_bitsOf] at le
  · rintro ⟨rest, whole⟩
    have held := holdsBits_bitsOf d
    rw [← whole, HoldsBits.append_iff] at held
    exact held.1

/-- As long as a stream does not end, it has bits. -/
theorem exists_holdsBits {d : ByteArray} {place count : Nat} (inside : place + count ≤ d.size * 8) :
    ∃ bits, bits.length = count ∧ HoldsBits d place bits := by
  have held := holdsBits_bitsOf d
  rw [← List.take_append_drop place (bitsOf d), HoldsBits.append_iff, List.length_take,
    length_bitsOf, Nat.min_eq_left (by omega), Nat.zero_add] at held
  have rest := held.2
  rw [← List.take_append_drop count ((bitsOf d).drop place), HoldsBits.append_iff] at rest
  refine ⟨_, ?_, rest.1⟩
  rw [List.length_take, List.length_drop, length_bitsOf]
  omega

/-! ## Numbers -/

theorem lowBits_injective {count a b : Nat} (small : a < 2 ^ count) (small' : b < 2 ^ count)
    (same : lowBits count a = lowBits count b) : a = b := by
  refine Nat.eq_of_testBit_eq fun i => ?_
  by_cases inside : i < count
  · exact List.map_inj_left.mp same i (List.mem_range.mpr inside)
  · have le : 2 ^ count ≤ 2 ^ i := Nat.pow_le_pow_right Nat.two_pos (Nat.not_lt.mp inside)
    rw [Nat.testBit_lt_two_pow (Nat.lt_of_lt_of_le small le),
      Nat.testBit_lt_two_pow (Nat.lt_of_lt_of_le small' le)]

/-- A number behind another one. -/
theorem lowBits_append {count low : Nat} (small : low < 2 ^ count) (more high : Nat) :
    lowBits (count + more) (2 ^ count * high + low) = lowBits count low ++ lowBits more high := by
  rw [lowBits_add]
  congr 1
  · refine List.map_congr_left fun i mem => ?_
    rw [Nat.testBit_two_pow_mul_add high small, if_pos (List.mem_range.mp mem)]
  · refine List.map_congr_left fun i _ => ?_
    rw [Nat.testBit_two_pow_mul_add high small, if_neg (by omega), Nat.add_sub_cancel_left]

/-- A number is its lower bits and those above them. -/
theorem lowBits_split (count more value : Nat) :
    lowBits (count + more) value =
      lowBits count (value % 2 ^ count) ++ lowBits more (value / 2 ^ count) := by
  have split := lowBits_append (Nat.mod_lt value (Nat.two_pow_pos count)) more (value / 2 ^ count)
  rwa [Nat.div_add_mod] at split

section Read

variable {d : ByteArray} {count place value stop : Nat}

theorem exists_of_takeBitsFrom {weight acc : Nat}
    (taken : takeBitsFrom d count place weight acc = some (value, stop)) :
    ∃ n < 2 ^ count, value = acc + weight * n ∧ HoldsBits d place (lowBits count n) ∧
      stop = place + count := by
  induction count generalizing place weight acc with
  | zero =>
    cases taken
    exact ⟨0, Nat.one_pos, rfl, trivial, rfl⟩
  | succ count ih =>
    rw [takeBitsFrom] at taken
    split at taken
    · cases taken
    next b bit =>
    obtain ⟨n, small, rfl, held, rfl⟩ := ih taken
    have low : (if b then 2 * n + 1 else 2 * n).testBit 0 = b := by
      rw [Nat.testBit_zero]
      cases b <;> simp
    have high : (if b then 2 * n + 1 else 2 * n) / 2 = n := by
      split <;> omega
    refine ⟨if b then 2 * n + 1 else 2 * n, ?_, ?_, ?_, Nat.add_right_comm ..⟩
    · rw [Nat.pow_succ]
      split <;> omega
    · rw [Nat.mul_assoc]
      cases b
      · rfl
      · simp only [if_true]
        rw [Nat.mul_succ]
        omega
    · rw [lowBits_succ, low, high]
      exact ⟨bit, held⟩

/-- A number is read exactly where its bits are. -/
theorem needBits_eq_ok :
    needBits d count place = .ok (value, stop) ↔
      value < 2 ^ count ∧ HoldsBits d place (lowBits count value) ∧ stop = place + count := by
  unfold needBits
  constructor
  · intro read
    split at read
    · next taken =>
      cases read
      obtain ⟨n, small, rfl, held, rfl⟩ := exists_of_takeBitsFrom taken
      rw [Nat.zero_add, Nat.one_mul]
      exact ⟨small, held, rfl⟩
    · cases read
  · rintro ⟨small, held, rfl⟩
    rw [takeBits_of_holdsBits held small]

end Read

/-! ## Bytes -/

theorem holdsBits_flatMap_iff {d : ByteArray} {offset : Nat} (inside : offset ≤ d.size)
    {bytes : Text} :
    HoldsBits d (8 * offset) (bytes.flatMap fun byte => lowBits 8 byte.toNat) ↔
      HoldsAt d offset bytes := by
  induction bytes generalizing offset with
  | nil => exact iff_of_true trivial (HoldsAt.nil_iff.mpr inside)
  | cons byte bytes ih =>
    rw [List.flatMap_cons, HoldsBits.append_iff, HoldsAt.cons_iff, HoldsAt.singleton_iff,
      length_lowBits, ← Nat.mul_succ]
    constructor
    · rintro ⟨first, rest⟩
      have room : 8 * offset + 8 ≤ d.size * 8 := by
        have le := first.length_le (by omega)
        rwa [length_lowBits] at le
      have lt : offset < d.size := by omega
      have same := first.unique (holdsBits_byte lt) (by rw [length_lowBits, length_lowBits])
      have same := lowBits_injective byte.toNat_lt d[offset].toNat_lt same
      exact ⟨⟨lt, (UInt8.toNat_inj.mp same).symm⟩, (ih lt).mp rest⟩
    · rintro ⟨⟨lt, rfl⟩, rest⟩
      exact ⟨holdsBits_byte lt, (ih lt).mpr rest⟩

/-- Bytes stand in a stream where their bits are. -/
theorem holdsBits_bitsOf_iff {d data : ByteArray} {offset : Nat} (inside : offset ≤ d.size) :
    HoldsBits d (8 * offset) (bitsOf data) ↔
      offset + data.size ≤ d.size ∧ d.extract offset (offset + data.size) = data := by
  rw [bitsOf, holdsBits_flatMap_iff inside]
  constructor
  · exact fun held => ⟨held.le, Zip.extract_of_holdsAt held⟩
  · rintro ⟨room, same⟩
    have held := HoldsAt.extract d room
    rwa [same] at held

end ClassAbi.Deflate
