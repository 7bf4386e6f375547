import ClassAbi.Deflate.Bits
import Mathlib.Data.Nat.Bitwise

/-!
# Bits at a place

`HoldsBits d place bs` says that the stream `d` has the bits `bs` from `place` on.
Packed bits are held by the bytes they are packed into, and a number is taken
from where its bits are held.
-/

namespace ClassAbi.Deflate

/-- The stream has these bits from this place on. -/
def HoldsBits (d : ByteArray) : (place : Nat) → List Bool → Prop
  | _, [] => True
  | place, b :: bs => bitAt d place = some b ∧ HoldsBits d (place + 1) bs

namespace HoldsBits

variable {d : ByteArray} {place : Nat} {bs cs : List Bool}

theorem append_iff :
    HoldsBits d place (bs ++ cs) ↔ HoldsBits d place bs ∧ HoldsBits d (place + bs.length) cs := by
  induction bs generalizing place with
  | nil => exact (and_iff_right trivial).symm
  | cons b bs ih =>
    rw [List.cons_append, HoldsBits, HoldsBits, ih, and_assoc, List.length_cons, Nat.add_assoc,
      Nat.add_comm 1]

/-- Bits that are held are bits of the stream. -/
theorem length_le (h : HoldsBits d place bs) (start : place ≤ d.size * 8) :
    place + bs.length ≤ d.size * 8 := by
  induction bs generalizing place with
  | nil => exact start
  | cons b bs ih =>
    obtain ⟨first, rest⟩ := h
    have inside : place / 8 < d.size := by
      by_contra outside
      rw [bitAt, dif_neg outside] at first
      cases first
    have := ih rest (by omega)
    rw [List.length_cons]
    omega

end HoldsBits

/-! ## Numbers as bits -/

theorem lowBits_succ (count value : Nat) :
    lowBits (count + 1) value = value.testBit 0 :: lowBits count (value / 2) := by
  rw [lowBits, List.range_succ_eq_map, List.map_cons, List.map_map]
  congr 2
  funext i
  exact Nat.testBit_succ value i

theorem lowBits_succ_last (count value : Nat) :
    lowBits (count + 1) value = lowBits count value ++ [value.testBit count] := by
  rw [lowBits, List.range_succ, List.map_append]
  rfl

@[simp] theorem length_lowBits (count value : Nat) : (lowBits count value).length = count := by
  rw [lowBits, List.length_map, List.length_range]

@[simp] theorem length_codeBits (count value : Nat) : (codeBits count value).length = count := by
  rw [codeBits, List.length_reverse, length_lowBits]

theorem codeBits_succ (count value : Nat) :
    codeBits (count + 1) value = value.testBit count :: codeBits count value := by
  rw [codeBits, lowBits_succ_last, List.reverse_append]
  rfl

/-- The lowest bits of a number are the beginning of its bits. -/
theorem lowBits_add (count more value : Nat) :
    lowBits (count + more) value = lowBits count value ++ (List.range more).map
      fun i => value.testBit (count + i) := by
  rw [lowBits, List.range_add, List.map_append, List.map_map]
  rfl

/-- A further bit on top of a number. -/
theorem lowBits_or_two_pow {k value : Nat} (lt : value < 2 ^ k) (b : Bool) :
    lowBits (k + 1) (if b then value ||| 2 ^ k else value) = lowBits k value ++ [b] := by
  have last : value.testBit k = false := Nat.testBit_lt_two_pow lt
  rw [lowBits_succ_last]
  cases b with
  | false => rw [if_neg Bool.false_ne_true, last]
  | true =>
    rw [if_pos rfl, Nat.testBit_or, last, Nat.testBit_two_pow_self, Bool.false_or]
    congr 1
    refine List.map_congr_left fun i mem => ?_
    have below := List.mem_range.mp mem
    rw [Nat.testBit_or, Nat.testBit_two_pow_of_ne (Nat.ne_of_gt below), Bool.or_false]

/-! ## Packing -/

/-- The bits of the bytes. -/
def bitsOf (d : ByteArray) : List Bool := d.data.toList.flatMap fun byte => lowBits 8 byte.toNat

theorem bitsOf_push (d : ByteArray) (byte : UInt8) :
    bitsOf (d.push byte) = bitsOf d ++ lowBits 8 byte.toNat := by
  rw [bitsOf, bitsOf, ByteArray.data_push, Array.toList_push, List.flatMap_append,
    List.flatMap_singleton]

theorem bitAt_eq {d : ByteArray} {i j : Nat} (h : i < d.size) (small : j < 8) :
    bitAt d (8 * i + j) = some (d[i].toNat.testBit j) := by
  have byte : (8 * i + j) / 8 = i := by omega
  have bit : (8 * i + j) % 8 = j := by omega
  have shift : j.toUInt8.toNat % 8 = j := by
    rw [UInt8.toNat_ofNat']
    omega
  rw [bitAt, dif_pos (by omega)]
  simp only [byte, bit, Option.some.injEq]
  rw [Bool.eq_iff_iff, beq_iff_eq, ← UInt8.toNat_inj, UInt8.toNat_and, UInt8.toNat_shiftRight,
    shift, show UInt8.toNat 1 = 1 from rfl, Nat.and_one_is_mod, Nat.shiftRight_eq_div_pow,
    Nat.testBit_eq_decide_div_mod_eq, decide_eq_true_iff]

theorem holdsBits_byte {d : ByteArray} {i : Nat} (h : i < d.size) :
    HoldsBits d (8 * i) (lowBits 8 d[i].toNat) := by
  have bit (j : Nat) (small : j < 8) := bitAt_eq h small
  exact ⟨bit 0 (by decide), bit 1 (by decide), bit 2 (by decide), bit 3 (by decide),
    bit 4 (by decide), bit 5 (by decide), bit 6 (by decide), bit 7 (by decide), trivial⟩

/-- A stream holds its own bits. -/
theorem holdsBits_bitsOf (d : ByteArray) : HoldsBits d 0 (bitsOf d) := by
  suffices rest : ∀ left i, i + left = d.size →
      HoldsBits d (8 * i) ((d.data.toList.drop i).flatMap fun byte => lowBits 8 byte.toNat) from
    rest d.size 0 (Nat.zero_add _)
  intro left
  induction left with
  | zero =>
    intro i size
    have size : d.data.toList.length = i := size.symm
    rw [List.drop_eq_nil_of_le (Nat.le_of_eq size)]
    exact trivial
  | succ left ih =>
    intro i size
    have inside : i < d.data.toList.length := show i < d.size by omega
    rw [List.drop_eq_getElem_cons inside, List.flatMap_cons, HoldsBits.append_iff, length_lowBits]
    exact ⟨holdsBits_byte inside, ih (i + 1) (by omega)⟩

theorem toNat_addBit {k : Nat} {weight : UInt8} (heavy : weight.toNat = 2 ^ k) (byte : UInt8)
    (b : Bool) :
    (if b then byte ||| weight else byte).toNat =
      if b then byte.toNat ||| 2 ^ k else byte.toNat := by
  cases b with
  | false => rfl
  | true => rw [if_pos rfl, if_pos rfl, UInt8.toNat_or, heavy]

theorem addBit_lt {k value : Nat} (lt : value < 2 ^ k) (b : Bool) :
    (if b then value ||| 2 ^ k else value) < 2 ^ (k + 1) := by
  have wider : 2 ^ k < 2 ^ (k + 1) := Nat.pow_lt_pow_succ Nat.one_lt_two
  split
  · exact Nat.or_lt_two_pow (Nat.lt_trans lt wider) wider
  · exact Nat.lt_trans lt wider

theorem toNat_doubled {k : Nat} {weight : UInt8} (heavy : weight.toNat = 2 ^ k)
    (room : k + 1 < 8) : (weight <<< 1).toNat = 2 ^ (k + 1) := by
  rw [UInt8.toNat_shiftLeft, heavy, Nat.shiftLeft_eq, show UInt8.toNat 1 % 8 = 1 from rfl,
    Nat.pow_one, ← Nat.pow_succ, Nat.mod_eq_of_lt (Nat.pow_lt_pow_right Nat.one_lt_two room)]

/-- Bytes packed from bits hold what was packed before and the bits. -/
theorem holdsBits_packBitsFrom {bits : List Bool} {weight byte : UInt8} {out : ByteArray} {k : Nat}
    (small : k < 8) (heavy : weight.toNat = 2 ^ k) (fits : byte.toNat < 2 ^ k) :
    HoldsBits (packBitsFrom bits weight byte out) 0 (bitsOf out ++ lowBits k byte.toNat ++ bits) := by
  induction bits generalizing weight byte out k with
  | nil =>
    rw [packBitsFrom, List.append_nil]
    split
    · next one =>
      obtain rfl : k = 0 := by
        rw [eq_of_beq one] at heavy
        exact Nat.pow_right_injective (Nat.le_refl 2) heavy.symm
      rw [show lowBits 0 byte.toNat = [] from rfl, List.append_nil]
      exact holdsBits_bitsOf out
    · -- The bits of the byte begun are the first of those of the byte that is written.
      have whole := holdsBits_bitsOf (out.push byte)
      rw [bitsOf_push, show 8 = k + (8 - k) by omega, lowBits_add, ← List.append_assoc,
        HoldsBits.append_iff] at whole
      exact whole.1
  | cons b bits ih =>
    have next : lowBits (k + 1) (if b then byte ||| weight else byte).toNat =
        lowBits k byte.toNat ++ [b] := by
      rw [toNat_addBit heavy, lowBits_or_two_pow fits]
    have bound : (if b then byte ||| weight else byte).toNat < 2 ^ (k + 1) := by
      rw [toNat_addBit heavy]
      exact addBit_lt fits b
    rw [packBitsFrom]
    generalize (if b then byte ||| weight else byte) = byte' at next bound ⊢
    split
    · next full =>
      obtain rfl : k = 7 := by
        rw [eq_of_beq full] at heavy
        exact Nat.pow_right_injective (Nat.le_refl 2) heavy.symm
      have held := @ih 1 0 (out.push byte') 0 (by decide) rfl (by decide)
      rwa [bitsOf_push, next, show lowBits 0 _ = [] from rfl, List.append_nil, ← List.append_assoc,
        List.append_assoc, List.singleton_append] at held
    · next more =>
      have room : k + 1 < 8 := by
        by_contra full
        obtain rfl : k = 7 := by omega
        exact more (beq_iff_eq.mpr (UInt8.toNat_inj.mp heavy))
      have held := @ih _ _ out _ room (toNat_doubled heavy room) bound
      rwa [next, ← List.append_assoc, List.append_assoc, List.singleton_append] at held

theorem holdsBits_packBits (bits : List Bool) : HoldsBits (packBits bits) 0 bits :=
  holdsBits_packBitsFrom (k := 0) (by decide) rfl (by decide)

/-! ## Taking numbers -/

theorem takeBitsFrom_of_holdsBits {d : ByteArray} {count place weight value acc : Nat}
    (held : HoldsBits d place (lowBits count value)) (lt : value < 2 ^ count) :
    takeBitsFrom d count place weight acc = some (acc + weight * value, place + count) := by
  induction count generalizing place weight value acc with
  | zero =>
    obtain rfl : value = 0 := by omega
    rfl
  | succ count ih =>
    rw [lowBits_succ] at held
    obtain ⟨first, rest⟩ := held
    have half : value / 2 < 2 ^ count := by omega
    rw [takeBitsFrom, first]
    dsimp only
    rw [ih rest half, Nat.add_assoc place, Nat.add_comm 1, Nat.testBit_zero, Nat.mul_assoc]
    congr 2
    have split := Nat.div_add_mod value 2
    obtain even | odd := Nat.mod_two_eq_zero_or_one value
    · rw [even, Nat.add_zero] at split
      rw [even, split]
      rfl
    · rw [odd] at split
      rw [odd, if_pos (by decide), Nat.add_assoc, Nat.add_comm weight, ← Nat.mul_succ,
        Nat.succ_eq_add_one, split]

/-- The number whose bits are held is taken. -/
theorem takeBits_of_holdsBits {d : ByteArray} {count place value : Nat}
    (held : HoldsBits d place (lowBits count value)) (lt : value < 2 ^ count) :
    takeBits d count place = some (value, place + count) := by
  rw [takeBits, takeBitsFrom_of_holdsBits held lt, Nat.zero_add, Nat.one_mul]

end ClassAbi.Deflate
