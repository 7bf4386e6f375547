import ClassAbi.Proofs.Chains
import ClassAbi.Proofs.FixedCodes

/-!
# Deflated data is inflated to the data

A stream is a sequence of parts, each of which adds bytes to the output
(`Token.addTo`).  The encoder cuts data into parts that make up the data again
(`Produces`), whatever its table makes it find, since a copy is only written where
the bytes agree.  The decoder follows parts bit by bit, so that it makes the same
of them.
-/

namespace ClassAbi.Deflate

/-! ## What parts make up -/

/-- The output with the bytes of a part. -/
def Token.addTo (out : ByteArray) : Token → ByteArray
  | literal value => out.push value
  | copy length distance => copyBack distance length out

/-- A part that can be written behind the output, where at most `size` bytes are expected. -/
def Token.Fits (size : Nat) (out : ByteArray) : Token → Prop
  | literal _ => out.size < size
  | copy length distance =>
    (3 ≤ length ∧ length ≤ maxLength) ∧ (1 ≤ distance ∧ distance ≤ maxDistance) ∧
      distance ≤ out.size ∧ out.size + length ≤ size

/-- The parts, which fit one behind the other, lead from one output to another. -/
def Produces (size : Nat) : List Token → ByteArray → ByteArray → Prop
  | [], out, whole => out = whole
  | t :: ts, out, whole => t.Fits size out ∧ Produces size ts (t.addTo out) whole

/-! ## Decoding parts -/

section Decode

variable {d : ByteArray} {size : Nat}

/-- The decoder adds the bytes of a part, and goes on behind its bits. -/
theorem inflateSymbols_token {t : Token} {bits place : Nat} {out : ByteArray}
    (fits : t.Fits size out) (held : HoldsBits d place t.bits) :
    inflateSymbols fixedLiterals fixedDistances d size (bits + 1) place out =
      inflateSymbols fixedLiterals fixedDistances d size bits (place + t.bits.length)
        (t.addTo out) := by
  cases t with
  | literal value =>
    have small : value.toNat < endOfBlock := value.toNat_lt
    have word : needWord fixedLiterals d .literalCode place = .ok (value.toNat, _) :=
      Code.needWord_of_symbol? (symbol?_fixedWord (Nat.lt_trans small (by decide))) held
    rw [inflateSymbols, word]
    change (if value.toNat < endOfBlock then _ else _) = _
    rw [if_pos small, if_pos (show out.size < size from fits), Nat.toUInt8, UInt8.ofNat_toNat]
    rfl
  | copy length distance =>
    obtain ⟨⟨short, long⟩, ⟨near, far⟩, reach, room⟩ := fits
    obtain ⟨range, -⟩ := covers_lengthRanges.rangeOf_spec short long
    obtain ⟨range', -⟩ := covers_distanceRanges.rangeOf_spec near far
    change _ < 29 at range
    change _ < 30 at range'
    simp only [Token.bits, HoldsBits.append_iff, List.length_append, ← Nat.add_assoc] at held
    obtain ⟨⟨⟨word, extra⟩, word'⟩, extra'⟩ := held
    -- The word of the length, its extra bits, the word of the distance, its extra bits.
    rw [inflateSymbols, Code.needWord_of_symbol? (symbol?_fixedWord (by omega)) word, ok_bind]
    dsimp only
    rw [if_neg (by rw [endOfBlock]; omega), if_neg (by rw [beq_iff_eq, endOfBlock]; omega),
      Nat.add_sub_cancel_left, covers_lengthRanges.needRange_eq short long extra, ok_bind]
    dsimp only
    rw [Code.needWord_of_symbol? (symbol?_distance (by omega)) word', ok_bind]
    dsimp only
    rw [covers_distanceRanges.needRange_eq near far extra', ok_bind]
    dsimp only
    rw [if_neg (by omega), if_neg (by omega), if_neg (by omega)]
    simp only [Token.bits, Token.addTo, List.length_append, Nat.add_assoc]

/-- The decoder follows parts up to the end of their block. -/
theorem inflateSymbols_produces {ts : List Token} {bits place : Nat} {out whole : ByteArray}
    (produces : Produces size ts out whole) (enough : ts.length < bits)
    (held : HoldsBits d place (ts.flatMap Token.bits ++ fixedWord endOfBlock)) :
    ∃ stop, inflateSymbols fixedLiterals fixedDistances d size bits place out = .ok (stop, whole) := by
  induction ts generalizing bits place out with
  | nil =>
    obtain ⟨bits, rfl⟩ := Nat.exists_eq_succ_of_ne_zero (Nat.ne_of_gt enough)
    obtain rfl : out = whole := produces
    have known := symbol?_fixedWord (by decide : endOfBlock < 288)
    rw [inflateSymbols, Code.needWord_of_symbol? known held]
    exact ⟨_, rfl⟩
  | cons t ts ih =>
    obtain ⟨bits, rfl⟩ := Nat.exists_eq_succ_of_ne_zero (Nat.ne_zero_of_lt enough)
    rw [List.flatMap_cons, List.append_assoc, HoldsBits.append_iff] at held
    rw [inflateSymbols_token produces.1 held.1]
    exact ih produces.2 (Nat.lt_of_succ_lt_succ enough) held.2

end Decode

/-! ## Cutting data into parts -/

section Encode

variable {d : ByteArray}

theorem push_extract {i : Nat} (h : i < d.size) :
    (d.extract 0 i).push d[i] = d.extract 0 (i + 1) := by
  apply ByteArray.ext
  rw [ByteArray.data_push, ByteArray.data_extract, ByteArray.data_extract]
  have pushed : (d.data.extract 0 i).push d.data[i] = d.data.extract (min 0 i) (i + 1) :=
    Array.push_extract_getElem h
  rwa [Nat.zero_min] at pushed

/-- Bytes that were found to agree do agree. -/
theorem matchLength_spec {i j limit k : Nat} (h : k < matchLength d i j limit) :
    ∃ value, d[i + k]? = some value ∧ d[j + k]? = some value := by
  induction limit generalizing i j k with
  | zero => exact absurd h (Nat.not_lt_zero k)
  | succ limit ih =>
    rw [matchLength] at h
    split at h
    · next a b first second =>
      split at h
      · next same =>
        cases k with
        | zero => exact ⟨a, first, eq_of_beq same ▸ second⟩
        | succ k =>
          rw [← Nat.add_assoc, ← Nat.add_assoc, Nat.add_right_comm i, Nat.add_right_comm j]
          exact ih (Nat.lt_of_succ_lt_succ h)
      · exact absurd h (Nat.not_lt_zero k)
    · exact absurd h (Nat.not_lt_zero k)

theorem matchLength_le (i j limit : Nat) : matchLength d i j limit ≤ limit := by
  induction limit generalizing i j with
  | zero => exact Nat.le_refl 0
  | succ limit ih =>
    rw [matchLength]
    split
    · split
      · exact Nat.succ_le_succ (ih (i + 1) (j + 1))
      · exact Nat.zero_le _
    · exact Nat.zero_le _

/-- A copy of bytes that agree with those that follow adds those that follow. -/
theorem copyBack_extract {i distance count : Nat} (back : 1 ≤ distance) (reach : distance ≤ i)
    (inside : i + count ≤ d.size)
    (agree : ∀ k < count, ∃ value, d[i + k]? = some value ∧ d[i - distance + k]? = some value) :
    copyBack distance count (d.extract 0 i) = d.extract 0 (i + count) := by
  induction count generalizing i with
  | zero => rfl
  | succ count ih =>
    have size : (d.extract 0 i).size = i := by
      rw [ByteArray.size_extract]
      omega
    obtain ⟨value, next, found⟩ := agree 0 (Nat.succ_pos count)
    obtain ⟨here, rfl⟩ := getElem?_eq_some_iff.mp next
    obtain ⟨there, same⟩ := getElem?_eq_some_iff.mp found
    rw [copyBack]
    simp only [size, ByteArray.getElem_extract, Nat.zero_add]
    rw [dif_pos (by omega)]
    have same : d[i - distance] = d[i] := same
    rw [same, push_extract (by omega : i < d.size), ih (by omega) (by omega), Nat.add_assoc, Nat.add_comm 1]
    intro k lt
    have further := agree (k + 1) (Nat.succ_lt_succ lt)
    rwa [Nat.add_comm k, ← Nat.add_assoc, ← Nat.add_assoc, ← Nat.sub_add_comm reach] at further

/-- A copy that is found is one of bytes that agree. -/
theorem copyLength_spec {i seen n : Nat} (found : copyLength d i seen = n) (positive : 0 < n)
    (before : seen ≤ i) :
    n ≤ maxLength ∧ (1 ≤ i - (seen - 1) ∧ i - (seen - 1) ≤ maxDistance) ∧ i - (seen - 1) ≤ i ∧
      i + n ≤ d.size ∧
      ∀ k < n, ∃ value, d[i + k]? = some value ∧ d[i - (i - (seen - 1)) + k]? = some value := by
  rw [copyLength] at found
  split at found
  · omega
  · next usable =>
    simp only [Bool.or_eq_true, beq_iff_eq, decide_eq_true_eq, not_or, Nat.not_lt] at usable
    obtain ⟨present, near⟩ := usable
    have back : i - (i - (seen - 1)) = seen - 1 := by omega
    have agree (k : Nat) (lt : k < n) :
        ∃ value, d[i + k]? = some value ∧ d[seen - 1 + k]? = some value :=
      matchLength_spec (found.symm ▸ lt)
    obtain ⟨last, inside, -⟩ := agree (n - 1) (by omega)
    obtain ⟨inside, -⟩ := getElem?_eq_some_iff.mp inside
    refine ⟨found ▸ matchLength_le i (seen - 1) maxLength, ⟨by omega, near⟩, Nat.sub_le .., ?_, ?_⟩
    · change i + (n - 1) < d.size at inside
      omega
    · rwa [back]

/-- The places in the table stay behind the next one. -/
theorem getD_setIfInBounds_le {table : Array Nat} {i j changed : Nat}
    (seen : ∀ place, table.getD place 0 ≤ i) (next : i < j) (place : Nat) :
    (table.setIfInBounds changed (i + 1)).getD place 0 ≤ j := by
  have := seen place
  rw [Array.getD_eq_getD_getElem?] at this ⊢
  rw [Array.getElem?_setIfInBounds]
  split
  · split
    · exact next
    · exact Nat.zero_le j
  · omega

/-- The parts that are written make up the data. -/
theorem tokensFrom_produces {left i : Nat} {table : Array Nat} {earlier : Array Token}
    (size : i + left = d.size) (seen : ∀ place, table.getD place 0 ≤ i) :
    ∃ ts, (tokensFrom d left i table earlier).toList = earlier.toList ++ ts ∧
      Produces d.size ts (d.extract 0 i) d := by
  fun_induction tokensFrom d left i table earlier with
  | case1 i =>
    rw [Nat.add_zero] at size
    exact ⟨[], (List.append_nil _).symm, by rw [Produces, size, ByteArray.extract_zero_size]⟩
  | case2 left i table earlier place last table' rest found ih =>
    have before : last ≤ i := seen place
    obtain ⟨short, near, reach, inside, agree⟩ := copyLength_spec found (Nat.succ_pos _) before
    obtain ⟨ts, cut, produces⟩ := ih (by omega) (getD_setIfInBounds_le seen (by omega))
    refine ⟨.copy (rest + 3) (i - (last - 1)) :: ts, ?_, ?_, ?_⟩
    · rw [cut, Array.toList_push, List.append_assoc]
      rfl
    · have size : (d.extract 0 i).size = i := by
        rw [ByteArray.size_extract]
        omega
      exact ⟨⟨Nat.le_add_left 3 rest, short⟩, near, by rwa [size], by rwa [size]⟩
    · rw [Token.addTo, copyBack_extract near.1 reach inside agree]
      exact produces
  | case3 left i table earlier place last table' absent ih =>
    have inside : i < d.size := by omega
    obtain ⟨ts, cut, produces⟩ := ih (by omega) (getD_setIfInBounds_le seen (Nat.lt_succ_self i))
    refine ⟨.literal (d[i]?.getD 0) :: ts, ?_, ?_, ?_⟩
    · rw [cut, Array.toList_push, List.append_assoc]
      rfl
    · rw [Token.Fits, ByteArray.size_extract]
      omega
    · rw [Token.addTo, getElem?_pos d i inside, Option.getD_some, push_extract inside]
      exact produces

theorem tokens_produces (d : ByteArray) : Produces d.size (tokens d).toList .empty d := by
  have seen (place : Nat) : (Array.replicate tableSize 0).getD place 0 ≤ 0 := by
    rw [Array.getD_eq_getD_getElem?, Array.getElem?_replicate]
    split <;> exact Nat.le_refl 0
  obtain ⟨ts, cut, produces⟩ := tokensFrom_produces (i := 0) (Nat.zero_add d.size) seen
  rw [tokens, cut, List.nil_append]
  rwa [show d.extract 0 0 = .empty from ByteArray.extract_same] at produces

end Encode

/-! ## The round trip -/

theorem length_fixedWord_pos (symbol : Nat) : 0 < (fixedWord symbol).length := by
  unfold fixedWord
  split_ifs <;> rw [length_codeBits] <;> decide

/-- Every part takes bits. -/
theorem length_le_flatMap_bits (ts : List Token) : ts.length ≤ (ts.flatMap Token.bits).length := by
  induction ts with
  | nil => exact Nat.le_refl 0
  | cons t ts ih =>
    have first : 0 < t.bits.length := by
      cases t with
      | literal value => exact length_fixedWord_pos _
      | copy length distance =>
        have := length_fixedWord_pos (257 + rangeOf lengthRanges length)
        simp only [Token.bits, List.length_append]
        omega
    rw [List.flatMap_cons, List.length_append, List.length_cons]
    omega

/-- Data that is not empty is inflated from its deflated form. -/
theorem inflate_deflate {d : ByteArray} (nonempty : 0 < d.size) :
    inflate (deflate d) d.size = .ok d := by
  have held := holdsBits_packBits (streamBits (tokens d).toList)
  change HoldsBits (deflate d) 0 _ at held
  have enough := held.length_le (Nat.zero_le _)
  have count := length_le_flatMap_bits (tokens d).toList
  rw [streamBits, List.append_assoc] at held enough
  rw [List.length_append, List.length_append] at enough
  rw [HoldsBits.append_iff] at held
  have fuel : (tokens d).toList.length < (deflate d).size * 8 + 1 := by omega
  obtain ⟨stop, inflated⟩ := inflateSymbols_produces (tokens_produces d) fuel held.2
  have header : takeBits (deflate d) 3 0 = some (3, 3) :=
    takeBits_of_holdsBits held.1 (by decide)
  have block : inflateBlocks (deflate d) d.size ((deflate d).size * 8 + 1) 0 .empty = .ok d := by
    rw [inflateBlocks, needBits, header, ok_bind]
    dsimp only
    rw [if_neg (by decide), if_pos (by decide)]
    exact bind_eq_ok.mpr ⟨_, inflated, rfl⟩
  rw [inflate, if_neg (by rw [beq_iff_eq]; omega), block, ok_bind, if_pos (beq_self_eq_true _)]

end ClassAbi.Deflate
