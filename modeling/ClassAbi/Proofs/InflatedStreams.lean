import ClassAbi.Proofs.ReadCodes

/-!
# Streams are inflated to what they stand for

The decoder follows the bits of a stream part by part.  For each kind of part there are two
statements: what the decoder has read are the bits of such a part, and where the bits of such a
part are, the decoder reads them.  The second one needs room for the output, which the decoder
expects to have a known size, and enough steps.  Every part of a block takes at least one bit, so
there are never more parts than bits.

`inflate_eq_ok` puts them together.  The decoder accepts the streams of the format that bring at
most 30 lengths of words for distances, except those that stand for no data.
-/

namespace ClassAbi.Deflate

variable {d : ByteArray} {place stop size : Nat}

/-! ## Lengths and distances -/

theorem needRange_eq_ok {ranges : Array Range} {symbol value : Nat} {fault : InflateError} :
    needRange ranges symbol d fault place = .ok (value, stop) ↔
      ∃ bits, Chooses ranges symbol value bits ∧ HoldsBits d place bits ∧
        stop = place + bits.length := by
  unfold needRange
  constructor
  · intro read
    split at read
    · cases read
    next range found =>
    obtain ⟨⟨extra, next⟩, first, read⟩ := bind_eq_ok.mp read
    obtain ⟨small, held, rfl⟩ := needBits_eq_ok.mp first
    cases read
    exact ⟨_, ⟨range, extra, found, small, rfl, rfl⟩, held, by rw [length_lowBits]⟩
  · rintro ⟨_, ⟨range, extra, found, small, rfl, rfl⟩, held, rfl⟩
    rw [found, length_lowBits]
    dsimp only
    rw [needBits_eq_ok.mpr ⟨small, held, rfl⟩]
    rfl

/-- Values of ranges are not below the least base. -/
theorem Chooses.le {ranges : Array Range} {symbol value least : Nat} {bits : List Bool}
    (chosen : Chooses ranges symbol value bits) (bases : ∀ range ∈ ranges, least ≤ range.base) :
    least ≤ value := by
  obtain ⟨range, extra, found, -, rfl, -⟩ := chosen
  exact Nat.le_add_right_of_le (bases range (Array.mem_of_getElem? found))

theorem le_length {symbol length : Nat} {bits : List Bool}
    (chosen : Chooses lengthRanges symbol length bits) : 3 ≤ length := chosen.le (by decide)

theorem le_distance {symbol distance : Nat} {bits : List Bool}
    (chosen : Chooses distanceRanges symbol distance bits) : 1 ≤ distance := chosen.le (by decide)

/-! ## Copies -/

section Copy

variable {distance : Nat} {out : ByteArray}

theorem copyBack_succ (back : 1 ≤ distance) (reach : distance ≤ out.size) (length : Nat) :
    ∃ value, out[out.size - distance]? = some value ∧
      copyBack distance (length + 1) out = copyBack distance length (out.push value) := by
  have inside : out.size - distance < out.size := by omega
  refine ⟨out[out.size - distance], getElem?_pos out _ inside, ?_⟩
  rw [copyBack, dif_pos inside]

theorem getElem?_push_lt {value : UInt8} {i : Nat} (inside : i < out.size) :
    (out.push value)[i]? = out[i]? := by
  change (out.data.push value)[i]? = out.data[i]?
  exact Array.getElem?_push.trans (if_neg (Nat.ne_of_lt inside))

theorem getElem?_push_size {value : UInt8} : (out.push value)[out.size]? = some value := by
  change (out.data.push value)[out.data.size]? = some value
  exact Array.getElem?_push_size

theorem isCopy_copyBack (back : 1 ≤ distance) (reach : distance ≤ out.size) (length : Nat) :
    IsCopy out length distance (copyBack distance length out) := by
  induction length generalizing out with
  | zero => exact ⟨reach, rfl, fun _ _ => rfl, fun i low high => absurd high (Nat.not_lt.mpr low)⟩
  | succ length ih =>
    obtain ⟨value, found, step⟩ := copyBack_succ back reach length
    have more : (out.push value).size = out.size + 1 := ByteArray.size_push
    obtain ⟨-, size, front, later⟩ := ih (show distance ≤ (out.push value).size by omega)
    rw [step]
    refine ⟨reach, by omega, fun i inside => ?_, fun i low high => ?_⟩
    · rw [front i (by omega), getElem?_push_lt inside]
    · obtain rfl | high' : i = out.size ∨ out.size < i := by omega
      · rw [front _ (by omega), front _ (by omega), getElem?_push_size,
          getElem?_push_lt (by omega), found]
      · exact later i (by omega) high

/-- There is one way to copy. -/
theorem IsCopy.eq_copyBack {length : Nat} {longer : ByteArray} (back : 1 ≤ distance)
    (copied : IsCopy out length distance longer) : longer = copyBack distance length out := by
  have same := isCopy_copyBack back copied.reach length
  have agree (i : Nat) : longer[i]? = (copyBack distance length out)[i]? := by
    induction i using Nat.strong_induction_on with
    | h i ih =>
      by_cases inside : i < longer.size
      · by_cases low : i < out.size
        · rw [copied.front i low, same.front i low]
        · have low := Nat.not_lt.mp low
          have inside' : i < (copyBack distance length out).size := by
            rw [same.size, ← copied.size]
            exact inside
          have reach := copied.reach
          rw [copied.back i low inside, same.back i low inside', ih (i - distance) (by omega)]
      · rw [getElem?_neg longer i inside, getElem?_neg _ i]
        rw [same.size, ← copied.size]
        exact inside
  exact ByteArray.ext (Array.ext_getElem? agree)

end Copy

/-! ## Parts of a block -/

section Parts

variable {literals distances : List Nat} {out whole : ByteArray}

theorem CodedParts.size_le {used : List Bool}
    (coded : CodedParts literals distances out used whole) : out.size ≤ whole.size := by
  induction coded with
  | done => exact Nat.le_refl _
  | literal _ _ ih =>
    rw [ByteArray.size_push] at ih
    omega
  | copy _ _ _ _ copied _ ih =>
    rw [copied.size] at ih
    omega

/-- A block that ends has a word for its end. -/
theorem CodedParts.getD_endOfBlock_ne_zero {used : List Bool}
    (coded : CodedParts literals distances out used whole) : literals.getD endOfBlock 0 ≠ 0 := by
  induction coded with
  | done ends =>
    obtain ⟨length, found, positive, -⟩ := ends
    rw [List.getD_eq_getElem?_getD, found]
    exact positive
  | literal _ _ ih => exact ih
  | copy _ _ _ _ _ _ ih => exact ih

/-- What is read as the parts of a block are the bits of such parts. -/
theorem exists_codedParts {bits : Nat}
    (read : inflateSymbols (.ofLengths literals) (.ofLengths distances) d size bits place out =
      .ok (stop, whole)) :
    ∃ used, CodedParts literals distances out used whole ∧ HoldsBits d place used ∧
      stop = place + used.length := by
  induction bits generalizing place out with
  | zero => cases read
  | succ bits ih =>
    obtain ⟨⟨symbol, next⟩, first, read⟩ := bind_eq_ok.mp read
    obtain ⟨word, here, held₁, rfl⟩ := Code.exists_isWord_of_needWord first
    dsimp only at read
    split at read
    · next small =>
      split at read
      · obtain ⟨used, coded, rest, rfl⟩ := ih read
        have value : symbol.toUInt8.toNat = symbol := by
          rw [Nat.toUInt8, UInt8.toNat_ofNat']
          exact Nat.mod_eq_of_lt small
        rw [← value] at here
        refine ⟨word ++ used, .literal here coded, HoldsBits.append_iff.mpr ⟨held₁, rest⟩, ?_⟩
        rw [List.length_append, Nat.add_assoc]
      · cases read
    next large =>
    split at read
    · next ends =>
      cases read
      rw [eq_of_beq ends] at here
      exact ⟨word, .done here, held₁, rfl⟩
    next further =>
    obtain ⟨⟨length, next⟩, second, read⟩ := bind_eq_ok.mp read
    obtain ⟨extra, chosen, held₂, rfl⟩ := needRange_eq_ok.mp second
    obtain ⟨⟨symbol', next⟩, third, read⟩ := bind_eq_ok.mp read
    obtain ⟨word', far, held₃, rfl⟩ := Code.exists_isWord_of_needWord third
    obtain ⟨⟨distance, next⟩, fourth, read⟩ := bind_eq_ok.mp read
    obtain ⟨extra', chosen', held₄, rfl⟩ := needRange_eq_ok.mp fourth
    dsimp only at read
    split at read
    · cases read
    split at read
    · cases read
    next reach =>
    split at read
    · cases read
    obtain ⟨used, coded, rest, rfl⟩ := ih read
    have number : 257 + (symbol - 257) = symbol := by
      rw [beq_iff_eq, endOfBlock] at further
      rw [endOfBlock] at large
      omega
    rw [← number] at here
    have copied := isCopy_copyBack (le_distance chosen') (Nat.not_lt.mp reach) length
    refine ⟨_, .copy here chosen far chosen' copied coded, ?_, ?_⟩
    · simp only [HoldsBits.append_iff]
      exact ⟨held₁, held₂, held₃, held₄, rest⟩
    · simp only [List.length_append, Nat.add_assoc]

/-- Where the bits of the parts of a block are, they are read. -/
theorem inflateSymbols_of_codedParts {used : List Bool}
    (coded : CodedParts literals distances out used whole) (usable : IsUsable literals)
    (usable' : IsUsable distances) (short : ∀ length ∈ literals, length ≤ maxWordLength)
    (short' : ∀ length ∈ distances, length ≤ maxWordLength) (room : whole.size ≤ size) {bits : Nat}
    (enough : used.length < bits) (held : HoldsBits d place used) :
    inflateSymbols (.ofLengths literals) (.ofLengths distances) d size bits place out =
      .ok (place + used.length, whole) := by
  induction coded generalizing bits place with
  | @done out word ends =>
    obtain ⟨bits, rfl⟩ := Nat.exists_eq_succ_of_ne_zero (Nat.ne_zero_of_lt enough)
    rw [inflateSymbols, Code.needWord_of_isWord usable short ends held]
    rfl
  | @literal out value word rest whole here coded ih =>
    obtain ⟨bits, rfl⟩ := Nat.exists_eq_succ_of_ne_zero (Nat.ne_zero_of_lt enough)
    have positive := length_pos_of_isWord here
    have grown := coded.size_le
    rw [ByteArray.size_push] at grown
    rw [List.length_append] at enough
    rw [HoldsBits.append_iff] at held
    rw [inflateSymbols, Code.needWord_of_isWord usable short here held.1, ok_bind]
    dsimp only
    rw [if_pos (show value.toNat < endOfBlock from value.toNat_lt), if_pos (by omega),
      Nat.toUInt8, UInt8.ofNat_toNat, ih room (by omega) held.2, List.length_append, Nat.add_assoc]
  | @copy out symbol word length extra symbol' word' distance extra' longer rest whole long chosen
      far chosen' copied coded ih =>
    obtain ⟨bits, rfl⟩ := Nat.exists_eq_succ_of_ne_zero (Nat.ne_zero_of_lt enough)
    have positive := length_pos_of_isWord long
    have grown := coded.size_le
    have added := copied.size
    have reach := copied.reach
    have atLeast := le_length chosen
    obtain rfl := copied.eq_copyBack (le_distance chosen')
    simp only [List.length_append] at enough ⊢
    simp only [HoldsBits.append_iff] at held
    obtain ⟨held₁, held₂, held₃, held₄, last⟩ := held
    rw [inflateSymbols, Code.needWord_of_isWord usable short long held₁, ok_bind]
    dsimp only
    rw [if_neg (by rw [endOfBlock]; omega), if_neg (by rw [beq_iff_eq, endOfBlock]; omega),
      Nat.add_sub_cancel_left, needRange_eq_ok.mpr ⟨extra, chosen, held₂, rfl⟩, ok_bind]
    dsimp only
    rw [Code.needWord_of_isWord usable' short' far held₃, ok_bind]
    dsimp only
    rw [needRange_eq_ok.mpr ⟨extra', chosen', held₄, rfl⟩, ok_bind]
    dsimp only
    rw [if_neg (by omega), if_neg (by omega), if_neg (by omega), ih room (by omega) last]
    simp only [Nat.add_assoc]

end Parts

/-! ## Stored blocks -/

section Stored

variable {out whole : ByteArray}

theorem lowBits_lengths {length : Nat} (small : length < 2 ^ 16) :
    lowBits 32 (2 ^ 16 * (0xFFFF - length) + length) =
      lowBits 16 length ++ lowBits 16 (0xFFFF - length) :=
  lowBits_append small 16 (0xFFFF - length)

/-- What is read as a stored block are the bits of one. -/
theorem exists_of_inflateStored (read : inflateStored d size place out = .ok (stop, whole)) :
    ∃ (fill : List Bool) (data : ByteArray),
      (fill.length < 8 ∧ (place + fill.length) % 8 = 0 ∧ data.size < 2 ^ 16) ∧
      whole = out ++ data ∧ stop = place + fill.length + 32 + data.size * 8 ∧
      HoldsBits d place (fill ++ (lowBits 16 data.size ++
        (lowBits 16 (0xFFFF - data.size) ++ bitsOf data))) := by
  obtain ⟨⟨lengths, next⟩, first, read⟩ := bind_eq_ok.mp read
  obtain ⟨small, held, rfl⟩ := needBits_eq_ok.mp first
  have inside := held.length_le_of_pos (by rw [length_lowBits]; omega)
  rw [length_lowBits] at inside
  dsimp only at read
  split at read
  · cases read
  next agree =>
  split at read
  · cases read
  next room =>
  cases read
  rw [bne_iff_ne, ne_eq, not_not] at agree
  rw [not_or, Nat.not_lt, Nat.not_lt] at room
  obtain ⟨fill, count, filled⟩ := exists_holdsBits
    (show place + ((place + 7) / 8 * 8 - place) ≤ d.size * 8 by omega)
  obtain ⟨data, taken⟩ : ∃ data, d.extract (((place + 7) / 8 * 8 + 32) / 8)
    (((place + 7) / 8 * 8 + 32) / 8 + lengths % 0x10000) = data := ⟨_, rfl⟩
  have length : data.size = lengths % 0x10000 := by
    rw [← taken, ByteArray.size_extract]
    omega
  have bytes : HoldsBits d (8 * (((place + 7) / 8 * 8 + 32) / 8)) (bitsOf data) := by
    rw [holdsBits_bitsOf_iff (by omega), length]
    exact ⟨room.1, taken⟩
  have number : lengths = 2 ^ 16 * (0xFFFF - data.size) + data.size := by omega
  rw [number, lowBits_lengths (by omega)] at held
  have aligned : place + fill.length = (place + 7) / 8 * 8 := by omega
  have behind : 8 * (((place + 7) / 8 * 8 + 32) / 8) = place + fill.length + 16 + 16 := by omega
  rw [← aligned, HoldsBits.append_iff] at held
  rw [behind] at bytes
  rw [taken]
  refine ⟨fill, data, ⟨by omega, by omega, by omega⟩, rfl, by omega, ?_⟩
  simp only [HoldsBits.append_iff, length_lowBits] at held ⊢
  exact ⟨filled, held.1, held.2, bytes⟩

/-- Where the bits of a stored block are, it is read. -/
theorem inflateStored_of_holdsBits {fill : List Bool} {data : ByteArray} (short : fill.length < 8)
    (filled : (place + fill.length) % 8 = 0) (length : data.size < 2 ^ 16)
    (room : (out ++ data).size ≤ size)
    (held : HoldsBits d place (fill ++ (lowBits 16 data.size ++
      (lowBits 16 (0xFFFF - data.size) ++ bitsOf data)))) :
    inflateStored d size place out =
      .ok (place + fill.length + 32 + data.size * 8, out ++ data) := by
  have inside := held.length_le_of_pos (by simp only [List.length_append, length_lowBits]; omega)
  simp only [List.length_append, length_lowBits, length_bitsOf] at inside
  simp only [HoldsBits.append_iff, length_lowBits] at held
  obtain ⟨-, held₁, held₂, bytes⟩ := held
  have aligned : (place + 7) / 8 * 8 = place + fill.length := by omega
  have first : needBits d 32 ((place + 7) / 8 * 8) =
      .ok (2 ^ 16 * (0xFFFF - data.size) + data.size, place + fill.length + 32) := by
    refine needBits_eq_ok.mpr ⟨by omega, ?_, by rw [aligned]⟩
    rw [lowBits_lengths length, aligned, HoldsBits.append_iff, length_lowBits]
    exact ⟨held₁, held₂⟩
  have behind : place + fill.length + 16 + 16 = 8 * ((place + fill.length + 32) / 8) := by omega
  rw [behind, holdsBits_bitsOf_iff (by omega)] at bytes
  have low : (2 ^ 16 * (0xFFFF - data.size) + data.size) % 0x10000 = data.size := by omega
  have high : (2 ^ 16 * (0xFFFF - data.size) + data.size) / 0x10000 = 0xFFFF - data.size := by
    omega
  rw [ByteArray.size_append] at room
  rw [inflateStored, first, ok_bind]
  dsimp only
  rw [low, high, if_neg (by rw [bne_iff_ne]; omega), if_neg (by omega), bytes.2]
  refine congrArg Except.ok (Prod.ext ?_ rfl)
  dsimp only
  omega

end Stored

/-! ## Blocks -/

section Block

variable {out whole : ByteArray} {kind : Nat}

/-- A block behind its header. -/
def inflateBlock (d : ByteArray) (size kind place : Nat) (out : ByteArray) :
    Except InflateError (Nat × ByteArray) :=
  if kind == 0 then inflateStored d size place out
  else if kind == 1 then
    inflateSymbols fixedLiterals fixedDistances d size (d.size * 8 + 1) place out
  else if kind == 2 then do
    let (literals, distances, place) ← readCodes d place
    inflateSymbols literals distances d size (d.size * 8 + 1) place out
  else .error .blockType

theorem inflateBlocks_succ (bits : Nat) :
    inflateBlocks d size (bits + 1) place out = (do
      let (header, place) ← needBits d 3 place
      let (place, out) ← inflateBlock d size (header / 2) place out
      if header % 2 == 1 then .ok out else inflateBlocks d size bits place out) := by
  rw [inflateBlocks]
  refine bind_congr fun (header, place) => ?_
  unfold inflateBlock
  dsimp only
  split
  · rfl
  split
  · rfl
  split
  · rw [bind_assoc]
  · rfl

theorem isUsable_fixedLiteralLengths : IsUsable fixedLiteralLengths := .inl (by decide +kernel)

theorem isUsable_fixedDistanceLengths : IsUsable fixedDistanceLengths := .inl (by decide +kernel)

theorem CodedBlock.size_le {most : Nat} {used : List Bool}
    (coded : CodedBlock most place out used whole) : out.size ≤ whole.size := by
  cases coded with
  | stored =>
    rw [ByteArray.size_append]
    exact Nat.le_add_right ..
  | fixed parts => exact parts.size_le
  | own _ parts => exact parts.size_le

/-- What is read as a block are the bits of such a block. -/
theorem exists_codedBlock (read : inflateBlock d size kind (place + 2) out = .ok (stop, whole)) :
    ∃ used, CodedBlock 30 place out (lowBits 2 kind ++ used) whole ∧
      HoldsBits d (place + 2) used ∧ stop = place + 2 + used.length := by
  unfold inflateBlock at read
  split at read
  · next stored =>
    obtain rfl := eq_of_beq stored
    obtain ⟨fill, data, ⟨short, filled, length⟩, rfl, rfl, held⟩ := exists_of_inflateStored read
    refine ⟨_, .stored short filled length, held, ?_⟩
    simp only [List.length_append, length_lowBits, length_bitsOf]
    omega
  split at read
  · next fixed =>
    obtain rfl := eq_of_beq fixed
    obtain ⟨used, parts, held, rfl⟩ := exists_codedParts read
    exact ⟨used, .fixed parts, held, rfl⟩
  split at read
  · next own =>
    obtain rfl := eq_of_beq own
    obtain ⟨⟨c, c', next⟩, first, read⟩ := bind_eq_ok.mp read
    obtain ⟨literals, distances, header, codes, held, rfl, rfl, rfl⟩ :=
      exists_ownCodes_of_readCodes first
    obtain ⟨used, parts, held', rfl⟩ := exists_codedParts read
    refine ⟨header ++ used, .own codes parts, HoldsBits.append_iff.mpr ⟨held, held'⟩, ?_⟩
    rw [List.length_append, Nat.add_assoc (place + 2)]
  · cases read

/-- Where the bits of a block are, it is read. -/
theorem inflateBlock_of_codedBlock {used : List Bool} (coded : CodedBlock 30 place out used whole)
    (room : whole.size ≤ size) (held : HoldsBits d place used) :
    ∃ kind < 2 ^ 2, HoldsBits d place (lowBits 2 kind) ∧
      inflateBlock d size kind (place + 2) out = .ok (place + used.length, whole) := by
  cases coded with
  | @stored fill data short filled length =>
    rw [HoldsBits.append_iff] at held
    refine ⟨0, Nat.two_pow_pos 2, held.1, ?_⟩
    refine (inflateStored_of_holdsBits short filled length room held.2).trans ?_
    simp only [List.length_append, length_lowBits, length_bitsOf]
    congr 2
    omega
  | @fixed bits _ parts =>
    have inside := held.length_le_of_pos (by rw [List.length_append, length_lowBits]; omega)
    rw [HoldsBits.append_iff] at held
    rw [List.length_append, length_lowBits, ← Nat.add_assoc] at inside ⊢
    refine ⟨1, Nat.one_lt_two_pow (by decide), held.1, ?_⟩
    exact inflateSymbols_of_codedParts parts isUsable_fixedLiteralLengths
      isUsable_fixedDistanceLengths (by decide +kernel) (by decide +kernel) room (by omega) held.2
  | @own literals distances header bits _ codes parts =>
    have inside := held.length_le_of_pos (by rw [List.length_append, length_lowBits]; omega)
    simp only [HoldsBits.append_iff, length_lowBits] at held
    obtain ⟨held₁, held₂, held₃⟩ := held
    obtain ⟨usable, usable'⟩ := codes.isUsable
    obtain ⟨short, short'⟩ := codes.short
    simp only [List.length_append, length_lowBits] at inside ⊢
    refine ⟨2, Nat.lt_of_lt_of_le (Nat.lt_succ_self 2) (by decide), held₁, ?_⟩
    change (readCodes d (place + 2) >>= _) = _
    rw [readCodes_of_ownCodes codes parts.getD_endOfBlock_ne_zero held₂, ok_bind]
    dsimp only
    rw [inflateSymbols_of_codedParts parts usable usable' short short' room (by omega) held₃]
    simp only [Nat.add_assoc]

end Block

/-! ## Streams -/

section Stream

variable {out whole : ByteArray}

theorem CodedBlocks.size_le {most : Nat} {used : List Bool}
    (coded : CodedBlocks most place out used whole) : out.size ≤ whole.size := by
  induction coded with
  | last block => exact block.size_le
  | more block _ ih => exact Nat.le_trans block.size_le ih

/-- The header of a block says whether it is the last one, and of which kind it is. -/
theorem lowBits_header (header : Nat) :
    lowBits 3 header = (header % 2 == 1) :: lowBits 2 (header / 2) := by
  rw [lowBits_succ, Nat.testBit_zero]
  rfl

/-- What is read as blocks are the bits of such blocks. -/
theorem exists_codedBlocks {bits : Nat} (read : inflateBlocks d size bits place out = .ok whole) :
    ∃ used, CodedBlocks 30 place out used whole ∧ HoldsBits d place used := by
  induction bits generalizing place out with
  | zero => cases read
  | succ bits ih =>
    rw [inflateBlocks_succ] at read
    obtain ⟨⟨header, next⟩, first, read⟩ := bind_eq_ok.mp read
    obtain ⟨-, held, rfl⟩ := needBits_eq_ok.mp first
    obtain ⟨⟨next, between⟩, second, read⟩ := bind_eq_ok.mp read
    change inflateBlock d size (header / 2) (place + 1 + 2) out = _ at second
    obtain ⟨used, block, held', rfl⟩ := exists_codedBlock second
    rw [lowBits_header] at held
    have here := HoldsBits.append_iff.mpr ⟨held.2, held'⟩
    dsimp only at read
    split at read
    · next last =>
      cases read
      rw [last] at held
      exact ⟨_, .last block, held.1, here⟩
    · next last =>
      rw [Bool.not_eq_true] at last
      rw [last] at held
      obtain ⟨rest, blocks, held''⟩ := ih read
      have behind : place + 1 + 2 + used.length =
          place + 1 + (lowBits 2 (header / 2) ++ used).length := by
        rw [List.length_append, length_lowBits, Nat.add_assoc (place + 1)]
      rw [behind] at blocks held''
      exact ⟨_, .more block blocks, held.1, HoldsBits.append_iff.mpr ⟨here, held''⟩⟩

/-- Where the bits of a block are, they are read, and if it is the last one, that is all. -/
theorem inflateBlocks_of_codedBlock {last : Bool} {used : List Bool}
    (block : CodedBlock 30 (place + 1) out used whole) (room : whole.size ≤ size)
    (held : HoldsBits d place (last :: used)) (bits : Nat) :
    inflateBlocks d size (bits + 1) place out =
      if last then .ok whole else inflateBlocks d size bits (place + 1 + used.length) whole := by
  obtain ⟨kind, small, held', second⟩ := inflateBlock_of_codedBlock block room held.2
  have flag := last.toNat_le
  have lowest : ((2 * kind + last.toNat) % 2 == 1) = last := by
    cases last <;> simp [Nat.add_mod]
  have others : (2 * kind + last.toNat) / 2 = kind := by omega
  have first : needBits d 3 place = .ok (2 * kind + last.toNat, place + 3) := by
    refine needBits_eq_ok.mpr ⟨by omega, ?_, rfl⟩
    rw [lowBits_header, lowest, others]
    exact ⟨held.1, held'⟩
  rw [inflateBlocks_succ, first, ok_bind]
  dsimp only
  rw [others, lowest, second]
  rfl

/-- Where the bits of blocks are, they are read. -/
theorem inflateBlocks_of_codedBlocks {used : List Bool}
    (coded : CodedBlocks 30 place out used whole) (room : whole.size ≤ size) {bits : Nat}
    (enough : used.length < bits) (held : HoldsBits d place used) :
    inflateBlocks d size bits place out = .ok whole := by
  induction coded generalizing bits with
  | last block =>
    obtain ⟨bits, rfl⟩ := Nat.exists_eq_succ_of_ne_zero (Nat.ne_zero_of_lt enough)
    exact inflateBlocks_of_codedBlock block room held bits
  | @more place out used between rest whole block blocks ih =>
    obtain ⟨bits, rfl⟩ := Nat.exists_eq_succ_of_ne_zero (Nat.ne_zero_of_lt enough)
    rw [← List.cons_append, HoldsBits.append_iff] at held
    rw [inflateBlocks_of_codedBlock block (Nat.le_trans blocks.size_le room) held.1]
    have behind : place + (false :: used).length = place + 1 + used.length := by
      rw [List.length_cons]
      omega
    rw [behind] at held
    rw [List.length_cons, List.length_append] at enough
    exact ih room (by omega) held.2

/-- The decoder accepts the streams that bring at most 30 lengths of words for distances and stand
for as many bytes as expected, but for none at all. -/
theorem inflate_eq_ok :
    inflate d size = .ok out ↔
      size ≠ 0 ∧ out.size = size ∧ ∃ bits, bits <+: bitsOf d ∧ IsStream 30 bits out := by
  unfold inflate
  constructor
  · intro read
    split at read
    · cases read
    next some =>
    obtain ⟨whole, first, read⟩ := bind_eq_ok.mp read
    split at read
    · next same =>
      cases read
      obtain ⟨bits, stream, held⟩ := exists_codedBlocks first
      exact ⟨by simpa using some, eq_of_beq same, bits, holdsBits_zero_iff.mp held, stream⟩
    · cases read
  · rintro ⟨some, same, bits, begins, stream⟩
    have length := begins.length_le
    rw [length_bitsOf] at length
    rw [if_neg (by simpa using some), inflateBlocks_of_codedBlocks stream (Nat.le_of_eq same)
      (Nat.lt_succ_of_le length) (holdsBits_zero_iff.mpr begins), ok_bind,
      if_pos (beq_iff_eq.mpr same)]

end Stream

end ClassAbi.Deflate
