import ClassAbi.Deflate.Compress
import ClassAbi.Deflate.Inflate
import ClassAbi.Proofs.Bits

/-!
# Words of the fixed codes

What a decoder makes of a word depends on the bits of the word alone
(`Code.symbolOf`).  In a canonical code the words of one length are consecutive
numbers behind all shorter words, so a word is decoded to the symbol that has its
number among them (`Code.symbol?_word`).  For the fixed codes these are the words
that the encoder writes.

The ranges of lengths and of distances leave no gap (`Covers`), so the last range
that begins at or below a value has the value.
-/

namespace ClassAbi.Deflate

/-! ## Words -/

namespace Code

/-- The symbol of a word, which is compared with the words of each length as in
`decodeFrom`. -/
def symbolOf (symbols : Array Nat) :
    (counts : List Nat) → (word first before : Nat) → List Bool → Option Nat
  | count :: counts, word, first, before, b :: bits =>
    let word := if b then word + 1 else word
    if word < first + count then
      if bits.isEmpty then some (symbols.getD (before + (word - first)) 0) else none
    else symbolOf symbols counts (word * 2) ((first + count) * 2) (before + count) bits
  | _, _, _, _, _ => none

theorem decodeFrom_of_symbolOf {symbols : Array Nat} {d : ByteArray} {counts : List Nat}
    {word first before place symbol : Nat} {bits : List Bool}
    (known : symbolOf symbols counts word first before bits = some symbol)
    (held : HoldsBits d place bits) :
    decodeFrom symbols d counts word first before place =
      .symbol symbol (place + bits.length) := by
  induction counts generalizing word first before place bits with
  | nil => cases known
  | cons count counts ih =>
    cases bits with
    | nil => cases known
    | cons b bits =>
      obtain ⟨bit, rest⟩ := held
      rw [symbolOf] at known
      rw [decodeFrom, bit]
      dsimp only at known ⊢
      generalize (if b then word + 1 else word) = word at known ⊢
      split at known
      · next reached =>
        rw [if_pos reached]
        cases bits with
        | nil =>
          cases known
          rfl
        | cons => cases known
      · next beyond =>
        rw [if_neg beyond, ih known rest, List.length_cons, Nat.add_right_comm, Nat.add_assoc]

/-- The symbol of a word of a code. -/
def symbol? (c : Code) (bits : List Bool) : Option Nat := symbolOf c.symbols c.counts 0 0 0 bits

theorem needWord_of_symbol? {c : Code} {d : ByteArray} {fault : InflateError} {place symbol : Nat}
    {bits : List Bool} (known : c.symbol? bits = some symbol) (held : HoldsBits d place bits) :
    needWord c d fault place = .ok (symbol, place + bits.length) := by
  rw [needWord, Code.decode, decodeFrom_of_symbolOf known held]

/-- A further bit of a number behind those above it. -/
theorem joinBit (value r : Nat) :
    (if value.testBit r then value / 2 ^ (r + 1) * 2 + 1 else value / 2 ^ (r + 1) * 2) =
      value / 2 ^ r := by
  rw [Nat.testBit_eq_decide_div_mod_eq, Nat.pow_succ, ← Nat.div_div_eq_div_mul]
  simp only [decide_eq_true_eq]
  split <;> omega

/-- A word is compared with the words of one length after the other. -/
theorem symbolOf_codeBits_succ (symbols : Array Nat) (counts : List Nat)
    (count first before r value : Nat) :
    symbolOf symbols (count :: counts) (value / 2 ^ (r + 1) * 2) first before
        (codeBits (r + 1) value) =
      if value / 2 ^ r < first + count then
        if r = 0 then some (symbols.getD (before + (value / 2 ^ r - first)) 0) else none
      else symbolOf symbols counts (value / 2 ^ r * 2) ((first + count) * 2) (before + count)
        (codeBits r value) := by
  rw [codeBits_succ, symbolOf]
  simp only [joinBit]
  cases r with
  | zero => rfl
  | succ r =>
    rw [codeBits_succ]
    rfl

/-- The first word that is longer than words of these counts, the first of which is `first`. -/
def firstWord : (counts : List Nat) → (first : Nat) → Nat
  | [], first => first
  | count :: counts, first => firstWord counts ((first + count) * 2)

theorem le_firstWord (counts : List Nat) (first : Nat) :
    first * 2 ^ counts.length ≤ firstWord counts first := by
  induction counts generalizing first with
  | nil => exact Nat.le_of_eq (Nat.mul_one first)
  | cons count counts ih =>
    refine Nat.le_trans ?_ (ih ((first + count) * 2))
    rw [List.length_cons, Nat.pow_succ', ← Nat.mul_assoc]
    exact Nat.mul_le_mul_right _ (Nat.mul_le_mul_right _ (Nat.le_add_right ..))

/-- The words of one length are numbered from the first on, behind all shorter words. -/
theorem symbolOf_word {symbols : Array Nat} {shorter longer : List Nat} {count value : Nat}
    {first before : Nat} (low : firstWord shorter first ≤ value)
    (high : value < firstWord shorter first + count) :
    symbolOf symbols (shorter ++ count :: longer) (value / 2 ^ (shorter.length + 1) * 2) first
        before (codeBits (shorter.length + 1) value) =
      some (symbols.getD (before + shorter.sum + (value - firstWord shorter first)) 0) := by
  induction shorter generalizing first before with
  | nil =>
    rw [firstWord] at high
    rw [List.nil_append, List.length_nil, symbolOf_codeBits_succ, Nat.pow_zero, Nat.div_one,
      if_pos high, if_pos rfl]
    rfl
  | cons other shorter ih =>
    have beyond : first + other ≤ value / 2 ^ (shorter.length + 1) := by
      rw [Nat.le_div_iff_mul_le (Nat.two_pow_pos _), Nat.pow_succ', ← Nat.mul_assoc]
      exact Nat.le_trans (le_firstWord shorter _) low
    rw [List.cons_append, List.length_cons, symbolOf_codeBits_succ, if_neg (Nat.not_lt.mpr beyond),
      ih low high, List.sum_cons, ← Nat.add_assoc]
    rfl

/-- A word is that of the symbol whose number it has among the words of its length. -/
theorem symbol?_word {c : Code} {shorter longer : List Nat} {count first before length value : Nat}
    (counts : c.counts = shorter ++ count :: longer) (start : firstWord shorter 0 = first)
    (sum : shorter.sum = before) (size : shorter.length + 1 = length) (low : first ≤ value)
    (high : value < first + count) (fits : value < 2 ^ length) :
    c.symbol? (codeBits length value) = some (c.symbols.getD (before + (value - first)) 0) := by
  subst start sum size
  have word : symbolOf c.symbols (shorter ++ count :: longer)
      (value / 2 ^ (shorter.length + 1) * 2) 0 0 (codeBits (shorter.length + 1) value) = _ :=
    symbolOf_word low high
  rw [Nat.div_eq_of_lt fits, Nat.zero_mul, Nat.zero_add] at word
  rwa [symbol?, counts]

end Code

open Code

/-! ## The fixed code for literals and lengths -/

theorem counts_fixedLiterals : fixedLiterals.counts = [0, 0, 0, 0, 0, 0, 24, 152, 112] := by
  decide +kernel

theorem symbols_fixedLiterals : fixedLiterals.symbols.toList = (List.range 288).map fun i =>
    if i < 24 then 256 + i else if i < 168 then i - 24 else if i < 176 then i + 112 else i - 32 := by
  decide +kernel

theorem getD_fixedLiterals {i : Nat} (h : i < 288) : fixedLiterals.symbols.getD i 0 =
    if i < 24 then 256 + i else if i < 168 then i - 24 else if i < 176 then i + 112 else i - 32 := by
  rw [Array.getD_eq_getD_getElem?, ← Array.getElem?_toList, symbols_fixedLiterals,
    List.getElem?_map, List.getElem?_range h]
  rfl

theorem symbol?_sevenBits {value : Nat} (high : value < 24) :
    fixedLiterals.symbol? (codeBits 7 value) =
      some (fixedLiterals.symbols.getD (0 + (value - 0)) 0) := by
  have counts : fixedLiterals.counts = [0, 0, 0, 0, 0, 0] ++ 24 :: [152, 112] :=
    counts_fixedLiterals
  exact symbol?_word counts rfl rfl rfl (Nat.zero_le value) (by omega) (by omega)

theorem symbol?_eightBits {value : Nat} (low : 48 ≤ value) (high : value < 200) :
    fixedLiterals.symbol? (codeBits 8 value) =
      some (fixedLiterals.symbols.getD (24 + (value - 48)) 0) := by
  have counts : fixedLiterals.counts = [0, 0, 0, 0, 0, 0, 24] ++ 152 :: [112] :=
    counts_fixedLiterals
  exact symbol?_word counts rfl rfl rfl low high (by omega)

theorem symbol?_nineBits {value : Nat} (low : 400 ≤ value) (high : value < 512) :
    fixedLiterals.symbol? (codeBits 9 value) =
      some (fixedLiterals.symbols.getD (176 + (value - 400)) 0) := by
  have counts : fixedLiterals.counts = [0, 0, 0, 0, 0, 0, 24, 152] ++ 112 :: [] :=
    counts_fixedLiterals
  exact symbol?_word counts rfl rfl rfl low high high

/-- The words that are written for the symbols are their words in the code. -/
theorem symbol?_fixedWord {symbol : Nat} (h : symbol < 288) :
    fixedLiterals.symbol? (fixedWord symbol) = some symbol := by
  unfold fixedWord
  split
  · rw [symbol?_eightBits (by omega) (by omega), getD_fixedLiterals (by omega), if_neg (by omega),
      if_pos (by omega)]
    exact congrArg some (by omega)
  split
  · rw [symbol?_nineBits (by omega) (by omega), getD_fixedLiterals (by omega), if_neg (by omega),
      if_neg (by omega), if_neg (by omega)]
    exact congrArg some (by omega)
  split
  · rw [symbol?_sevenBits (by omega), getD_fixedLiterals (by omega), if_pos (by omega)]
    exact congrArg some (by omega)
  · rw [symbol?_eightBits (by omega) (by omega), getD_fixedLiterals (by omega), if_neg (by omega),
      if_neg (by omega), if_pos (by omega)]
    exact congrArg some (by omega)

/-! ## The fixed code for distances -/

theorem symbols_fixedDistances : fixedDistances.symbols.toList = List.range 32 := by
  decide +kernel

theorem symbol?_distance {symbol : Nat} (h : symbol < 32) :
    fixedDistances.symbol? (codeBits 5 symbol) = some symbol := by
  have counts : fixedDistances.counts = [0, 0, 0, 0] ++ 32 :: [] := by decide +kernel
  have word : fixedDistances.symbol? (codeBits 5 symbol) =
      some (fixedDistances.symbols.getD (0 + (symbol - 0)) 0) :=
    symbol?_word counts rfl rfl rfl (Nat.zero_le symbol) (by omega) h
  rw [word, Nat.zero_add, Nat.sub_zero, Array.getD_eq_getD_getElem?, ← Array.getElem?_toList,
    symbols_fixedDistances, List.getElem?_range h]
  rfl

/-! ## Ranges -/

/-- The ranges leave no gap between a least and a greatest value. -/
structure Covers (ranges : Array Range) (least greatest : Nat) : Prop where
  nonempty : 0 < ranges.size
  first : (ranges.getD 0 default).base ≤ least
  next : ∀ i < ranges.size - 1, (ranges.getD (i + 1) default).base ≤
    (ranges.getD i default).base + 2 ^ (ranges.getD i default).extra
  last : greatest < (ranges.getD (ranges.size - 1) default).base +
    2 ^ (ranges.getD (ranges.size - 1) default).extra

theorem covers_lengthRanges : Covers lengthRanges 3 maxLength where
  nonempty := by decide
  first := by decide
  next := by decide
  last := by decide

theorem covers_distanceRanges : Covers distanceRanges 1 maxDistance where
  nonempty := by decide
  first := by decide
  next := by decide
  last := by decide

section Range

variable {ranges : Array Range} {least greatest value : Nat}

/-- The last range that begins at or below a value has the value. -/
theorem Covers.rangeOf_spec (covers : Covers ranges least greatest) (low : least ≤ value)
    (high : value ≤ greatest) :
    rangeOf ranges value < ranges.size ∧
      (ranges.getD (rangeOf ranges value) default).base ≤ value ∧
      value < (ranges.getD (rangeOf ranges value) default).base +
        2 ^ (ranges.getD (rangeOf ranges value) default).extra := by
  obtain ⟨nonempty, first, next, last⟩ := covers
  have get (i : Nat) (h : i < ranges.toList.reverse.length) :
      ranges.getD (ranges.size - 1 - i) default = ranges.toList.reverse[i] := by
    have size : ranges.toList.length = ranges.size := rfl
    rw [List.length_reverse, size] at h
    rw [List.getElem_reverse, Array.getD_eq_getD_getElem?, ← Array.getElem?_toList,
      List.getElem?_eq_getElem (by omega)]
    rfl
  have found : ranges.toList.reverse.findIdx (fun r => r.base ≤ value) <
      ranges.toList.reverse.length := by
    refine List.findIdx_lt_length_of_exists ⟨ranges[0], ?_, ?_⟩
    · exact List.mem_reverse.mpr (Array.getElem_mem_toList nonempty)
    · rw [Array.getD, dif_pos nonempty] at first
      exact decide_eq_true (Nat.le_trans first low)
  have reached := of_decide_eq_true (List.findIdx_getElem (w := found))
  have above (j : Nat) (h : j < ranges.toList.reverse.findIdx fun r => r.base ≤ value) :
      value < (ranges.getD (ranges.size - 1 - j) default).base := by
    rw [get j (Nat.lt_trans h found)]
    exact Nat.not_le.mp (of_decide_eq_false (List.not_of_lt_findIdx h))
  unfold rangeOf
  rw [← get _ found] at reached
  rw [List.length_reverse, Array.length_toList] at found
  generalize ranges.toList.reverse.findIdx (fun r => r.base ≤ value) = k at *
  refine ⟨by omega, reached, ?_⟩
  cases k with
  | zero => exact Nat.lt_of_le_of_lt high last
  | succ j =>
    have below := above j (Nat.lt_succ_self j)
    have wide := next (ranges.size - 1 - (j + 1)) (by omega)
    rw [show ranges.size - 1 - (j + 1) + 1 = ranges.size - 1 - j by omega] at wide
    exact Nat.lt_of_lt_of_le below wide

/-- A value is read from its extra bits. -/
theorem Covers.needRange_eq (covers : Covers ranges least greatest) (low : least ≤ value)
    (high : value ≤ greatest) {d : ByteArray} {fault : InflateError} {place : Nat}
    (held : HoldsBits d place (extraBits ranges (rangeOf ranges value) value)) :
    needRange ranges (rangeOf ranges value) d fault place =
      .ok (value, place + (extraBits ranges (rangeOf ranges value) value).length) := by
  obtain ⟨inside, base, bound⟩ := covers.rangeOf_spec low high
  have get : ranges[rangeOf ranges value]? = some (ranges.getD (rangeOf ranges value) default) := by
    rw [Array.getD, dif_pos inside, Array.getElem?_eq_getElem inside]
    rfl
  have taken := takeBits_of_holdsBits held (by omega)
  rw [needRange, get]
  simp only [needBits, taken]
  refine congrArg Except.ok (Prod.ext (Nat.add_sub_of_le base) ?_)
  rw [extraBits, length_lowBits]

end Range

end ClassAbi.Deflate
