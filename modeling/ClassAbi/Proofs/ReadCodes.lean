import ClassAbi.Proofs.DeflateFormat

/-!
# Codes that a block brings

A decoder reads the codes of a block in three steps: the lengths of the words for lengths, with
these the lengths of all other words, and from them the two codes.  What is read this way are the
bits of codes (`exists_ownCodes_of_readCodes`), and where such bits are, the codes are read
(`readCodes_of_ownCodes`), as long as there is a word for the end of the block.

A decoder goes on even if there are no words for lengths.  It takes every bit for the length 0, and
then finds that the end of the block has no word.
-/

namespace ClassAbi.Deflate

variable {d : ByteArray} {place stop : Nat}

/-! ## Words for lengths -/

theorem readLengthWords_eq_ok {order : List Nat} {count : Nat} {lengths words : Array Nat} :
    readLengthWords d order count place lengths = .ok (words, stop) ↔
      ∃ values : List Nat, values.length = min count order.length ∧
        (∀ value ∈ values, value < 2 ^ 3) ∧ HoldsBits d place (values.flatMap (lowBits 3)) ∧
        words = (order.zip values).foldl (fun words x => words.setIfInBounds x.1 x.2) lengths ∧
        stop = place + (values.flatMap (lowBits 3)).length := by
  induction order generalizing count place lengths with
  | nil =>
    rw [readLengthWords, List.length_nil, Nat.min_zero, Except.ok.injEq, Prod.mk.injEq]
    constructor
    · rintro ⟨rfl, rfl⟩
      exact ⟨[], rfl, List.forall_mem_nil _, trivial, rfl, rfl⟩
    · rintro ⟨values, empty, -, -, rfl, rfl⟩
      rw [List.length_eq_zero_iff.mp empty]
      exact ⟨rfl, rfl⟩
  | cons symbol order ih =>
    cases count with
    | zero =>
      rw [readLengthWords, Nat.zero_min, Except.ok.injEq, Prod.mk.injEq]
      constructor
      · rintro ⟨rfl, rfl⟩
        exact ⟨[], rfl, List.forall_mem_nil _, trivial, rfl, rfl⟩
      · rintro ⟨values, empty, -, -, rfl, rfl⟩
        rw [List.length_eq_zero_iff.mp empty]
        exact ⟨rfl, rfl⟩
      · exact nofun
    | succ count =>
      rw [readLengthWords, bind_eq_ok]
      constructor
      · rintro ⟨⟨value, next⟩, first, rest⟩
        obtain ⟨small, held, rfl⟩ := needBits_eq_ok.mp first
        obtain ⟨values, length, smaller, held', rfl, rfl⟩ := ih.mp rest
        refine ⟨value :: values, ?_, List.forall_mem_cons.mpr ⟨small, smaller⟩, ?_, rfl, ?_⟩
        · rw [List.length_cons, List.length_cons, length]
          omega
        · rw [List.flatMap_cons, HoldsBits.append_iff, length_lowBits]
          exact ⟨held, held'⟩
        · rw [List.flatMap_cons, List.length_append, length_lowBits, Nat.add_assoc]
      · rintro ⟨values, length, small, held, rfl, rfl⟩
        rw [List.length_cons] at length
        obtain ⟨value, values, rfl⟩ := List.exists_cons_of_length_pos
          (show 0 < values.length by omega)
        obtain ⟨here, smaller⟩ := List.forall_mem_cons.mp small
        rw [List.flatMap_cons, HoldsBits.append_iff, length_lowBits] at held
        refine ⟨(value, place + 3), needBits_eq_ok.mpr ⟨here, held.1, rfl⟩, ih.mpr ?_⟩
        refine ⟨values, ?_, smaller, held.2, rfl, ?_⟩
        · rw [List.length_cons] at length
          omega
        · rw [List.flatMap_cons, List.length_append, length_lowBits, Nat.add_assoc]

/-- Each symbol gets the value that has its place in the order. -/
theorem getElem?_foldl_setIfInBounds {order values : List Nat} (distinct : order.Nodup)
    (few : values.length ≤ order.length) (lengths : Array Nat) (symbol : Nat) :
    ((order.zip values).foldl (fun words x => words.setIfInBounds x.1 x.2) lengths)[symbol]? =
      lengths[symbol]?.map fun old => values.getD (order.idxOf symbol) old := by
  induction order generalizing values lengths with
  | nil =>
    rw [List.length_eq_zero_iff.mp (Nat.le_zero.mp few)]
    exact Option.map_id'.symm
  | cons other order ih =>
    cases values with
    | nil => exact Option.map_id'.symm
    | cons value values =>
      obtain ⟨new, distinct⟩ := List.nodup_cons.mp distinct
      have few := Nat.le_of_succ_le_succ few
      rw [List.zip_cons_cons, List.foldl_cons, ih distinct few, Array.getElem?_setIfInBounds]
      by_cases same : other = symbol
      · subst same
        have last : values.length ≤ order.idxOf other := by
          rwa [List.idxOf_eq_length new]
        rw [if_pos rfl, List.idxOf_cons_self]
        split
        · next inside =>
          rw [Array.getElem?_eq_getElem inside, Option.map_some, Option.map_some,
            List.getD_eq_default _ _ last]
          rfl
        · next outside =>
          rw [Array.getElem?_eq_none (Nat.not_lt.mp outside)]
          rfl
      · rw [if_neg same, List.idxOf_cons_ne _ same]
        rfl

theorem foldl_setIfInBounds_eq {values : List Nat} (few : values.length ≤ 19) :
    (codeLengthOrder.zip values).foldl (fun words x => words.setIfInBounds x.1 x.2)
      (Array.replicate 19 0) = (lengthWords values).toArray := by
  refine Array.ext_getElem? fun symbol => ?_
  rw [getElem?_foldl_setIfInBounds (by decide) few, Array.getElem?_replicate, lengthWords,
    List.getElem?_toArray, List.getElem?_map]
  by_cases inside : symbol < 19
  · rw [if_pos inside, List.getElem?_range inside]
    rfl
  · rw [if_neg inside, List.getElem?_eq_none (by rw [List.length_range]; omega)]
    rfl

/-- The lengths of the words for lengths are read exactly where their values are. -/
theorem readLengthWords_codeLengthOrder {count : Nat} {words : Array Nat} (few : count ≤ 19) :
    readLengthWords d codeLengthOrder count place (Array.replicate 19 0) = .ok (words, stop) ↔
      ∃ values : List Nat, values.length = count ∧ (∀ value ∈ values, value < 2 ^ 3) ∧
        HoldsBits d place (values.flatMap (lowBits 3)) ∧ words = (lengthWords values).toArray ∧
        stop = place + (values.flatMap (lowBits 3)).length := by
  have nineteen : codeLengthOrder.length = 19 := rfl
  rw [readLengthWords_eq_ok, nineteen, Nat.min_eq_left few]
  refine exists_congr fun values => and_congr_right fun length => ?_
  rw [foldl_setIfInBounds_eq (length.symm ▸ few)]

@[simp] theorem length_lengthWords (values : List Nat) : (lengthWords values).length = 19 := by
  rw [lengthWords, List.length_map, List.length_range]

theorem le_of_mem_lengthWords {values : List Nat} (small : ∀ value ∈ values, value < 2 ^ 3)
    {length : Nat} (mem : length ∈ lengthWords values) : length ≤ maxWordLength := by
  obtain ⟨symbol, -, rfl⟩ := List.mem_map.mp mem
  rw [List.getD_eq_getElem?_getD]
  cases found : values[codeLengthOrder.idxOf symbol]? with
  | none => exact Nat.zero_le _
  | some value =>
    have lt := small value (List.mem_of_getElem? found)
    exact Nat.le_of_lt (Nat.lt_of_lt_of_le lt (by decide))

/-! ## Word lengths -/

section Lengths

variable {words : List Nat}

theorem CodedLengths.length_le {known bits lengths}
    (coded : CodedLengths words known bits lengths) : known.length ≤ lengths.length := by
  induction coded with
  | done => exact Nat.le_refl _
  | length _ _ _ ih =>
    rw [List.length_append] at ih
    omega
  | repeated _ _ _ ih =>
    rw [List.length_append] at ih
    omega

/-- No length is longer than the longest word. -/
theorem CodedLengths.short {known bits lengths} (coded : CodedLengths words known bits lengths)
    (short : ∀ length ∈ known, length ≤ maxWordLength) :
    ∀ length ∈ lengths, length ≤ maxWordLength := by
  induction coded with
  | done => exact short
  | length small _ _ ih =>
    refine ih (List.forall_mem_append.mpr ⟨short, List.forall_mem_singleton.mpr ?_⟩)
    exact Nat.le_of_lt_succ small
  | repeated _ repeats _ ih =>
    refine ih (List.forall_mem_append.mpr ⟨short, fun length mem => ?_⟩)
    obtain ⟨-, rfl⟩ := List.mem_replicate.mp mem
    cases repeats with
    | last found => exact short _ (List.mem_of_getLast? found)
    | zeros => exact Nat.zero_le _
    | manyZeros => exact Nat.zero_le _

section Step

variable {c : Code} {total bits : Nat} {lengths : Array Nat} {result : Array Nat × Nat}

/-- A repetition, where `last` is the length that is repeated. -/
theorem repeat_eq_ok (extra base : Nat) (last : Option Nat) :
    (do
      let (more, place) ← needBits d extra place
      match last with
      | none => .error .lengthRepeat
      | some length =>
        if total < lengths.size + base + more then .error .lengthRepeat
        else
          let lengths := lengths ++ Array.replicate (base + more) length
          readLengths c d total bits place lengths : Except InflateError _) = .ok result ↔
      ∃ length more, last = some length ∧ more < 2 ^ extra ∧
        HoldsBits d place (lowBits extra more) ∧ lengths.size + (base + more) ≤ total ∧
        readLengths c d total bits (place + extra)
          (lengths ++ Array.replicate (base + more) length) = .ok result := by
  rw [bind_eq_ok]
  constructor
  · rintro ⟨⟨more, next⟩, first, rest⟩
    obtain ⟨small, held, rfl⟩ := needBits_eq_ok.mp first
    dsimp only at rest
    split at rest
    · cases rest
    next length =>
    split at rest
    · cases rest
    next fits =>
    exact ⟨length, more, rfl, small, held, by omega, rest⟩
  · rintro ⟨length, more, rfl, small, held, fits, rest⟩
    refine ⟨_, needBits_eq_ok.mpr ⟨small, held, rfl⟩, ?_⟩
    dsimp only
    rwa [if_neg (by omega)]

/-- Behind a symbol that is no length, a length is repeated. -/
theorem readLengths_of_repeats {symbol next : Nat} (room : ¬total ≤ lengths.size)
    (read : needWord c d .codeLengthsSet place = .ok (symbol, next)) (long : 16 ≤ symbol)
    (few : symbol < 19) :
    readLengths c d total (bits + 1) place lengths = .ok result ↔
      ∃ length times extra, Repeats lengths.toList symbol length times extra ∧
        HoldsBits d next extra ∧ lengths.size + times ≤ total ∧
        readLengths c d total bits (next + extra.length)
          (lengths ++ Array.replicate times length) = .ok result := by
  rw [readLengths, if_neg room, read, ok_bind]
  dsimp only
  rw [if_neg (Nat.not_lt.mpr long)]
  obtain rfl | rfl | rfl : symbol = 16 ∨ symbol = 17 ∨ symbol = 18 := by omega
  · refine (repeat_eq_ok 2 3 lengths.back?).trans ⟨?_, ?_⟩
    · rintro ⟨length, more, found, small, held, fits, rest⟩
      rw [← Array.getLast?_toList] at found
      exact ⟨length, _, _, .last found small, held, fits, by rwa [length_lowBits]⟩
    · rintro ⟨length, times, extra, repeats, held, fits, rest⟩
      cases repeats with
      | last found small =>
        rw [Array.getLast?_toList] at found
        rw [length_lowBits] at rest
        exact ⟨length, _, found, small, held, fits, rest⟩
  · refine (repeat_eq_ok 3 3 (some 0)).trans ⟨?_, ?_⟩
    · rintro ⟨length, more, found, small, held, fits, rest⟩
      cases found
      exact ⟨0, _, _, .zeros small, held, fits, by rwa [length_lowBits]⟩
    · rintro ⟨length, times, extra, repeats, held, fits, rest⟩
      cases repeats with
      | zeros small =>
        rw [length_lowBits] at rest
        exact ⟨0, _, rfl, small, held, fits, rest⟩
  · refine (repeat_eq_ok 7 11 (some 0)).trans ⟨?_, ?_⟩
    · rintro ⟨length, more, found, small, held, fits, rest⟩
      cases found
      exact ⟨0, _, _, .manyZeros small, held, fits, by rwa [length_lowBits]⟩
    · rintro ⟨length, times, extra, repeats, held, fits, rest⟩
      cases repeats with
      | manyZeros small =>
        rw [length_lowBits] at rest
        exact ⟨0, _, rfl, small, held, fits, rest⟩

end Step

theorem lt_of_isWord {symbol : Nat} {word : List Bool} (here : IsWord words symbol word) :
    symbol < words.length := by
  obtain ⟨length, found, -⟩ := here
  exact (List.getElem?_eq_some_iff.mp found).1

theorem length_pos_of_isWord {symbol : Nat} {word : List Bool} (here : IsWord words symbol word) :
    0 < word.length := by
  obtain ⟨length, -, positive, rfl⟩ := here
  rw [length_codeBits]
  exact Nat.pos_of_ne_zero positive

/-- What is read as word lengths are the bits of word lengths. -/
theorem exists_codedLengths {total bits : Nat} {lengths all : Array Nat} (few : words.length = 19)
    (read : readLengths (Code.ofLengths words) d total bits place lengths = .ok (all, stop))
    (within : lengths.size ≤ total) :
    ∃ used, CodedLengths words lengths.toList used all.toList ∧ HoldsBits d place used ∧
      stop = place + used.length ∧ all.size = total := by
  induction bits generalizing place lengths with
  | zero => cases read
  | succ bits ih =>
    by_cases room : total ≤ lengths.size
    · rw [readLengths, if_pos room] at read
      cases read
      exact ⟨[], .done, trivial, rfl, Nat.le_antisymm within room⟩
    have whole := read
    rw [readLengths, if_neg room] at read
    obtain ⟨⟨symbol, next⟩, first, read⟩ := bind_eq_ok.mp read
    obtain ⟨word, here, held, rfl⟩ := Code.exists_isWord_of_needWord first
    dsimp only at read
    split at read
    · next short =>
      obtain ⟨used, coded, held', rfl, size⟩ := ih read (by rw [Array.size_push]; omega)
      rw [Array.toList_push] at coded
      refine ⟨word ++ used, .length short here coded, HoldsBits.append_iff.mpr ⟨held, held'⟩, ?_,
        size⟩
      rw [List.length_append, Nat.add_assoc]
    · next long =>
      have known := lt_of_isWord here
      obtain ⟨length, times, extra, repeats, held', fits, rest⟩ :=
        (readLengths_of_repeats room first (Nat.not_lt.mp long) (by omega)).mp whole
      obtain ⟨used, coded, held'', rfl, size⟩ := ih rest (by simpa using fits)
      rw [Array.toList_append, Array.toList_replicate] at coded
      refine ⟨_, .repeated here repeats coded, ?_, ?_, size⟩
      · rw [HoldsBits.append_iff, HoldsBits.append_iff]
        exact ⟨held, held', held''⟩
      · rw [List.length_append, List.length_append, Nat.add_assoc, Nat.add_assoc]

/-- Where the bits of word lengths are, these lengths are read. -/
theorem readLengths_of_codedLengths {known lengths : List Nat} {used : List Bool}
    (coded : CodedLengths words known used lengths) (few : words.length = 19)
    (usable : IsUsable words) (short : ∀ length ∈ words, length ≤ maxWordLength) {bits : Nat}
    (enough : used.length < bits) (held : HoldsBits d place used) :
    readLengths (Code.ofLengths words) d lengths.length bits place known.toArray =
      .ok (lengths.toArray, place + used.length) := by
  induction coded generalizing bits place with
  | @done known =>
    obtain ⟨bits, rfl⟩ := Nat.exists_eq_succ_of_ne_zero (Nat.ne_zero_of_lt enough)
    rw [readLengths, if_pos (Nat.le_of_eq List.size_toArray.symm)]
    rfl
  | @length known length word rest lengths small here coded ih =>
    obtain ⟨bits, rfl⟩ := Nat.exists_eq_succ_of_ne_zero (Nat.ne_zero_of_lt enough)
    have more := coded.length_le
    have positive := length_pos_of_isWord here
    rw [List.length_append] at enough
    rw [List.length_append, List.length_singleton] at more
    rw [HoldsBits.append_iff] at held
    rw [readLengths, if_neg (by rw [List.size_toArray]; omega),
      Code.needWord_of_isWord usable short here held.1, ok_bind]
    dsimp only
    rw [if_pos small, List.push_toArray, ih (by omega) held.2, List.length_append, Nat.add_assoc]
  | @repeated known symbol length times word extra rest lengths here repeats coded ih =>
    obtain ⟨bits, rfl⟩ := Nat.exists_eq_succ_of_ne_zero (Nat.ne_zero_of_lt enough)
    have more := coded.length_le
    have positive := length_pos_of_isWord here
    have times_pos : 0 < times := by cases repeats <;> omega
    have long : 16 ≤ symbol := by cases repeats <;> decide
    have symbols := lt_of_isWord here
    rw [List.length_append, List.length_append] at enough
    rw [List.length_append, List.length_replicate] at more
    rw [HoldsBits.append_iff, HoldsBits.append_iff] at held
    have first : needWord (Code.ofLengths words) d .codeLengthsSet place = _ :=
      Code.needWord_of_isWord usable short here held.1
    refine (readLengths_of_repeats (by rw [List.size_toArray]; omega) first long (by omega)).mpr ?_
    refine ⟨length, times, extra, repeats, held.2.1, by rwa [List.size_toArray], ?_⟩
    have last := ih (show rest.length < bits by omega) held.2.2
    rw [← List.append_toArray, List.toArray_replicate] at last
    rw [last, List.length_append, List.length_append, Nat.add_assoc, Nat.add_assoc]

/-! ## Without words for lengths -/

theorem eq_zero_of_needWord_constant {fault : InflateError} {symbol : Nat}
    (read : needWord Code.constant d fault place = .ok (symbol, stop)) : symbol = 0 := by
  unfold needWord at read
  split at read
  · next found =>
    cases read
    rw [Code.decode, Code.constant, Code.decodeFrom] at found
    split at found
    · cases found
    next b _ =>
    cases b <;> cases found <;> rfl
  · cases read
  · cases read

/-- Every length that is read is 0. -/
theorem eq_zero_of_readLengths_constant {total bits : Nat} {lengths all : Array Nat}
    (read : readLengths Code.constant d total bits place lengths = .ok (all, stop))
    (zero : ∀ length ∈ lengths.toList, length = 0) : ∀ length ∈ all.toList, length = 0 := by
  induction bits generalizing place lengths with
  | zero => cases read
  | succ bits ih =>
    rw [readLengths] at read
    split at read
    · cases read
      exact zero
    · obtain ⟨⟨symbol, next⟩, first, read⟩ := bind_eq_ok.mp read
      obtain rfl := eq_zero_of_needWord_constant first
      refine ih read ?_
      rw [Array.toList_push]
      exact List.forall_mem_append.mpr ⟨zero, List.forall_mem_singleton.mpr rfl⟩

end Lengths

/-! ## All codes -/

theorem lowBits_fourteen (n : Nat) :
    lowBits 14 n = lowBits 5 (n % 32) ++ (lowBits 5 (n / 32 % 32) ++ lowBits 4 (n / 1024)) := by
  have inner := lowBits_split 5 4 (n / 32)
  rw [Nat.div_div_eq_div_mul] at inner
  exact (lowBits_split 5 9 n).trans (congrArg (lowBits 5 (n % 32) ++ ·) inner)

theorem OwnCodes.short {most : Nat} {literals distances : List Nat} {bits : List Bool}
    (codes : OwnCodes most literals distances bits) :
    (∀ length ∈ literals, length ≤ maxWordLength) ∧
      ∀ length ∈ distances, length ≤ maxWordLength := by
  cases codes with
  | intro _ _ _ _ _ lengths _ _ =>
    exact List.forall_mem_append.mp (lengths.short (List.forall_mem_nil _))

theorem OwnCodes.isUsable {most : Nat} {literals distances : List Nat} {bits : List Bool}
    (codes : OwnCodes most literals distances bits) : IsUsable literals ∧ IsUsable distances := by
  cases codes with
  | intro _ _ _ _ _ _ usable usable' => exact ⟨usable, usable'⟩

theorem longest_ne_zero {lengths : List Nat} (complete : IsComplete lengths) :
    Code.longest lengths ≠ 0 := by
  intro zero
  have none := Code.longest_eq_zero_iff.mp zero
  rw [IsComplete, ← Code.occupied_filter,
    List.filter_eq_nil_iff.mpr fun length mem => by simpa using none length mem] at complete
  cases complete

theorem getD_take_eq_zero {lengths : List Nat} (zero : ∀ length ∈ lengths, length = 0)
    (count i : Nat) : (lengths.take count).getD i 0 = 0 := by
  rw [List.getD_eq_getElem?_getD]
  cases found : (lengths.take count)[i]? with
  | none => rfl
  | some length => exact zero length (List.mem_of_mem_take (List.mem_of_getElem? found))

/-- Lengths make codes if they are as many as the numbers in front of them say. -/
theorem ownCodes_of_numbers {numbers : Nat} {values lengths : List Nat} {used : List Bool}
    (fits : numbers < 2 ^ 14) (few : ¬(286 < numbers % 32 + 257 ∨ 30 < numbers / 32 % 32 + 1))
    (count : values.length = numbers / 1024 + 4) (small : ∀ value ∈ values, value < 2 ^ 3)
    (complete : IsComplete (lengthWords values))
    (coded : CodedLengths (lengthWords values) [] used lengths)
    (total : lengths.length = numbers % 32 + 257 + (numbers / 32 % 32 + 1))
    (usable : Code.isUsable (lengths.take (numbers % 32 + 257)))
    (usable' : Code.isUsable (lengths.drop (numbers % 32 + 257))) :
    OwnCodes 30 (lengths.take (numbers % 32 + 257)) (lengths.drop (numbers % 32 + 257))
      (lowBits 14 numbers ++ (values.flatMap (lowBits 3) ++ used)) := by
  have literalCount : (lengths.take (numbers % 32 + 257)).length = numbers % 32 + 257 := by
    rw [List.length_take]
    omega
  have distanceCount : (lengths.drop (numbers % 32 + 257)).length = numbers / 32 % 32 + 1 := by
    rw [List.length_drop]
    omega
  rw [← List.take_append_drop (numbers % 32 + 257) lengths] at coded
  obtain ⟨short, short'⟩ := List.forall_mem_append.mp (coded.short (List.forall_mem_nil _))
  have codes : OwnCodes 30 _ _ _ := .intro (by omega) (by omega) (by omega) small complete coded
    ((Code.isUsable_iff short).mp usable) ((Code.isUsable_iff short').mp usable')
  rw [literalCount, distanceCount, count, Nat.add_sub_cancel, Nat.add_sub_cancel,
    Nat.add_sub_cancel] at codes
  rw [lowBits_fourteen, List.append_assoc, List.append_assoc]
  exact codes

/-- What is read as codes are the bits of codes. -/
theorem exists_ownCodes_of_readCodes {c c' : Code} (read : readCodes d place = .ok (c, c', stop)) :
    ∃ literals distances bits, OwnCodes 30 literals distances bits ∧ HoldsBits d place bits ∧
      c = .ofLengths literals ∧ c' = .ofLengths distances ∧ stop = place + bits.length := by
  obtain ⟨⟨numbers, next⟩, first, read⟩ := bind_eq_ok.mp read
  obtain ⟨small, held, rfl⟩ := needBits_eq_ok.mp first
  dsimp only at read
  split at read
  · cases read
  next few =>
  obtain ⟨⟨words, next⟩, second, read⟩ := bind_eq_ok.mp read
  obtain ⟨values, count, smaller, held', rfl, rfl⟩ :=
    (readLengthWords_codeLengthOrder (by omega)).mp second
  dsimp only at read
  split at read
  · cases read
  next complete =>
  obtain ⟨⟨lengths, next⟩, third, read⟩ := bind_eq_ok.mp read
  dsimp only at read
  split at read
  · cases read
  next ends =>
  split at read
  · cases read
  next usable =>
  split at read
  · cases read
  next usable' =>
  cases read
  rw [beq_iff_eq] at ends
  rw [Bool.not_eq_true', Bool.not_eq_false] at complete usable usable'
  have shortWords length := @le_of_mem_lengthWords _ smaller length
  obtain complete | none := (Code.isComplete_iff shortWords).mp complete
  · rw [if_neg (by simpa using longest_ne_zero complete)] at third
    obtain ⟨used, coded, held'', rfl, size⟩ :=
      exists_codedLengths (length_lengthWords values) third (Nat.zero_le _)
    have codes := ownCodes_of_numbers small few count smaller complete coded
      (by rw [Array.length_toList, size]) usable usable'
    refine ⟨_, _, _, codes, ?_, rfl, rfl, ?_⟩
    · simp only [HoldsBits.append_iff, length_lowBits]
      exact ⟨held, held', held''⟩
    · simp only [List.length_append, length_lowBits, Nat.add_assoc]
  · -- Without words for lengths, all lengths are 0.
    rw [if_pos (beq_iff_eq.mpr (Code.longest_eq_zero_iff.mpr none))] at third
    have zero := eq_zero_of_readLengths_constant third (List.forall_mem_nil _)
    exact absurd (getD_take_eq_zero zero _ _) ends

/-- Where the bits of codes are, with a word for the end of the block, the codes are read. -/
theorem readCodes_of_ownCodes {literals distances : List Nat} {bits : List Bool}
    (codes : OwnCodes 30 literals distances bits) (ends : literals.getD endOfBlock 0 ≠ 0)
    (held : HoldsBits d place bits) :
    readCodes d place = .ok (.ofLengths literals, .ofLengths distances, place + bits.length) := by
  obtain ⟨short, short'⟩ := codes.short
  cases codes with
  | @intro values bits literalCount distanceCount valueCount small complete lengths usable
      usable' =>
  have shortWords length := @le_of_mem_lengthWords _ small length
  have inside := held.length_le_of_pos (by simp only [List.length_append, length_lowBits]; omega)
  obtain ⟨numbers, fits, literalNumber, distanceNumber, valueNumber⟩ :
      ∃ numbers < 2 ^ 14, numbers % 32 = literals.length - 257 ∧
        numbers / 32 % 32 = distances.length - 1 ∧ numbers / 1024 = values.length - 4 :=
    ⟨literals.length - 257 + 32 * (distances.length - 1 + 32 * (values.length - 4)), by omega,
      by omega, by omega, by omega⟩
  have total : numbers % 32 + 257 + (numbers / 32 % 32 + 1) = (literals ++ distances).length := by
    rw [List.length_append]
    omega
  have literalCount' : numbers % 32 + 257 = literals.length := by omega
  rw [← literalNumber, ← distanceNumber, ← valueNumber] at held inside ⊢
  simp only [List.length_append, length_lowBits] at inside ⊢
  simp only [HoldsBits.append_iff, length_lowBits, Nat.add_assoc, Nat.reduceAdd] at held
  obtain ⟨held, held', held'', words, rest⟩ := held
  have first : needBits d 14 place = .ok (numbers, place + 14) := by
    refine needBits_eq_ok.mpr ⟨fits, ?_, rfl⟩
    rw [lowBits_fourteen]
    simp only [HoldsBits.append_iff, length_lowBits, Nat.add_assoc, Nat.reduceAdd]
    exact ⟨held, held', held''⟩
  have second := (readLengthWords_codeLengthOrder
    (show numbers / 1024 + 4 ≤ 19 by omega)).mpr ⟨values, by omega, small, words, rfl, rfl⟩
  have third := readLengths_of_codedLengths lengths (length_lengthWords values) (.inl complete)
    shortWords (show bits.length < d.size * 8 + 1 by omega) rest
  rw [readCodes, first, ok_bind]
  dsimp only
  rw [if_neg (by omega), second, ok_bind]
  dsimp only
  rw [if_neg (by simpa using (Code.isComplete_iff shortWords).mpr (.inl complete)),
    if_neg (by simpa using longest_ne_zero complete), total, Nat.add_assoc place, third, ok_bind]
  dsimp only
  rw [literalCount', List.take_left, List.drop_left, if_neg (by simpa using ends),
    if_neg (by simpa using (Code.isUsable_iff short).mpr usable),
    if_neg (by simpa using (Code.isUsable_iff short').mpr usable')]
  refine congrArg Except.ok (Prod.ext rfl (Prod.ext rfl ?_))
  dsimp only
  omega

end ClassAbi.Deflate
