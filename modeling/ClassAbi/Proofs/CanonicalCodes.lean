import ClassAbi.Proofs.Chains
import ClassAbi.Proofs.FixedCodes

/-!
# Words of canonical codes

The lengths of its words give a canonical code: words of one length are consecutive numbers in the
order of their symbols, and the first word of a length follows the last shorter one
(`IsWord`).  How much room words take is a sum over the symbols (`occupied`).

A decoder never sees a word before it has read it.  What it reads is a word
(`Code.exists_isWord_of_needWord`), and it reads every word, as long as the words do not take more
room than there is (`Code.needWord_of_isWord`).
-/

namespace ClassAbi.Deflate

/-! ## Words and their room -/

/-- The first word of a length, as a number. -/
def firstOf (lengths : List Nat) : (length : Nat) → Nat
  | 0 => 0
  | 1 => 0
  | length + 2 => (firstOf lengths (length + 1) + Code.countOf lengths (length + 1)) * 2

/-- The bits are the word of the symbol. -/
def IsWord (lengths : List Nat) (symbol : Nat) (bits : List Bool) : Prop :=
  ∃ length, lengths[symbol]? = some length ∧ length ≠ 0 ∧
    bits = codeBits length (firstOf lengths length + Code.countOf (lengths.take symbol) length)

/-- How many words of the longest possible length begin with one of the words. -/
def occupied (lengths : List Nat) : Nat :=
  (lengths.map fun length => if length = 0 then 0 else 2 ^ (maxWordLength - length)).sum

/-- Every sequence of bits begins with a word or is the beginning of one. -/
def IsComplete (lengths : List Nat) : Prop := occupied lengths = 2 ^ maxWordLength

instance (lengths : List Nat) : Decidable (IsComplete lengths) :=
  inferInstanceAs (Decidable (occupied lengths = 2 ^ maxWordLength))

/-- The lengths give a code for data: a complete one, one without words, or a single word of one
bit. -/
def IsUsable (lengths : List Nat) : Prop :=
  IsComplete lengths ∨ (∀ length ∈ lengths, length = 0) ∨ lengths.filter (· ≠ 0) = [1]

namespace Code

/-! ## The room that is left -/

/-- The room that words of these counts take, one word of the longest length taking 1. -/
def weight : (counts : List Nat) → Nat
  | [] => 0
  | count :: counts => count * 2 ^ counts.length + weight counts

theorem freeWords_eq_some {counts : List Nat} {free rest : Nat} :
    freeWords counts free = some rest ↔ rest + weight counts = free * 2 ^ counts.length := by
  induction counts generalizing free with
  | nil =>
    rw [freeWords, weight, Option.some.injEq, List.length_nil, Nat.pow_zero, Nat.mul_one,
      Nat.add_zero]
    exact eq_comm
  | cons count counts ih =>
    have positive : 0 < 2 ^ counts.length := Nat.two_pow_pos _
    rw [freeWords, weight, List.length_cons, Nat.pow_succ']
    split
    · next fits =>
      rw [ih, Nat.sub_mul]
      have := Nat.mul_le_mul_right (2 ^ counts.length) fits
      rw [Nat.mul_assoc] at this ⊢
      omega
    · next large =>
      refine ⟨nofun, fun same => absurd ?_ large⟩
      refine Nat.le_of_mul_le_mul_right ?_ positive
      rw [Nat.mul_assoc]
      omega

theorem weight_map_add (f g : Nat → Nat) (indices : List Nat) :
    weight (indices.map fun i => f i + g i) = weight (indices.map f) + weight (indices.map g) := by
  induction indices with
  | nil => rfl
  | cons i indices ih =>
    simp only [List.map_cons, weight, List.length_map, ih, Nat.add_mul]
    omega

/-- The room by counts is the room by symbols. -/
theorem weight_countOf {lengths : List Nat} (short : ∀ length ∈ lengths, length ≤ maxWordLength) :
    weight ((List.range maxWordLength).map fun i => countOf lengths (i + 1)) =
      occupied lengths := by
  induction lengths with
  | nil => rfl
  | cons length lengths ih =>
    obtain ⟨here, rest⟩ := List.forall_mem_cons.mp short
    have single : ∀ length ≤ maxWordLength,
        weight ((List.range maxWordLength).map fun i => if length == i + 1 then 1 else 0) =
          if length = 0 then 0 else 2 ^ (maxWordLength - length) := by
      decide
    have split (i : Nat) : countOf (length :: lengths) (i + 1) =
        countOf lengths (i + 1) + if length == i + 1 then 1 else 0 := List.countP_cons
    simp only [split]
    rw [weight_map_add, ih rest, single length here, occupied, occupied, List.map_cons,
      List.sum_cons, Nat.add_comm]

theorem free_eq_some {lengths : List Nat} (short : ∀ length ∈ lengths, length ≤ maxWordLength)
    {rest : Nat} : free lengths = some rest ↔ rest + occupied lengths = 2 ^ maxWordLength := by
  rw [free, freeWords_eq_some, weight_countOf short, List.length_map, List.length_range,
    Nat.one_mul]

theorem longest_le_iff {lengths : List Nat} {n : Nat} :
    longest lengths ≤ n ↔ ∀ length ∈ lengths, length ≤ n := by
  suffices rest : ∀ start, lengths.foldl max start ≤ n ↔
      start ≤ n ∧ ∀ length ∈ lengths, length ≤ n from
    (rest 0).trans (and_iff_right (Nat.zero_le n))
  induction lengths with
  | nil => exact fun start => (and_iff_left (List.forall_mem_nil _)).symm
  | cons length lengths ih =>
    intro start
    rw [List.foldl_cons, ih, Nat.max_le, List.forall_mem_cons, and_assoc]

theorem longest_eq_zero_iff {lengths : List Nat} :
    longest lengths = 0 ↔ ∀ length ∈ lengths, length = 0 := by
  rw [← Nat.le_zero, longest_le_iff]
  simp only [Nat.le_zero]

theorem isComplete_iff {lengths : List Nat} (short : ∀ length ∈ lengths, length ≤ maxWordLength) :
    isComplete lengths ↔ IsComplete lengths ∨ ∀ length ∈ lengths, length = 0 := by
  rw [isComplete, Bool.or_eq_true, beq_iff_eq, beq_iff_eq, free_eq_some short, Nat.zero_add,
    longest_eq_zero_iff]
  exact or_comm

theorem occupied_filter (lengths : List Nat) :
    occupied (lengths.filter (· ≠ 0)) = occupied lengths := by
  induction lengths with
  | nil => rfl
  | cons length lengths ih =>
    by_cases zero : length = 0
    · subst zero
      rw [List.filter_cons_of_neg (by decide), ih]
      simp [occupied]
    · rw [List.filter_cons_of_pos (by simpa using zero)]
      unfold occupied at ih ⊢
      rw [List.map_cons, List.map_cons, List.sum_cons, List.sum_cons, ih]

/-- Words of one bit are two, or there is a single one. -/
theorem isUsable_of_longest_eq_one {lengths : List Nat} (one : longest lengths = 1)
    (room : occupied lengths ≤ 2 ^ maxWordLength) : IsUsable lengths := by
  have short : ∀ length ∈ lengths, length ≤ 1 := longest_le_iff.mp (Nat.le_of_eq one)
  have words : lengths.filter (· ≠ 0) =
      List.replicate (lengths.filter (· ≠ 0)).length 1 := by
    refine List.eq_replicate_iff.mpr ⟨rfl, fun length mem => ?_⟩
    obtain ⟨mem, positive⟩ := List.mem_filter.mp mem
    have := short length mem
    have positive : length ≠ 0 := by simpa using positive
    omega
  have total := occupied_filter lengths
  rw [words, occupied, List.map_replicate, List.sum_replicate_nat] at total
  generalize count : (lengths.filter (· ≠ 0)).length = n at words total
  change n * 2 ^ 14 = _ at total
  rw [maxWordLength] at room
  obtain rfl | rfl | rfl : n = 0 ∨ n = 1 ∨ n = 2 := by omega
  · refine absurd (longest_eq_zero_iff.mpr fun length mem => ?_) (by rw [one]; decide)
    have none := List.filter_eq_nil_iff.mp words length mem
    simpa using none
  · exact .inr (.inr words)
  · exact .inl total.symm

theorem longest_eq_one {lengths : List Nat} (single : lengths.filter (· ≠ 0) = [1]) :
    longest lengths = 1 := by
  have mem (length : Nat) : length ∈ lengths ∧ length ≠ 0 ↔ length = 1 := by
    rw [← List.mem_singleton, ← single, List.mem_filter]
    simp
  refine Nat.le_antisymm (longest_le_iff.mpr fun length there => ?_) ?_
  · by_contra long
    exact long (Nat.le_of_eq ((mem length).mp ⟨there, by omega⟩))
  · refine Nat.pos_of_ne_zero fun zero => ?_
    have := longest_eq_zero_iff.mp zero 1 ((mem 1).mpr rfl).1
    cases this

end Code

theorem IsUsable.occupied_le {lengths : List Nat} (usable : IsUsable lengths) :
    occupied lengths ≤ 2 ^ maxWordLength := by
  rw [← Code.occupied_filter]
  obtain complete | none | single := usable
  · rw [Code.occupied_filter]
    exact Nat.le_of_eq complete
  · rw [List.filter_eq_nil_iff.mpr fun length mem => by simpa using none length mem]
    exact Nat.zero_le _
  · rw [single]
    decide

namespace Code

/-- A decoder uses just the lengths that may be used. -/
theorem isUsable_iff {lengths : List Nat} (short : ∀ length ∈ lengths, length ≤ maxWordLength) :
    isUsable lengths ↔ IsUsable lengths := by
  rw [isUsable, Bool.or_eq_true, isComplete_iff short, Bool.and_eq_true, beq_iff_eq]
  constructor
  · rintro ((complete | none) | ⟨one, some⟩)
    · exact .inl complete
    · exact .inr (.inl none)
    · obtain ⟨rest, some⟩ := Option.isSome_iff_exists.mp some
      have room := (free_eq_some short).mp some
      exact isUsable_of_longest_eq_one one (by omega)
  · intro usable
    have room := usable.occupied_le
    obtain complete | none | single := usable
    · exact .inl (.inl complete)
    · exact .inl (.inr none)
    · have some := (free_eq_some short).mpr (Nat.sub_add_cancel room)
      exact .inr ⟨longest_eq_one single, Option.isSome_iff_exists.mpr ⟨_, some⟩⟩

/-! ## Symbols in their order -/

/-- The symbols with words of one length. -/
def places (lengths : List Nat) (length : Nat) : List Nat :=
  (lengths.zipIdx.filter fun (other, _) => other == length).map (·.2)

theorem length_places (lengths : List Nat) (length : Nat) :
    (places lengths length).length = countOf lengths length := by
  rw [places, List.length_map, ← List.countP_eq_length_filter, countOf]
  conv_rhs => rw [← List.zipIdx_map_fst 0 lengths, List.countP_map]
  rfl

/-- What is kept has the place that its number among the kept ones gives it. -/
theorem getElem?_filter_iff {α : Type} {p : α → Bool} {l : List α} {k : Nat} {a : α} :
    (l.filter p)[k]? = some a ↔ ∃ i, l[i]? = some a ∧ p a ∧ (l.take i).countP p = k := by
  induction l generalizing k with
  | nil => simp
  | cons b l ih =>
    rw [← Nat.or_exists_add_one]
    by_cases kept : p b
    · cases k with
      | zero =>
        have keeps : b = a → p a := fun same => same ▸ kept
        simpa [kept] using keeps
      | succ k => simp [kept, ih]
    · simp only [List.filter_cons_of_neg kept, ih, List.take_succ_cons,
        List.countP_cons_of_neg kept, List.getElem?_cons_succ, List.getElem?_cons_zero]
      refine (or_iff_right ?_).symm
      rintro ⟨same, other, -⟩
      cases same
      exact kept other

/-- Among the words of its length, a symbol has the number of those before it. -/
theorem getElem?_places {lengths : List Nat} {length k symbol : Nat} :
    (places lengths length)[k]? = some symbol ↔
      lengths[symbol]? = some length ∧ countOf (lengths.take symbol) length = k := by
  have count (i : Nat) : ((lengths.zipIdx.take i).countP fun (other, _) => other == length) =
      countOf (lengths.take i) length := by
    conv_rhs => rw [countOf, ← List.zipIdx_map_fst 0 lengths, ← List.map_take, List.countP_map]
    rfl
  rw [places, List.getElem?_map, Option.map_eq_some_iff]
  constructor
  · rintro ⟨⟨other, place⟩, found, rfl⟩
    obtain ⟨i, there, same, rfl⟩ := getElem?_filter_iff.mp found
    rw [List.getElem?_zipIdx, Option.map_eq_some_iff] at there
    obtain ⟨_, there, pair⟩ := there
    cases pair
    rw [Nat.zero_add, ← count i, ← eq_of_beq same]
    exact ⟨there, rfl⟩
  · rintro ⟨found, rfl⟩
    refine ⟨(length, symbol), getElem?_filter_iff.mpr ⟨symbol, ?_, beq_self_eq_true length,
      count symbol⟩, rfl⟩
    rw [List.getElem?_zipIdx, found, Option.map_some, Nat.zero_add]

/-- The counts of the shorter words. -/
def countsBelow (lengths : List Nat) (length : Nat) : List Nat :=
  (List.range length).map fun i => countOf lengths (i + 1)

theorem firstWord_countsBelow (lengths : List Nat) (length : Nat) :
    firstWord (countsBelow lengths length) 0 = firstOf lengths (length + 1) := by
  have append (counts : List Nat) (count first : Nat) :
      firstWord (counts ++ [count]) first = (firstWord counts first + count) * 2 := by
    induction counts generalizing first with
    | nil => rfl
    | cons other counts ih => exact ih _
  induction length with
  | zero => rfl
  | succ length ih =>
    rw [countsBelow, List.range_succ, List.map_append, List.map_singleton, append, firstOf, ← ih,
      countsBelow]

@[simp] theorem length_countsBelow (lengths : List Nat) (length : Nat) :
    (countsBelow lengths length).length = length := by
  rw [countsBelow, List.length_map, List.length_range]

theorem exists_countsBelow_eq (lengths : List Nat) {length more : Nat} (inside : length < more) :
    ∃ longer, countsBelow lengths more =
      countsBelow lengths length ++ countOf lengths (length + 1) :: longer := by
  obtain ⟨rest, rfl⟩ := Nat.exists_eq_add_of_lt inside
  refine ⟨(List.range rest).map fun i => countOf lengths (length + 1 + i + 1), ?_⟩
  rw [countsBelow, Nat.add_right_comm, List.range_add, List.map_append, List.map_map,
    List.range_succ, List.map_append, List.append_assoc]
  rfl

/-- As long as words leave some room, there are enough numbers for the words of each length. -/
theorem firstWord_add_le {shorter longer : List Nat} {count free first : Nat} {length : Nat}
    (room : (freeWords (shorter ++ count :: longer) free).isSome)
    (left : first + free * 2 = 2 ^ length) :
    firstWord shorter first + count ≤ 2 ^ (length + shorter.length) := by
  induction shorter generalizing free first length with
  | nil =>
    rw [List.nil_append, freeWords] at room
    split at room
    · rw [firstWord, List.length_nil, Nat.add_zero]
      omega
    · cases room
  | cons other shorter ih =>
    rw [List.cons_append, freeWords] at room
    split at room
    · next fits =>
      have left' : (first + other) * 2 + (free * 2 - other) * 2 = 2 ^ (length + 1) := by
        rw [Nat.pow_succ]
        omega
      have le := ih room left'
      rwa [Nat.add_right_comm, Nat.add_assoc] at le
    · cases room

/-- The symbols of a code are those of its words, shorter words first. -/
theorem getElem?_symbols {lengths : List Nat} {length k : Nat}
    (inside : length < longest lengths) (below : k < countOf lengths (length + 1)) :
    (ofLengths lengths).symbols[(countsBelow lengths length).sum + k]? =
      (places lengths (length + 1))[k]? := by
  obtain ⟨more, total⟩ := Nat.exists_eq_add_of_lt inside
  have before : ((List.range length).flatMap fun i => places lengths (i + 1)).length =
      (countsBelow lengths length).sum := by
    rw [List.length_flatMap, countsBelow]
    simp only [length_places]
  have symbols : (ofLengths lengths).symbols.toList =
      ((List.range length).flatMap fun i => places lengths (i + 1)) ++
        (places lengths (length + 1) ++ (List.range more).flatMap fun i =>
          places lengths (length + 1 + i + 1)) := by
    change (List.range (longest lengths)).flatMap (fun i => places lengths (i + 1)) = _
    rw [total, Nat.add_right_comm, List.range_add, List.flatMap_append, List.range_succ,
      List.flatMap_append, List.append_assoc, List.flatMap_singleton, List.flatMap_map]
  rw [← Array.getElem?_toList, symbols, ← before, List.getElem?_append_right (Nat.le_add_right ..),
    Nat.add_sub_cancel_left, List.getElem?_append_left (by rwa [length_places])]

theorem lt_longest {lengths : List Nat} {length k : Nat}
    (below : k < countOf lengths (length + 1)) : length < longest lengths := by
  obtain ⟨other, mem, same⟩ := List.countP_pos_iff.mp (Nat.zero_lt_of_lt below)
  have le := longest_le_iff.mp (Nat.le_refl _) other mem
  rwa [eq_of_beq same] at le

/-- The symbol of a word is the one that has its number among the words of its length. -/
theorem getD_symbols_eq_iff {lengths : List Nat} {length k symbol : Nat}
    (below : k < countOf lengths (length + 1)) :
    (ofLengths lengths).symbols.getD ((countsBelow lengths length).sum + k) 0 = symbol ↔
      lengths[symbol]? = some (length + 1) ∧ countOf (lengths.take symbol) (length + 1) = k := by
  have inside : k < (places lengths (length + 1)).length := by rwa [length_places]
  rw [Array.getD_eq_getD_getElem?, getElem?_symbols (lt_longest below) below, ← getElem?_places,
    List.getElem?_eq_getElem inside, Option.getD_some, Option.some.injEq]

/-! ## Reading words -/

/-- What is read as a word are the bits of one. -/
theorem exists_bits_of_decodeFrom {symbols : Array Nat} {d : ByteArray} {counts : List Nat}
    {word first before place symbol stop : Nat}
    (read : decodeFrom symbols d counts word first before place = .symbol symbol stop) :
    ∃ bits, symbolOf symbols counts word first before bits = some symbol ∧
      HoldsBits d place bits ∧ stop = place + bits.length := by
  induction counts generalizing word first before place with
  | nil => cases read
  | cons count counts ih =>
    rw [decodeFrom] at read
    split at read
    · cases read
    next b bit =>
    dsimp only at read
    generalize same : (if b then word + 1 else word) = word' at read
    split at read
    · next reached =>
      cases read
      refine ⟨[b], ?_, ⟨bit, trivial⟩, rfl⟩
      rw [symbolOf, same, if_pos reached]
      rfl
    · next beyond =>
      obtain ⟨bits, known, held, rfl⟩ := ih read
      refine ⟨b :: bits, ?_, ⟨bit, held⟩, ?_⟩
      · rwa [symbolOf, same, if_neg beyond]
      · rw [List.length_cons]
        omega

/-- A word that is known has a number behind all shorter words. -/
theorem exists_of_symbolOf {symbols : Array Nat} {counts : List Nat}
    {word first before symbol : Nat} {bits : List Bool}
    (known : symbolOf symbols counts word first before bits = some symbol) (even : word % 2 = 0)
    (reached : first ≤ word) :
    ∃ shorter count longer k, counts = shorter ++ count :: longer ∧ k < count ∧
      symbol = symbols.getD (before + shorter.sum + k) 0 ∧
      bits = codeBits (shorter.length + 1) (firstWord shorter first + k) ∧
      (firstWord shorter first + k) / 2 ^ (shorter.length + 1) * 2 = word := by
  induction counts generalizing word first before bits with
  | nil => cases known
  | cons count counts ih =>
    cases bits with
    | nil => cases known
    | cons b bits =>
    rw [symbolOf] at known
    have half : (if b then word + 1 else word) / 2 * 2 = word := by
      split <;> omega
    have bit : (if b then word + 1 else word).testBit 0 = b := by
      rw [Nat.testBit_zero]
      cases b
      · simp [even]
      · simp only [if_true, decide_eq_true_eq]
        omega
    have later : first ≤ if b then word + 1 else word := by
      split <;> omega
    generalize (if b then word + 1 else word) = word' at known half bit later
    split at known
    · next inside =>
      cases bits with
      | cons => cases known
      | nil =>
        cases known
        have value : first + (word' - first) = word' := Nat.add_sub_cancel' later
        refine ⟨[], count, counts, word' - first, rfl, by omega, rfl, ?_, ?_⟩
        · rw [firstWord, value, List.length_nil, codeBits_succ, bit]
          rfl
        · rw [firstWord, value]
          exact half
    · next beyond =>
      obtain ⟨shorter, count', longer, k, rfl, below, rfl, rfl, above⟩ :=
        ih known (Nat.mul_mod_left ..) (by omega)
      have above := Nat.eq_of_mul_eq_mul_right Nat.two_pos above
      refine ⟨count :: shorter, count', longer, k, rfl, below, ?_, ?_, ?_⟩
      · rw [List.sum_cons, Nat.add_assoc before]
      · rw [List.length_cons, codeBits_succ (shorter.length + 1), firstWord, ← bit, ← above,
          Nat.testBit_div_two_pow, Nat.zero_add]
      · rw [List.length_cons, firstWord, Nat.pow_succ, ← Nat.div_div_eq_div_mul, above, half]

variable {lengths : List Nat} {d : ByteArray} {fault : InflateError} {place symbol stop : Nat}

/-- The bits of a word that was read are those of the word of its symbol. -/
theorem exists_isWord_of_needWord
    (read : needWord (ofLengths lengths) d fault place = .ok (symbol, stop)) :
    ∃ bits, IsWord lengths symbol bits ∧ HoldsBits d place bits ∧ stop = place + bits.length := by
  unfold needWord at read
  split at read
  · next found =>
    cases read
    obtain ⟨bits, known, held, rfl⟩ := exists_bits_of_decodeFrom found
    refine ⟨bits, ?_, held, rfl⟩
    obtain ⟨shorter, count, longer, k, counts, below, rfl, rfl, -⟩ :=
      exists_of_symbolOf known rfl (Nat.le_refl 0)
    have inside : shorter.length < max 1 (longest lengths) := by
      have size : (ofLengths lengths).counts.length = max 1 (longest lengths) := by
        rw [ofLengths, List.length_map, List.length_range]
      rw [← size, counts, List.length_append, List.length_cons]
      omega
    obtain ⟨longer', counts'⟩ := exists_countsBelow_eq lengths inside
    obtain ⟨same, rest⟩ := List.append_inj (counts.symm.trans counts') (by simp)
    obtain ⟨rfl, -⟩ := List.cons.inj rest
    have number := congrArg (firstWord · 0) same
    rw [firstWord_countsBelow] at number
    rw [Nat.zero_add, congrArg List.sum same, number]
    obtain ⟨found, before⟩ := (getD_symbols_eq_iff below).mp rfl
    exact ⟨_, found, Nat.succ_ne_zero _, by rw [before]⟩
  · cases read
  · cases read

/-- The word of a symbol is read as the symbol. -/
theorem needWord_of_isWord {bits : List Bool} (usable : IsUsable lengths)
    (short : ∀ length ∈ lengths, length ≤ maxWordLength) (word : IsWord lengths symbol bits)
    (held : HoldsBits d place bits) :
    needWord (ofLengths lengths) d fault place = .ok (symbol, place + bits.length) := by
  obtain ⟨length, found, positive, rfl⟩ := word
  obtain ⟨length, rfl⟩ := Nat.exists_eq_succ_of_ne_zero positive
  have below : countOf (lengths.take symbol) (length + 1) < countOf lengths (length + 1) := by
    obtain ⟨inside, -⟩ := List.getElem?_eq_some_iff.mp (getElem?_places.mpr ⟨found, rfl⟩)
    rwa [length_places] at inside
  have inside : length < maxWordLength :=
    Nat.lt_of_succ_le (short _ (List.mem_of_getElem? found))
  -- There are enough numbers for the words of the length.
  have fits : firstOf lengths (length + 1) + countOf lengths (length + 1) ≤ 2 ^ (length + 1) := by
    have room := (free_eq_some short).mpr (Nat.sub_add_cancel usable.occupied_le)
    obtain ⟨longer, counts⟩ := exists_countsBelow_eq lengths inside
    rw [free, ← countsBelow, counts] at room
    have le := firstWord_add_le (Option.isSome_iff_exists.mpr ⟨_, room⟩)
      (show 0 + 1 * 2 = 2 ^ 1 from rfl)
    rwa [firstWord_countsBelow, length_countsBelow, Nat.add_comm 1] at le
  obtain ⟨longer, counts⟩ : ∃ longer, (ofLengths lengths).counts = _ ++ _ :: longer :=
    exists_countsBelow_eq lengths (Nat.lt_of_lt_of_le (lt_longest below) (Nat.le_max_right 1 _))
  have known := symbol?_word counts (firstWord_countsBelow lengths length) rfl
    (by rw [length_countsBelow]) (Nat.le_add_right _ (countOf (lengths.take symbol) (length + 1)))
    (Nat.add_lt_add_left below _) (by omega)
  rw [Nat.add_sub_cancel_left, (getD_symbols_eq_iff below).mpr ⟨found, rfl⟩] at known
  exact needWord_of_symbol? known held

end Code

end ClassAbi.Deflate
