import ClassAbi.CommandLine.Words
import Mathlib.Data.List.Infix

/-!
# Words that are written and read

Any words can be written to a command file: between single quotes every byte stands for
itself, and a single quote is written by leaving the quotes for it.  What is read back are
the words with their lines joined, so it is the words themselves if no line end in them
stands behind a backslash (`commandWords_quoteLines`).

Splitting leaves nothing behind at the end of a line.  The words of a text that is complete
in itself come first, and what follows on further lines is split as if it stood alone.  This
holds unless the text ends with a backslash, which would be joined with the line end behind
it (`commandWords_line`).

Lines are joined before anything is split.  So both laws have a part about `joinLines`,
which takes texts apart at any place that is not in front of a line end and behind a
backslash, and a part about `Splitter`, whose steps do not depend on the words before.
-/

namespace ClassAbi

/-! ## Joined lines -/

/-- What was joined before is put in front. -/
theorem joinLinesOnto_append (joined before t : Text) :
    joinLinesOnto (joined ++ before) t = before.reverse ++ joinLinesOnto joined t := by
  fun_induction joinLinesOnto joined t with
  | case1 joined rest ih =>
    rw [joinLinesOnto]
    exact ih
  | case2 joined c rest noBreak ih =>
    rw [joinLinesOnto.eq_2 _ _ _ noBreak]
    exact ih
  | case3 joined =>
    rw [joinLinesOnto, List.reverse_append]

theorem joinLines_nil : joinLines [] = [] := rfl

/-- A backslash and the line end behind it are left out. -/
theorem joinLines_break (t : Text) : joinLines (backslash :: lineEnd :: t) = joinLines t := by
  show joinLinesOnto [] (92 :: 10 :: t) = joinLinesOnto [] t
  rw [joinLinesOnto]

/-- Any other byte stays. -/
theorem joinLines_cons {c : UInt8} {t : Text} (noBreak : c = backslash → t.head? ≠ some lineEnd) :
    joinLines (c :: t) = c :: joinLines t := by
  have apart : ∀ rest, c = 92 → t = 10 :: rest → False := by
    rintro rest here rfl
    exact noBreak here rfl
  show joinLinesOnto [] (c :: t) = c :: joinLinesOnto [] t
  rw [joinLinesOnto.eq_2 _ _ _ apart]
  exact joinLinesOnto_append [] [c] t

theorem joinLines_cons_of_ne {c : UInt8} (other : c ≠ backslash) (t : Text) :
    joinLines (c :: t) = c :: joinLines t :=
  joinLines_cons fun here => absurd here other

/-- A property of texts holds if it passes from what is behind a line break, or behind a
byte that stays, to the whole. -/
theorem joinLines_induction {P : Text → Prop} (nil : P [])
    (line : ∀ t, P t → P (backslash :: lineEnd :: t))
    (cons : ∀ c t, (c = backslash → t.head? ≠ some lineEnd) → P t → P (c :: t)) (t : Text) :
    P t := by
  refine joinLinesOnto.induct (fun _ t => P t) (fun _ t ih => line t ih) ?_ (fun _ => nil) [] t
  intro _ c t noBreak ih
  refine cons c t (fun here head => ?_) ih
  obtain ⟨rest, rfl⟩ := List.head?_eq_some_iff.mp head
  exact noBreak rest here rfl

/-- Two texts are joined apart, unless a line break would come about between them. -/
theorem joinLines_append {a b : Text}
    (noBreak : a.getLast? = some backslash → b.head? ≠ some lineEnd) :
    joinLines (a ++ b) = joinLines a ++ joinLines b := by
  induction a using joinLines_induction with
  | nil => rfl
  | line t ih =>
    -- Only the last byte of `a` can meet `b`, and a last byte of `t` is that of `a`.
    have inner : t.getLast? = some backslash → b.head? ≠ some lineEnd := by
      intro last
      refine noBreak ?_
      rw [List.getLast?_cons, List.getLast?_cons, last]
      rfl
    rw [List.cons_append, List.cons_append, joinLines_break, joinLines_break, ih inner]
  | cons c t noBreak' ih =>
    cases t with
    | nil =>
      rw [joinLines_cons noBreak']
      exact joinLines_cons fun here => noBreak (congrArg some here)
    | cons c' t =>
      have whole : c = backslash → (c' :: t ++ b).head? ≠ some lineEnd := noBreak'
      rw [List.getLast?_cons_cons] at noBreak
      rw [joinLines_cons noBreak', List.cons_append, joinLines_cons whole, ih noBreak]
      rfl

/-- Nothing is left out of a text without line breaks. -/
theorem joinLines_eq_self {t : Text} (noBreak : ¬[backslash, lineEnd] <:+: t) :
    joinLines t = t := by
  induction t using joinLines_induction with
  | nil => rfl
  | line t ih => exact absurd (List.prefix_append [backslash, lineEnd] t).isInfix noBreak
  | cons c t noBreak' ih =>
    rw [joinLines_cons noBreak', ih fun inside => noBreak (List.infix_cons inside)]

/-! ## Splitting behind other words -/

namespace Splitter

theorem run_cons (s : Splitter) (c : UInt8) (t : Text) : s.run (c :: t) = (s.step c).run t := rfl

theorem run_append (s : Splitter) (t u : Text) : s.run (t ++ u) = (s.run t).run u :=
  List.foldl_append

/-- The same, with more words before. -/
def behind (front : Array Text) (s : Splitter) : Splitter := { s with words := front ++ s.words }

theorem behind_start (front : Array Text) : start.behind front = ⟨.between, [], front⟩ := by
  rw [behind, start, Array.append_empty]

theorem endWord_behind (front : Array Text) (s : Splitter) :
    (s.behind front).endWord = s.endWord.behind front := by
  simp only [endWord, behind, Array.append_push]

theorem stepOutside_behind (front : Array Text) (s : Splitter) (c : UInt8) :
    (s.behind front).stepOutside c = (s.stepOutside c).behind front := by
  unfold stepOutside
  split
  · rw [apply_ite (behind front), ← endWord_behind]
    rfl
  · split
    · rfl
    · rw [apply_ite (behind front)]
      rfl

theorem stepQuoted_behind (front : Array Text) (s : Splitter) (quote : Quote) (c : UInt8) :
    (s.behind front).stepQuoted quote c = (s.stepQuoted quote c).behind front := by
  unfold stepQuoted
  rw [apply_ite (behind front), apply_ite (behind front)]
  rfl

theorem stepQuotedEscaped_behind (front : Array Text) (s : Splitter) (c : UInt8) :
    (s.behind front).stepQuotedEscaped c = (s.stepQuotedEscaped c).behind front := by
  unfold stepQuotedEscaped
  rw [apply_ite (behind front)]
  rfl

/-- A step does not depend on the words before. -/
theorem step_behind (front : Array Text) (s : Splitter) (c : UInt8) :
    (s.behind front).step c = (s.step c).behind front := by
  obtain ⟨mode, word, words⟩ := s
  cases mode with
  | between => exact stepOutside_behind front _ c
  | inWord => exact stepOutside_behind front _ c
  | escaped => rfl
  | quoted quote => exact stepQuoted_behind front _ quote c
  | quotedEscaped => exact stepQuotedEscaped_behind front _ c

theorem run_behind (front : Array Text) (s : Splitter) (t : Text) :
    (s.behind front).run t = (s.run t).behind front := by
  induction t generalizing s with
  | nil => rfl
  | cons c t ih => rw [run_cons, run_cons, step_behind, ih]

theorem finish_behind (front : Array Text) (s : Splitter) :
    (s.behind front).finish = (front.toList ++ s.finish.1, s.finish.2) := by
  obtain ⟨mode, word, words⟩ := s
  cases mode <;> simp [finish, behind, endWord]

/-! ## The end of a line -/

/-- Between words no bytes of a word are left. -/
def Tidy (s : Splitter) : Prop := s.mode = .between → s.word = []

theorem tidy_start : start.Tidy := fun _ => rfl

theorem tidy_of_mode_ne {s : Splitter} (inside : s.mode ≠ .between) : s.Tidy :=
  fun between => absurd between inside

theorem Tidy.stepOutside {s : Splitter} (tidy : s.Tidy) (c : UInt8) : (s.stepOutside c).Tidy := by
  unfold Splitter.stepOutside
  split
  · split
    · exact tidy
    · exact fun _ => rfl
  · split
    · exact tidy_of_mode_ne nofun
    · split <;> exact tidy_of_mode_ne nofun

/-- Only a byte outside quotes can end a word. -/
theorem Tidy.step {s : Splitter} (tidy : s.Tidy) (c : UInt8) : (s.step c).Tidy := by
  obtain ⟨mode, word, words⟩ := s
  cases mode with
  | between => exact tidy.stepOutside c
  | inWord => exact tidy.stepOutside c
  | escaped => exact tidy_of_mode_ne nofun
  | quoted quote =>
    show (stepQuoted _ quote c).Tidy
    unfold stepQuoted
    split
    · exact tidy_of_mode_ne nofun
    · split <;> exact tidy_of_mode_ne nofun
  | quotedEscaped =>
    show (stepQuotedEscaped _ c).Tidy
    unfold stepQuotedEscaped
    split <;> exact tidy_of_mode_ne nofun

theorem Tidy.run {s : Splitter} (tidy : s.Tidy) (t : Text) : (s.run t).Tidy := by
  induction t generalizing s with
  | nil => exact tidy
  | cons c t ih => exact ih (tidy.step c)

/-- Where a text may end, a line end leaves only the words. -/
theorem Tidy.step_lineEnd {s : Splitter} (tidy : s.Tidy) {words : List Text}
    (accepted : s.finish = (words, none)) : s.step lineEnd = start.behind words.toArray := by
  obtain ⟨mode, word, found⟩ := s
  cases mode with
  | between =>
    -- The line end changes nothing here, so bytes of a word would stay.
    obtain rfl : word = [] := tidy rfl
    obtain rfl : found.toList = words := congrArg Prod.fst accepted
    rw [behind_start, Array.toArray_toList]
    rfl
  | inWord =>
    obtain rfl : (found.push word.reverse).toList = words := congrArg Prod.fst accepted
    rw [behind_start, Array.toArray_toList]
    rfl
  | escaped => cases accepted
  | quoted quote => cases accepted
  | quotedEscaped => cases accepted

/-- Only behind another backslash may a text end with a backslash. -/
theorem finish_of_step_backslash {s : Splitter} (accepted : (s.step backslash).finish.2 = none) :
    s.finish.2 = some .nothingEscaped := by
  obtain ⟨mode, word, words⟩ := s
  cases mode with
  | between => cases accepted
  | inWord => cases accepted
  | escaped => rfl
  | quoted quote => cases quote <;> cases accepted
  | quotedEscaped => cases accepted

end Splitter

/-! ## Words between single quotes -/

/-- A byte as it is written between single quotes.  For a single quote the quotes are left. -/
def quoteByte (c : UInt8) : Text :=
  if c == Quote.single.byte then
    [Quote.single.byte, backslash, Quote.single.byte, Quote.single.byte]
  else [c]

/-- A word between single quotes. -/
def quoteWord (word : Text) : Text :=
  Quote.single.byte :: word.flatMap quoteByte ++ [Quote.single.byte]

/-- Words between single quotes, one on each line. -/
def quoteLines (words : List Text) : Text := words.flatMap fun word => quoteWord word ++ [lineEnd]

theorem quoteByte_single :
    quoteByte Quote.single.byte =
      [Quote.single.byte, backslash, Quote.single.byte, Quote.single.byte] := rfl

theorem quoteByte_of_ne {c : UInt8} (other : c ≠ Quote.single.byte) : quoteByte c = [c] :=
  if_neg (by rw [beq_iff_eq]; exact other)

theorem head?_flatMap_quoteByte {t : Text} (noLine : t.head? ≠ some lineEnd) :
    (t.flatMap quoteByte).head? ≠ some lineEnd := by
  cases t with
  | nil => nofun
  | cons c t =>
    rw [List.flatMap_cons]
    by_cases here : c = Quote.single.byte
    · rw [here, quoteByte_single]
      nofun
    · rw [quoteByte_of_ne here]
      exact noLine

/-- Quoting makes no line breaks and hides none. -/
theorem joinLines_flatMap_quoteByte (t : Text) :
    joinLines (t.flatMap quoteByte) = (joinLines t).flatMap quoteByte := by
  induction t using joinLines_induction with
  | nil => rfl
  | line t ih =>
    rw [joinLines_break, ← ih]
    exact joinLines_break (t.flatMap quoteByte)
  | cons c t noBreak ih =>
    rw [List.flatMap_cons, joinLines_cons noBreak, List.flatMap_cons, ← ih]
    by_cases here : c = Quote.single.byte
    · rw [here, quoteByte_single, joinLines_append fun last => absurd last (by decide)]
      rfl
    · rw [quoteByte_of_ne here]
      exact joinLines_cons fun slash => head?_flatMap_quoteByte (noBreak slash)

theorem joinLines_quoteWord (word : Text) :
    joinLines (quoteWord word) = quoteWord (joinLines word) := by
  rw [quoteWord, List.cons_append, joinLines_cons_of_ne (by decide),
    joinLines_append fun _ => by decide, joinLines_flatMap_quoteByte]
  rfl

theorem getLast?_quoteWord (word : Text) : (quoteWord word).getLast? = some Quote.single.byte :=
  List.getLast?_concat

theorem quoteLines_cons (word : Text) (words : List Text) :
    quoteLines (word :: words) = quoteWord word ++ lineEnd :: quoteLines words := by
  rw [quoteLines, List.flatMap_cons, List.append_assoc]
  rfl

theorem quoteLines_append (words words' : List Text) :
    quoteLines (words ++ words') = quoteLines words ++ quoteLines words' :=
  List.flatMap_append

/-- Quoted words are joined one by one. -/
theorem joinLines_quoteLines_append (words : List Text) (t : Text) :
    joinLines (quoteLines words ++ t) = quoteLines (words.map joinLines) ++ joinLines t := by
  induction words with
  | nil => rfl
  | cons word words ih =>
    have quoted : (quoteWord word).getLast? ≠ some backslash := by
      rw [getLast?_quoteWord]
      decide
    rw [quoteLines_cons, List.append_assoc, joinLines_append fun last => absurd last quoted,
      joinLines_quoteWord, List.cons_append, joinLines_cons_of_ne (by decide), ih, List.map_cons,
      quoteLines_cons, List.append_assoc, List.cons_append]

namespace Splitter

/-- Between single quotes a byte is read as it was before it was written. -/
theorem run_quoteByte (word : Text) (words : Array Text) (c : UInt8) :
    (⟨.quoted .single, word, words⟩ : Splitter).run (quoteByte c) =
      ⟨.quoted .single, c :: word, words⟩ := by
  by_cases here : c = Quote.single.byte
  · rw [here, quoteByte_single]
    rfl
  · rw [quoteByte_of_ne here]
    show stepQuoted _ .single c = _
    rw [stepQuoted, if_neg (by rw [beq_iff_eq]; exact here), if_neg nofun]
    rfl

theorem run_flatMap_quoteByte (word : Text) (words : Array Text) (t : Text) :
    (⟨.quoted .single, word, words⟩ : Splitter).run (t.flatMap quoteByte) =
      ⟨.quoted .single, t.reverse ++ word, words⟩ := by
  induction t generalizing word with
  | nil => rfl
  | cons c t ih =>
    rw [List.flatMap_cons, run_append, run_quoteByte, ih, List.reverse_cons, List.append_assoc]
    rfl

theorem run_quoteWord (words : Array Text) (word : Text) :
    (⟨.between, [], words⟩ : Splitter).run (quoteWord word) = ⟨.inWord, word.reverse, words⟩ := by
  rw [quoteWord, List.cons_append, run_cons, run_append]
  show (run ⟨.quoted .single, [], words⟩ (word.flatMap quoteByte)).run [Quote.single.byte] = _
  rw [run_flatMap_quoteByte, List.append_nil]
  rfl

theorem run_quoteLines (before : Array Text) (words : List Text) :
    (⟨.between, [], before⟩ : Splitter).run (quoteLines words) =
      ⟨.between, [], before ++ words.toArray⟩ := by
  induction words generalizing before with
  | nil =>
    rw [Array.append_empty]
    rfl
  | cons word words ih =>
    have ended : (⟨.inWord, word.reverse, before⟩ : Splitter).step lineEnd =
        ⟨.between, [], before.push word⟩ := by
      show endWord _ = _
      rw [endWord, List.reverse_reverse]
    rw [quoteLines_cons, run_append, run_quoteWord, run_cons, ended, ih]
    simp

end Splitter

/-- The words that are read are the quoted words with their lines joined. -/
theorem commandWords_quoteLines_joined (words : List Text) :
    commandWords (quoteLines words) = (words.map joinLines, none) := by
  have joined := joinLines_quoteLines_append words []
  rw [List.append_nil, joinLines_nil, List.append_nil] at joined
  rw [commandWords, joined, Splitter.start, Splitter.run_quoteLines, Array.empty_append]
  rfl

/-- The last line need not have an end. -/
theorem commandWords_quoteLines_dropLast (words : List Text) :
    commandWords (quoteLines words).dropLast = (words.map joinLines, none) := by
  obtain rfl | ⟨front, last, rfl⟩ := List.eq_nil_or_concat words
  · rfl
  · rw [List.concat_eq_append]
    have text : (quoteLines (front ++ [last])).dropLast = quoteLines front ++ quoteWord last := by
      rw [quoteLines_append, quoteLines_cons, ← List.append_assoc]
      exact List.dropLast_concat
    rw [text, commandWords, joinLines_quoteLines_append, joinLines_quoteWord, Splitter.run_append,
      Splitter.start, Splitter.run_quoteLines, Splitter.run_quoteWord]
    simp [Splitter.finish, Splitter.endWord]

/-- Words without line breaks that are written between single quotes, one on each line, are
read back, whether or not the last line has an end. -/
theorem commandWords_quoteLines {words : List Text}
    (noBreak : ∀ word ∈ words, ¬[backslash, lineEnd] <:+: word) :
    commandWords (quoteLines words) = (words, none) ∧
      commandWords (quoteLines words).dropLast = (words, none) := by
  have same : words.map joinLines = words :=
    (List.map_congr_left fun word mem => joinLines_eq_self (noBreak word mem)).trans
      (List.map_id words)
  rw [commandWords_quoteLines_joined, commandWords_quoteLines_dropLast, same]
  exact ⟨rfl, rfl⟩

/-- No word, white space, and quotation marks and backslashes next to each other. -/
def mixedWords : List Text := [[], Text.ascii "a b\n", Text.ascii "'\"\\", Text.ascii "\\'\n\\"]

theorem commandWords_quoteLines_mixed :
    (∀ word ∈ mixedWords, ¬[backslash, lineEnd] <:+: word) ∧
      commandWords (quoteLines mixedWords) = (mixedWords, none) ∧
      commandWords (quoteLines mixedWords).dropLast = (mixedWords, none) :=
  ⟨by decide, commandWords_quoteLines (by decide)⟩

/-! ## Complete lines -/

/-- A text whose lines are complete is split on its own: what is behind it is split as if it
stood alone, unless the text ends with a backslash. -/
theorem commandWords_append_lineEnd {a b : Text} {words : List Text}
    (accepted : commandWords a = (words, none)) (apart : a.getLast? ≠ some backslash) :
    commandWords (a ++ lineEnd :: b) = (words ++ (commandWords b).1, (commandWords b).2) := by
  have ended := (Splitter.tidy_start.run (joinLines a)).step_lineEnd accepted
  rw [commandWords, joinLines_append fun last => absurd last apart,
    joinLines_cons_of_ne (by decide), Splitter.run_append, Splitter.run_cons, ended,
    Splitter.run_behind, Splitter.finish_behind]
  rfl

/-- A text that ends with a backslash is not complete if a line end follows. -/
theorem commandWords_concat_lineEnd {a : Text} {words : List Text}
    (accepted : commandWords a = (words, none)) (last : a.getLast? = some backslash) :
    (commandWords (a ++ [lineEnd])).2 = some .nothingEscaped := by
  obtain ⟨front, rfl⟩ := List.getLast?_eq_some_iff.mp last
  -- The last backslash goes with the line end, so the text ends where `front` does.
  have joined : joinLines (front ++ [backslash] ++ [lineEnd]) = joinLines front := by
    rw [List.append_assoc, joinLines_append fun _ => by decide]
    exact List.append_nil _
  rw [commandWords, joinLines_append (fun _ => by decide), Splitter.run_append] at accepted
  rw [commandWords, joined]
  exact Splitter.finish_of_step_backslash (congrArg Prod.snd accepted)

/-- What is on further lines behind a complete text is split as if it stood alone, whatever it
is, exactly if the text does not end with a backslash. -/
theorem commandWords_line {a : Text} {words : List Text}
    (accepted : commandWords a = (words, none)) :
    (∀ b, commandWords (a ++ lineEnd :: b) = (words ++ (commandWords b).1, (commandWords b).2)) ↔
      a.getLast? ≠ some backslash := by
  constructor
  · intro alone last
    have broken := commandWords_concat_lineEnd accepted last
    rw [alone []] at broken
    cases broken
  · intro apart b
    exact commandWords_append_lineEnd accepted apart

/-- Two lines, the first of them inside quotes, and a quotation mark behind a backslash. -/
def twoLines : Text := Text.ascii "a 'b\n' \\'"

theorem commandWords_line_quoted :
    commandWords twoLines = ([Text.ascii "a", Text.ascii "b\n", Text.ascii "'"], none) ∧
      twoLines.getLast? ≠ some backslash ∧
      ∀ b, commandWords (twoLines ++ lineEnd :: b) =
        ([Text.ascii "a", Text.ascii "b\n", Text.ascii "'"] ++ (commandWords b).1,
          (commandWords b).2) :=
  ⟨by decide, by decide, (commandWords_line (by decide)).mpr (by decide)⟩

/-- The second of two backslashes is joined with the line end behind it, and the first takes
away the meaning of what is on the next line. -/
theorem commandWords_joined_line :
    commandWords [backslash, backslash] = ([[backslash]], none) ∧
      commandWords ([backslash, backslash] ++ lineEnd :: Text.ascii "x") =
        ([Text.ascii "x"], none) ∧
      commandWords ([backslash, backslash] ++ lineEnd :: Text.ascii "x") ≠
        ([[backslash]] ++ (commandWords (Text.ascii "x")).1,
          (commandWords (Text.ascii "x")).2) := by
  decide

end ClassAbi
