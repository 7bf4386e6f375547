import ClassAbi.CommandLine.Options
import ClassAbi.Proofs.Chains
import ClassAbi.Proofs.Numbers
import Mathlib.Data.List.Induction
import Mathlib.Data.List.TakeWhile

/-!
# What a command line asks for

An argument that names a command file may be replaced by the words of the file.  Reading
options sees the same tokens and meets the same mistake, wherever in a group the file begins
and ends.

The tokens of a command line that makes sense are those of some option groups, one group
behind the other.  An `OptionGroup` has the tokens of one group, and `Options.ofGroups` says
what groups ask for.  Reading a group takes just its tokens away, since a group begins with a
token that no list of sources goes on over (`Options.takeGroup_tokens`), and so reading all of
them is a fold over the groups (`Options.parse_flatMap_tokens`).
-/

namespace ClassAbi

/-! ## Command files -/

theorem Text.beforeNul_beforeNul (t : Text) : t.beforeNul.beforeNul = t.beforeNul :=
  List.takeWhile_idem

theorem Text.beforeNul_cons {c : UInt8} (other : c ≠ 0) (t : Text) :
    Text.beforeNul (c :: t) = c :: Text.beforeNul t :=
  List.takeWhile_cons_of_pos (by rw [bne_iff_ne]; exact other)

theorem Text.head?_beforeNul_ne {c : UInt8} {t : Text} (other : t.head? ≠ some c) :
    t.beforeNul.head? ≠ some c := by
  rw [Text.beforeNul, List.head?_takeWhile]
  intro here
  exact other (Option.eq_some_of_filter_eq_some here)

theorem Text.forall_mem_map_beforeNul {c : UInt8} {ts : List Text}
    (other : ∀ t ∈ ts, t.head? ≠ some c) : ∀ t ∈ ts.map Text.beforeNul, t.head? ≠ some c := by
  intro _ mem
  obtain ⟨t, mem', rfl⟩ := List.mem_map.mp mem
  exact Text.head?_beforeNul_ne (other t mem')

/-- A path is followed up to its first zero byte. -/
theorem Disk.lookup_beforeNul (d : Disk) (path : Text) :
    d.lookup path.beforeNul = d.lookup path := by
  unfold Disk.lookup Disk.resolve Disk.checkedPath
  rw [Text.beforeNul_beforeNul]

namespace TokenStream

/-- Tokens with no mistake behind them. -/
def sound (tokens : List Text) : TokenStream := ⟨tokens, none⟩

theorem settle_sound (tokens : List Text) : (sound tokens).settle = .ok (sound tokens) := by
  cases tokens <;> rfl

end TokenStream

section CommandFiles

variable {d : Disk}

theorem commandFileWords_eq_ok {path : Text} {contents : ByteArray} {words : List Text}
    (there : d.lookup path = .ok (.file contents))
    (read : commandWords contents.data.toList = (words, none)) :
    commandFileWords d path = .ok words := by
  rw [commandFileWords, there]
  dsimp only
  rw [read]

theorem argumentTokens_of_plain {argument : Text} (plain : argument.head? ≠ some atSign) :
    argumentTokens d argument = .ok [argument] := by
  unfold argumentTokens
  split
  · exact absurd rfl plain
  · rfl

theorem expandArguments_cons {argument : Text} {tokens : List Text}
    (found : argumentTokens d argument = .ok tokens) (rest : List Text) :
    expandArguments d (argument :: rest) =
      (tokens ++ (expandArguments d rest).1, (expandArguments d rest).2) := by
  rw [expandArguments, found]

theorem expandArguments_append_of_plain {arguments : List Text}
    (plain : ∀ argument ∈ arguments, argument.head? ≠ some atSign) (rest : List Text) :
    expandArguments d (arguments ++ rest) =
      (arguments ++ (expandArguments d rest).1, (expandArguments d rest).2) := by
  induction arguments with
  | nil => rfl
  | cons argument arguments ih =>
    obtain ⟨first, others⟩ := List.forall_mem_cons.mp plain
    rw [List.cons_append, expandArguments_cons (argumentTokens_of_plain first), ih others]
    rfl

/-- Only what the arguments behind others stand for matters. -/
theorem expandArguments_append_congr (front : List Text) {rest rest' : List Text}
    (same : expandArguments d rest = expandArguments d rest') :
    expandArguments d (front ++ rest) = expandArguments d (front ++ rest') := by
  induction front with
  | nil => exact same
  | cons argument front ih =>
    rw [List.cons_append, List.cons_append, expandArguments, expandArguments, ih]

/-- Arguments that name no command file are the tokens. -/
theorem TokenStream.ofArguments_of_plain {arguments : List Text}
    (plain : ∀ argument ∈ arguments, argument.head? ≠ some atSign) :
    TokenStream.ofArguments d arguments = .ok ⟨arguments.map Text.beforeNul, none⟩ := by
  have tokens := expandArguments_append_of_plain (d := d) (Text.forall_mem_map_beforeNul plain) []
  rw [List.append_nil] at tokens
  unfold TokenStream.ofArguments
  rw [tokens, expandArguments, List.append_nil]
  exact TokenStream.settle_sound _

/-- The words of a command file stand for themselves in the place of the file. -/
theorem TokenStream.ofArguments_commandFile {path : Text} {contents : ByteArray}
    {words : List Text} (plain : ∀ word ∈ words, word.head? ≠ some atSign)
    (there : d.lookup path = .ok (.file contents))
    (read : commandWords contents.data.toList = (words.map Text.beforeNul, none))
    (front rest : List Text) :
    TokenStream.ofArguments d (front ++ (atSign :: path) :: rest) =
      TokenStream.ofArguments d (front ++ words ++ rest) := by
  have named : argumentTokens d (Text.beforeNul (atSign :: path)) =
      .ok (words.map Text.beforeNul) := by
    rw [Text.beforeNul_cons (by decide)]
    exact commandFileWords_eq_ok ((d.lookup_beforeNul path).trans there) read
  have plain' := expandArguments_append_of_plain (d := d) (Text.forall_mem_map_beforeNul plain)
  have same := (expandArguments_cons named (rest.map Text.beforeNul)).trans
    (plain' (rest.map Text.beforeNul)).symm
  unfold TokenStream.ofArguments
  rw [List.append_assoc, List.map_append, List.map_cons, List.map_append, List.map_append,
    expandArguments_append_congr _ same]

end CommandFiles

/-! ## Numbers in digits -/

theorem digitValue?_of_isDigit {c : Char} (digit : c.isDigit) :
    digitValue? c.toNat.toUInt8 = some (c.toNat - 48) := by
  obtain ⟨low, high⟩ : 48 ≤ c.toNat ∧ c.toNat ≤ 57 := Char.isDigit_iff_toNat.mp digit
  have same : c.toNat.toUInt8.toNat = c.toNat := toNat_toUInt8 (by omega)
  rw [digitValue?, if_pos, same]
  rw [UInt8.le_iff_toNat_le, UInt8.le_iff_toNat_le, same]
  exact ⟨low, high⟩

theorem readDigits_map {cs : List Char} (digits : ∀ c ∈ cs, c.isDigit) (value : Nat) :
    readDigits value (cs.map fun c => c.toNat.toUInt8) = some (Nat.ofDigitChars 10 cs value) := by
  induction cs generalizing value with
  | nil => rfl
  | cons c cs ih =>
    obtain ⟨first, others⟩ := List.forall_mem_cons.mp digits
    rw [List.map_cons, readDigits, digitValue?_of_isDigit first, Nat.ofDigitChars_cons,
      Nat.mul_comm 10]
    exact ih others _

theorem isDigit_of_mem_toDigits {n : Nat} {c : Char} (mem : c ∈ Nat.toDigits 10 n) : c.isDigit :=
  Nat.isDigit_of_mem_toDigits (by decide) (by decide) mem

/-- A byte of a number in digits. -/
theorem le_of_mem_ofNat {n : Nat} {c : UInt8} (mem : c ∈ Text.ofNat n) : 48 ≤ c := by
  obtain ⟨digit, mem', rfl⟩ := List.mem_map.mp mem
  obtain ⟨low, high⟩ : 48 ≤ digit.toNat ∧ digit.toNat ≤ 57 :=
    Char.isDigit_iff_toNat.mp (isDigit_of_mem_toDigits mem')
  rw [UInt8.le_iff_toNat_le, toNat_toUInt8 (by omega)]
  exact low

theorem readNat?_ofNat (n : Nat) : readNat? (Text.ofNat n) = some n := by
  have value : Nat.ofDigitChars 10 (Nat.toDigits 10 n) 0 = n :=
    Nat.ofDigitChars_toDigits (by decide) (by decide)
  have read : readDigits 0 (Text.ofNat n) = some n :=
    (readDigits_map (fun _ mem => isDigit_of_mem_toDigits mem) 0).trans (congrArg some value)
  unfold readNat?
  split
  · next none =>
    rw [Text.ofNat, List.map_eq_nil_iff] at none
    exact absurd none Nat.toDigits_ne_nil
  · exact read

theorem readSigned?_ofInt (n : Int) : readSigned? (Text.ofInt n) = some n := by
  cases n with
  | ofNat n =>
    show readSigned? (Text.ofNat n) = some (n : Int)
    have high : ∀ c digits, Text.ofNat n = c :: digits → 48 ≤ c := fun c digits here =>
      le_of_mem_ofNat (here ▸ List.mem_cons_self)
    unfold readSigned?
    split
    · next here => exact absurd (high _ _ here) (by decide)
    · next here => exact absurd (high _ _ here) (by decide)
    · rw [readNat?_ofNat]
      rfl
  | negSucc n =>
    show (readNat? (Text.ofNat (n + 1))).map (fun n => -(n : Int)) = _
    rw [readNat?_ofNat]
    rfl

theorem trimSpace_eq_self {t : Text} (solid : ∀ c ∈ t, Text.isSpace c = false) :
    trimSpace t = t := by
  have keeps : ∀ u : Text, (∀ c ∈ u, Text.isSpace c = false) → u.dropWhile Text.isSpace = u := by
    intro u solid
    cases u with
    | nil => rfl
    | cons c u =>
      exact List.dropWhile_cons_of_neg (Bool.eq_false_iff.mp (solid c List.mem_cons_self))
  rw [trimSpace, keeps t solid, keeps t.reverse fun c mem => solid c (List.mem_reverse.mp mem),
    List.reverse_reverse]

theorem isSpace_of_le {c : UInt8} (high : 45 ≤ c) : Text.isSpace c = false := by
  have noBlank : ¬c = 32 := by
    rintro rfl
    exact absurd high (by decide)
  have noTurn : ¬c ≤ 13 := fun low => absurd (UInt8.le_trans high low) (by decide)
  rw [Text.isSpace, beq_false_of_ne noBlank, decide_eq_false noTurn, Bool.and_false]
  rfl

theorem le_of_mem_ofInt {n : Int} {c : UInt8} (mem : c ∈ Text.ofInt n) : 45 ≤ c := by
  cases n with
  | ofNat n => exact UInt8.le_trans (by decide) (le_of_mem_ofNat mem)
  | negSucc n =>
    obtain rfl | mem := List.mem_cons.mp mem
    · decide
    · exact UInt8.le_trans (by decide) (le_of_mem_ofNat mem)

/-- Every integer of 32 bits is read from its decimal digits. -/
theorem readInt32?_ofInt (n : Int32) : readInt32? (Text.ofInt n.toInt) = some n := by
  rw [readInt32?, trimSpace_eq_self fun c mem => isSpace_of_le (le_of_mem_ofInt mem),
    readSigned?_ofInt]
  show (if _ ∧ _ then some (Int32.ofInt n.toInt) else none) = _
  rw [if_pos ⟨n.le_toInt, n.toInt_le⟩, Int32.ofInt_toInt]

/-! ## Option groups -/

/-- An option with what belongs to it. -/
inductive OptionGroup where
  /-- The path of the output. -/
  | output (path : Text)
  /-- Sources.  A token that begins like an option ends their list. -/
  | sources (paths : List Text) (listed : ∀ path ∈ paths, TokenStream.isListed path)
  /-- The class root. -/
  | classRoot (root : Text)
  /-- The number of jobs, and how it is written. -/
  | jobs (numeral : Text) (count : Int32) (reads : readInt32? numeral = some count)
  /-- No compression. -/
  | noCompress
  /-- Messages about progress. -/
  | verbose

namespace OptionGroup

/-- The group for a number of jobs that is written in digits. -/
def ofJobs (count : Int32) : OptionGroup :=
  jobs (Text.ofInt count.toInt) count (readInt32?_ofInt count)

/-- The option that a group begins with. -/
def option : OptionGroup → Text
  | output _ => Options.outputOption
  | sources _ _ => Options.sourcesOption
  | classRoot _ => Options.classRootOption
  | jobs _ _ _ => Options.jobsOption
  | noCompress => Options.noCompressOption
  | verbose => Options.verboseOption

/-- What stands behind the option. -/
def operands : OptionGroup → List Text
  | output path => [path]
  | sources paths _ => paths
  | classRoot root => [root]
  | jobs numeral _ _ => [numeral]
  | noCompress => []
  | verbose => []

/-- The tokens of a group. -/
def tokens (g : OptionGroup) : List Text := g.option :: g.operands

/-- The output that a group asks for. -/
def output? : OptionGroup → Option Text
  | output path => some path
  | _ => none

/-- The sources that a group brings. -/
def paths : OptionGroup → List Text
  | sources paths _ => paths
  | _ => []

/-- The class root that a group asks for. -/
def classRoot? : OptionGroup → Option Text
  | classRoot root => some root
  | _ => none

/-- The number of jobs that a group asks for. -/
def jobs? : OptionGroup → Option Int32
  | jobs _ count _ => some count
  | _ => none

/-- Whether a group turns compression off. -/
def isNoCompress : OptionGroup → Bool
  | noCompress => true
  | _ => false

/-- Whether a group turns messages about progress on. -/
def isVerbose : OptionGroup → Bool
  | verbose => true
  | _ => false

/-- Options with what a group asks for on top. -/
def addTo (o : Options) : OptionGroup → Options
  | output path => { o with output := path }
  | sources paths _ => { o with sources := o.sources ++ paths }
  | classRoot root => { o with classRoot := root }
  | jobs _ count _ => { o with jobs := count }
  | noCompress => { o with noCompress := true }
  | verbose => { o with verbose := true }

theorem not_isListed_option (g : OptionGroup) : TokenStream.isListed g.option = false := by
  cases g <;> rfl

end OptionGroup

namespace Options

/-- What option groups ask for: of several values the last, all sources, and each flag that
is there. -/
def ofGroups (groups : List OptionGroup) : Options where
  output := ((groups.filterMap OptionGroup.output?).getLast?).getD []
  sources := groups.flatMap OptionGroup.paths
  classRoot := ((groups.filterMap OptionGroup.classRoot?).getLast?).getD []
  jobs := ((groups.filterMap OptionGroup.jobs?).getLast?).getD 0
  noCompress := groups.any OptionGroup.isNoCompress
  verbose := groups.any OptionGroup.isVerbose

theorem ofGroups_concat (groups : List OptionGroup) (g : OptionGroup) :
    ofGroups (groups ++ [g]) = g.addTo (ofGroups groups) := by
  cases g <;>
    simp [ofGroups, OptionGroup.addTo, OptionGroup.output?, OptionGroup.paths,
      OptionGroup.classRoot?, OptionGroup.jobs?, OptionGroup.isNoCompress, OptionGroup.isVerbose]

/-- What groups ask for is collected group by group. -/
theorem foldl_addTo (groups : List OptionGroup) :
    groups.foldl OptionGroup.addTo {} = ofGroups groups := by
  induction groups using List.reverseRecOn with
  | nil => rfl
  | append_singleton groups g ih => rw [List.foldl_concat, ih, ofGroups_concat]

end Options

/-! ## Reading groups -/

namespace TokenStream

theorem next_sound (token : Text) (tokens : List Text) :
    (sound (token :: tokens)).next = .ok (sound tokens) :=
  settle_sound tokens

theorem isAt_sound (option : Text) (tokens : List Text) :
    (sound (option :: tokens)).isAt option = true :=
  beq_self_eq_true (some option)

theorem argument_sound (option value : Text) (tokens : List Text) :
    (sound (option :: value :: tokens)).argument = .ok (value, sound tokens) := by
  rw [argument, next_sound, ok_bind]
  show ((sound (value :: tokens)).next >>= fun t => pure (value, t)) = _
  rw [next_sound]
  rfl

theorem integer_sound {value : Text} {n : Int32} (reads : readInt32? value = some n)
    (option : Text) (tokens : List Text) :
    (sound (option :: value :: tokens)).integer = .ok (n, sound tokens) := by
  rw [integer, argument_sound, ok_bind]
  dsimp only
  rw [reads]
  rfl

/-- A list goes on up to a token that cannot be in it. -/
theorem list_sound {values tokens : List Text} (listed : ∀ value ∈ values, isListed value)
    (stops : ∀ token ∈ tokens.head?, isListed token = false) (option : Text) :
    (sound (option :: (values ++ tokens))).list = .ok (values, sound tokens) := by
  have none : tokens.takeWhile isListed = [] ∧ tokens.dropWhile isListed = tokens := by
    cases tokens with
    | nil => exact ⟨rfl, rfl⟩
    | cons token tokens =>
      have ends : ¬isListed token := Bool.eq_false_iff.mp (stops token rfl)
      exact ⟨List.takeWhile_cons_of_neg ends, List.dropWhile_cons_of_neg ends⟩
  have taken : (values ++ tokens).takeWhile isListed = values := by
    rw [List.takeWhile_append_of_pos listed, none.1, List.append_nil]
  have left : (values ++ tokens).dropWhile isListed = tokens := by
    rw [List.dropWhile_append_of_pos listed, none.2]
  rw [list, next_sound, ok_bind]
  show (settle (sound ((values ++ tokens).dropWhile isListed)) >>= fun rest =>
    pure ((values ++ tokens).takeWhile isListed, rest)) = _
  rw [taken, left, settle_sound]
  rfl

end TokenStream

namespace Options

open TokenStream

/-- Reading a group takes its tokens and leaves the others. -/
theorem takeGroup_tokens (o : Options) (g : OptionGroup) {tokens : List Text}
    (stops : ∀ token ∈ tokens.head?, isListed token = false) :
    o.takeGroup (sound (g.tokens ++ tokens)) = .ok (g.addTo o, sound tokens) := by
  cases g with
  | output path =>
    show o.takeGroup (sound (outputOption :: path :: tokens)) = _
    rw [takeGroup, if_pos (isAt_sound _ _), argument_sound]
    rfl
  | sources paths listed =>
    show o.takeGroup (sound (sourcesOption :: (paths ++ tokens))) = _
    rw [takeGroup, if_neg nofun, if_pos (isAt_sound _ _), list_sound listed stops]
    rfl
  | classRoot root =>
    show o.takeGroup (sound (classRootOption :: root :: tokens)) = _
    rw [takeGroup, if_neg nofun, if_neg nofun, if_pos (isAt_sound _ _), argument_sound]
    rfl
  | jobs numeral count reads =>
    show o.takeGroup (sound (jobsOption :: numeral :: tokens)) = _
    rw [takeGroup, if_neg nofun, if_neg nofun, if_neg nofun, if_pos (isAt_sound _ _),
      integer_sound reads]
    rfl
  | noCompress =>
    show o.takeGroup (sound (noCompressOption :: tokens)) = _
    rw [takeGroup, if_neg nofun, if_neg nofun, if_neg nofun, if_neg nofun,
      if_pos (isAt_sound _ _), next_sound]
    rfl
  | verbose =>
    show o.takeGroup (sound (verboseOption :: tokens)) = _
    rw [takeGroup, if_neg nofun, if_neg nofun, if_neg nofun, if_neg nofun, if_neg nofun,
      if_pos (isAt_sound _ _), next_sound]
    rfl

theorem parse_of_takeGroup {o o' : Options} {s t : TokenStream} (more : s.tokens ≠ [])
    (taken : o.takeGroup s = .ok (o', t)) : o.parse s = o'.parse t := by
  rw [parse, dif_neg more]
  split
  · next failed => cases failed.symm.trans taken
  · next taken' =>
    cases taken'.symm.trans taken
    rfl

/-- No list of sources goes on over the beginning of a group. -/
theorem stops_flatMap_tokens (groups : List OptionGroup) :
    ∀ token ∈ (groups.flatMap OptionGroup.tokens).head?, isListed token = false := by
  cases groups with
  | nil => nofun
  | cons g groups =>
    rintro _ ⟨⟩
    exact g.not_isListed_option

/-- Reading the tokens of groups is a fold over the groups. -/
theorem parse_flatMap_tokens (o : Options) (groups : List OptionGroup) :
    o.parse (sound (groups.flatMap OptionGroup.tokens)) =
      .ok (groups.foldl OptionGroup.addTo o) := by
  induction groups generalizing o with
  | nil =>
    rw [parse]
    exact dif_pos rfl
  | cons g groups ih =>
    rw [List.flatMap_cons, List.foldl_cons, ← ih]
    exact parse_of_takeGroup nofun (takeGroup_tokens o g (stops_flatMap_tokens groups))

theorem validate_eq_ok {o : Options} (output : o.output ≠ []) (jobs : 0 ≤ o.jobs) :
    o.validate = .ok o := by
  rw [validate, if_neg (by rw [List.isEmpty_iff]; exact output), if_neg (Int32.not_lt.mpr jobs)]

/-- Groups that make sense together are read as what they ask for. -/
theorem ofArguments_of_groups {d : Disk} {arguments : List Text} {groups : List OptionGroup}
    (tokens : TokenStream.ofArguments d arguments =
      .ok ⟨groups.flatMap OptionGroup.tokens, none⟩)
    (output : (ofGroups groups).output ≠ []) (jobs : 0 ≤ (ofGroups groups).jobs) :
    ofArguments d arguments = .ok (ofGroups groups) := by
  have parsed : parse {} (sound (groups.flatMap OptionGroup.tokens)) = .ok (ofGroups groups) :=
    (parse_flatMap_tokens {} groups).trans (congrArg _ (foldl_addTo groups))
  unfold ofArguments
  rw [tokens, ok_bind]
  show (parse {} (sound (groups.flatMap OptionGroup.tokens)) >>= validate) = _
  rw [parsed, ok_bind, validate_eq_ok output jobs]

/-- A command file may be put in the place of its words, with the same options or the same
mistake.  Arguments whose tokens are those of option groups are read as what the groups ask
for, if there is an output in the end and the number of jobs makes sense. -/
theorem ofArguments_spec (d : Disk) :
    (∀ (front words rest : List Text) (path : Text) (contents : ByteArray),
      (∀ word ∈ words, word.head? ≠ some atSign) →
      d.lookup path = .ok (.file contents) →
      commandWords contents.data.toList = (words.map Text.beforeNul, none) →
      ofArguments d (front ++ (atSign :: path) :: rest) =
        ofArguments d (front ++ words ++ rest)) ∧
    ∀ (arguments : List Text) (groups : List OptionGroup),
      TokenStream.ofArguments d arguments = .ok ⟨groups.flatMap OptionGroup.tokens, none⟩ →
      (ofGroups groups).output ≠ [] →
      0 ≤ (ofGroups groups).jobs →
      ofArguments d arguments = .ok (ofGroups groups) := by
  constructor
  · intro front words rest path contents plain there read
    unfold ofArguments
    rw [TokenStream.ofArguments_commandFile plain there read]
  · intro arguments groups tokens output jobs
    exact ofArguments_of_groups tokens output jobs

/-! ## A command file that begins and ends within groups -/

/-- The arguments in front of a command file, which break off in a list of sources. -/
def sharedFront : List Text :=
  [Text.ascii "--jobs", Text.ascii "4", Text.ascii "--sources", Text.ascii "x"]

/-- The words of the command file, which go on with the list and break off in front of the
output. -/
def sharedWords : List Text := [Text.ascii "y", Text.ascii "a b", [], Text.ascii "--output"]

/-- The arguments behind the command file. -/
def sharedRest : List Text := [Text.ascii "o", Text.ascii "--verbose"]

/-- The groups that all of them come to. -/
def sharedGroups : List OptionGroup :=
  [.ofJobs 4, .sources [Text.ascii "x", Text.ascii "y", Text.ascii "a b", []] (by decide),
    .output (Text.ascii "o"), .verbose]

/-- The command file. -/
def sharedFile : ByteArray := (Text.ascii "y 'a b'\n''\n--output").toByteArray

/-- A disk with the command file. -/
def diskWithShared : Disk := Disk.put ⟨∅, []⟩ [Text.ascii "f"] (.file sharedFile)

theorem lookup_diskWithShared :
    diskWithShared.lookup (Text.ascii "f") = .ok (.file sharedFile) := by
  have node : diskWithShared.nodeAt [Text.ascii "f"] = some (.file sharedFile) :=
    Std.HashMap.getElem?_insert_self
  have resolved : diskWithShared.resolve (Text.ascii "f") = .ok [Text.ascii "f"] := rfl
  refine bind_eq_ok.mpr ⟨_, resolved, ?_⟩
  rw [node]

theorem ofArguments_spec_shared :
    (∀ word ∈ sharedWords, word.head? ≠ some atSign) ∧
      diskWithShared.lookup (Text.ascii "f") = .ok (.file sharedFile) ∧
      commandWords sharedFile.data.toList = (sharedWords.map Text.beforeNul, none) ∧
      ofArguments diskWithShared (sharedFront ++ (atSign :: Text.ascii "f") :: sharedRest) =
        ofArguments diskWithShared (sharedFront ++ sharedWords ++ sharedRest) ∧
      TokenStream.ofArguments diskWithShared (sharedFront ++ sharedWords ++ sharedRest) =
        .ok ⟨sharedGroups.flatMap OptionGroup.tokens, none⟩ ∧
      ofArguments diskWithShared (sharedFront ++ sharedWords ++ sharedRest) =
        .ok {
          output := Text.ascii "o"
          sources := [Text.ascii "x", Text.ascii "y", Text.ascii "a b", []]
          jobs := 4
          verbose := true } := by
  obtain ⟨transparent, collected⟩ := ofArguments_spec diskWithShared
  have plain : ∀ word ∈ sharedWords, word.head? ≠ some atSign := by decide
  have read : commandWords sharedFile.data.toList = (sharedWords.map Text.beforeNul, none) := by
    decide
  have tokens : TokenStream.ofArguments diskWithShared (sharedFront ++ sharedWords ++ sharedRest) =
      .ok ⟨sharedGroups.flatMap OptionGroup.tokens, none⟩ :=
    TokenStream.ofArguments_of_plain (by decide)
  exact ⟨plain, lookup_diskWithShared, read,
    transparent _ _ _ _ _ plain lookup_diskWithShared read, tokens,
    collected _ sharedGroups tokens (by decide) (by decide)⟩

end Options

end ClassAbi
