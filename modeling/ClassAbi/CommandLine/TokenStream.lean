import ClassAbi.CommandLine.Integer
import ClassAbi.CommandLine.UsageError
import ClassAbi.Files.Disk

/-!
# Tokens of a command line

The tokens of a command line are its arguments, where an argument that begins with
`@` stands for the words of the command file that it names.  Words are not looked at
again, so one of them may begin with `@`.

A command file may be missing or malformed.  That is a mistake only once the tokens
in front of it are used up.  A `TokenStream` therefore holds the tokens up to the
first such mistake, and the mistake.  It never stands in front of the mistake:
whoever takes the last token meets it.
-/

namespace ClassAbi

/-- The tokens of a command line that are not used up. -/
structure TokenStream where
  /-- The tokens, the current one first. -/
  tokens : List Text
  /-- The mistake behind the tokens. -/
  fault : Option UsageError
deriving DecidableEq, Repr

/-- The byte that an argument naming a command file begins with. -/
def atSign : UInt8 := 64

/-- The words of the command file at a path. -/
def commandFileWords (d : Disk) (path : Text) : Except UsageError (List Text) :=
  match d.lookup path with
  | .error cause => .error (.cannotOpen path cause)
  | .ok .directory => .error (.cannotRead path)
  | .ok (.file contents) =>
    match commandWords contents.data.toList with
    | (words, none) => .ok words
    | (_, some cause) => .error (.badWords path cause)

/-- The tokens that an argument stands for. -/
def argumentTokens (d : Disk) (argument : Text) : Except UsageError (List Text) :=
  match argument with
  | 64 :: path => commandFileWords d path
  | _ => .ok [argument]

/-- The tokens that arguments stand for, up to the first mistake. -/
def expandArguments (d : Disk) : List Text → List Text × Option UsageError
  | [] => ([], none)
  | argument :: rest =>
    match argumentTokens d argument with
    | .error e => ([], some e)
    | .ok tokens =>
      let (more, fault) := expandArguments d rest
      (tokens ++ more, fault)

namespace TokenStream

/-- The stream, unless it stands in front of its mistake. -/
def settle (s : TokenStream) : Except UsageError TokenStream :=
  match s.tokens, s.fault with
  | [], some e => .error e
  | _, _ => .ok s

theorem eq_of_settle {s t : TokenStream} (h : s.settle = .ok t) : t = s := by
  unfold settle at h
  split at h
  · cases h
  · cases h; rfl

/-- The tokens of arguments.  An argument ends at its first zero byte. -/
def ofArguments (d : Disk) (arguments : List Text) : Except UsageError TokenStream :=
  let (tokens, fault) := expandArguments d (arguments.map Text.beforeNul)
  settle ⟨tokens, fault⟩

/-- Whether no token is left. -/
def isAtEnd (s : TokenStream) : Bool := s.tokens.isEmpty

/-- The current token, empty at the end. -/
def token (s : TokenStream) : Text := s.tokens.headD []

/-- Whether the current token is a given option. -/
def isAt (s : TokenStream) (option : Text) : Bool := s.tokens.head? == some option

/-- Uses up the current token. -/
def next (s : TokenStream) : Except UsageError TokenStream :=
  settle { s with tokens := s.tokens.tail }

/-- The argument behind the current token, which is the option that takes it. -/
def argument (s : TokenStream) : Except UsageError (Text × TokenStream) := do
  let t ← s.next
  match t.tokens with
  | [] => .error (.missingArgument s.token)
  | value :: _ => return (value, ← t.next)

/-- The integer behind the current token, which is the option that takes it. -/
def integer (s : TokenStream) : Except UsageError (Int32 × TokenStream) := do
  let (value, t) ← s.argument
  match readInt32? value with
  | some n => return (n, t)
  | none => .error (.notAnInteger s.token value)

/-- The byte that options begin with. -/
def dash : UInt8 := 45

/-- Whether a token can be in the list behind an option. -/
def isListed (token : Text) : Bool := token.head? != some dash

/-- The tokens behind the current token up to one that looks like an option. -/
def list (s : TokenStream) : Except UsageError (List Text × TokenStream) := do
  let t ← s.next
  let rest ← settle { t with tokens := t.tokens.dropWhile isListed }
  return (t.tokens.takeWhile isListed, rest)

/-! ## The stream gets shorter -/

theorem length_next {s t : TokenStream} (h : s.next = .ok t) :
    t.tokens.length = s.tokens.length - 1 := by
  rw [eq_of_settle h, List.length_tail]

theorem length_argument {s t : TokenStream} {value : Text} (h : s.argument = .ok (value, t)) :
    t.tokens.length + 2 = s.tokens.length := by
  unfold argument at h
  cases hu : s.next with
  | error e => rw [hu] at h; cases h
  | ok u =>
    have hlen := length_next hu
    rw [hu] at h
    simp only [bind, Except.bind, pure, Except.pure] at h
    split at h
    · cases h
    · next hd tl hcons =>
      cases hv : u.next with
      | error e => rw [hv] at h; cases h
      | ok v =>
        rw [hv] at h
        cases h
        have hlen' := length_next hv
        have hpos : u.tokens.length = tl.length + 1 := by rw [hcons]; rfl
        omega

theorem length_integer {s t : TokenStream} {n : Int32} (h : s.integer = .ok (n, t)) :
    t.tokens.length + 2 = s.tokens.length := by
  unfold integer at h
  cases hu : s.argument with
  | error e => rw [hu] at h; cases h
  | ok p =>
    rw [hu] at h
    simp only [bind, Except.bind, pure, Except.pure] at h
    split at h
    · cases h; exact length_argument hu
    · cases h

theorem length_list {s t : TokenStream} {values : List Text} (h : s.list = .ok (values, t)) :
    t.tokens.length ≤ s.tokens.length - 1 := by
  unfold list at h
  cases hu : s.next with
  | error e => rw [hu] at h; cases h
  | ok u =>
    rw [hu] at h
    simp only [bind, Except.bind, pure, Except.pure] at h
    split at h
    · cases h
    · next v hv =>
      cases h
      rw [eq_of_settle hv, ← length_next hu]
      exact (List.dropWhile_sublist _).length_le

end TokenStream

end ClassAbi
