import ClassAbi.CommandLine.TokenStream

/-!
# Options

A command line consists of option groups, an option with what belongs to it.  Groups
may come in any order and repeat.  Of several values the last counts, and lists of
sources are joined.

`Options.takeGroup` reads one group, `Options.parse` all of them, and
`Options.ofArguments` checks at the end that there is an output and that the number
of jobs makes sense.
-/

namespace ClassAbi

/-- What a command line asks for. -/
structure Options where
  /-- The path of the archive to write. -/
  output : Text := []
  /-- The paths of archives and loose class files. -/
  sources : List Text := []
  /-- The directory that loose class files are named relative to. -/
  classRoot : Text := []
  /-- The number of workers, or 0 for as many as the machine has processors. -/
  jobs : Int32 := 0
  /-- Whether entries stay uncompressed. -/
  noCompress : Bool := false
  /-- Whether messages about progress are shown. -/
  verbose : Bool := false
deriving DecidableEq, Repr

namespace Options

/-- The option in front of the path of the output. -/
def outputOption : Text := Text.ascii "--output"

/-- The option in front of sources. -/
def sourcesOption : Text := Text.ascii "--sources"

/-- The option in front of the class root. -/
def classRootOption : Text := Text.ascii "--class_root"

/-- The option in front of the number of jobs. -/
def jobsOption : Text := Text.ascii "--jobs"

/-- The option that turns compression off. -/
def noCompressOption : Text := Text.ascii "--nocompress"

/-- The option that turns messages about progress on. -/
def verboseOption : Text := Text.ascii "--verbose"

/-- Reads the option group that the stream is at. -/
def takeGroup (o : Options) (s : TokenStream) : Except UsageError (Options × TokenStream) :=
  if s.isAt outputOption then s.argument.map fun r => ({ o with output := r.1 }, r.2)
  else if s.isAt sourcesOption then
    s.list.map fun r => ({ o with sources := o.sources ++ r.1 }, r.2)
  else if s.isAt classRootOption then s.argument.map fun r => ({ o with classRoot := r.1 }, r.2)
  else if s.isAt jobsOption then s.integer.map fun r => ({ o with jobs := r.1 }, r.2)
  else if s.isAt noCompressOption then s.next.map fun t => ({ o with noCompress := true }, t)
  else if s.isAt verboseOption then s.next.map fun t => ({ o with verbose := true }, t)
  else .error (.unknownToken s.token)

/-- A mapped result has a result behind it. -/
theorem exists_of_map_eq_ok {ε α β : Type} {x : Except ε α} {f : α → β} {b : β}
    (h : x.map f = .ok b) : ∃ a, x = .ok a ∧ f a = b := by
  cases x with
  | error e => cases h
  | ok a => cases h; exact ⟨a, rfl, rfl⟩

/-- A group that is read leaves fewer tokens. -/
theorem length_takeGroup {o o' : Options} {s t : TokenStream} (h : o.takeGroup s = .ok (o', t))
    (hs : s.tokens ≠ []) : t.tokens.length < s.tokens.length := by
  have hpos : 0 < s.tokens.length := List.length_pos_iff.mpr hs
  unfold takeGroup at h
  split at h
  · obtain ⟨⟨_, u⟩, hu, hp⟩ := exists_of_map_eq_ok h
    obtain rfl : u = t := congrArg Prod.snd hp
    have := TokenStream.length_argument hu
    omega
  split at h
  · obtain ⟨⟨_, u⟩, hu, hp⟩ := exists_of_map_eq_ok h
    obtain rfl : u = t := congrArg Prod.snd hp
    have := TokenStream.length_list hu
    omega
  split at h
  · obtain ⟨⟨_, u⟩, hu, hp⟩ := exists_of_map_eq_ok h
    obtain rfl : u = t := congrArg Prod.snd hp
    have := TokenStream.length_argument hu
    omega
  split at h
  · obtain ⟨⟨_, u⟩, hu, hp⟩ := exists_of_map_eq_ok h
    obtain rfl : u = t := congrArg Prod.snd hp
    have := TokenStream.length_integer hu
    omega
  split at h
  · obtain ⟨u, hu, hp⟩ := exists_of_map_eq_ok h
    obtain rfl : u = t := congrArg Prod.snd hp
    have := TokenStream.length_next hu
    omega
  split at h
  · obtain ⟨u, hu, hp⟩ := exists_of_map_eq_ok h
    obtain rfl : u = t := congrArg Prod.snd hp
    have := TokenStream.length_next hu
    omega
  · cases h

/-- Reads the option groups of a stream. -/
def parse (o : Options) (s : TokenStream) : Except UsageError Options :=
  if hs : s.tokens = [] then .ok o
  else match h : o.takeGroup s with
    | .error e => .error e
    | .ok (o', t) =>
      have := length_takeGroup h hs
      parse o' t
termination_by s.tokens.length

/-- The options, if they make sense together. -/
def validate (o : Options) : Except UsageError Options :=
  if o.output.isEmpty then .error .noOutput
  else if o.jobs < 0 then .error (.negativeJobs o.jobs)
  else .ok o

/-- The options that arguments ask for. -/
def ofArguments (d : Disk) (arguments : List Text) : Except UsageError Options := do
  let s ← TokenStream.ofArguments d arguments
  let o ← parse {} s
  o.validate

end Options

end ClassAbi
