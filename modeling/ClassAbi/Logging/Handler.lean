import ClassAbi.Logging.Message

/-!
# Showing log messages

A `LogHandler` says what a message puts out and whether the program ends after it.
`LogHandler.console` shows messages from some level on.  A message of level `info`
stands behind its level in brackets, a message for the user stands alone, and others
stand behind the name of their level.

A level without a name cannot be shown.  That is a broken internal check, whose fatal
message is shown instead.

`LogSession` is a program seen through its messages.  Nothing follows a message that
ends the program.
-/

namespace ClassAbi

/-- What a message does. -/
structure LogEffect where
  /-- What is put out. -/
  output : Text
  /-- The status that the program ends with, if it ends. -/
  ending : Option Int
deriving DecidableEq, Repr

/-- What messages do. -/
abbrev LogHandler := LogMessage → LogEffect

namespace LogHandler

/-- A text as a line of its own. -/
def line (t : Text) : Text := t ++ [10]

/-- A line that a level stands in front of. -/
def labelled (name text : Text) : Text := line (name ++ Text.ascii ": " ++ text)

/-- What the console does with a fatal message. -/
def consoleFatal (least : Nat) (f : Fatal) : LogEffect :=
  ⟨if LogLevel.fatal.rank < least then [] else labelled (Text.ascii "FATAL") f.message, some f.exit⟩

/-- Shows messages whose level has at least the number `least`. -/
def console (least : Nat) : LogHandler := fun m =>
  if m.level.rank < least then ⟨[], m.ending⟩
  else match m.level.name with
    | .error f => consoleFatal least f
    | .ok name =>
      match m.level with
      | .info => ⟨line (Text.ascii "[" ++ name ++ Text.ascii "] " ++ m.text), m.ending⟩
      | .user => ⟨line m.text, m.ending⟩
      | _ => ⟨labelled name m.text, m.ending⟩

/-- Shows everything but messages about progress.  This is what a program does that
chooses nothing else. -/
def standard : LogHandler := console LogLevel.user.rank

/-- Shows everything. -/
def verbose : LogHandler := console LogLevel.info.rank

/-- What separates the parts of a trace. -/
def bar : Text := Text.ascii "|"

/-- Shows every message with all that is known about it: the number of its level, the
file and the line, the exit status, and the text. -/
def tracing : LogHandler := fun m =>
  let (file, number) := m.origin.getD (Text.ascii "-", 0)
  ⟨line (Text.ofNat m.level.rank ++ bar ++ file ++ bar ++ Text.ofNat number ++ bar ++
    Text.ofInt m.exit ++ bar ++ m.text), m.ending⟩

end LogHandler

/-! ## Sessions -/

/-- A program seen through its messages. -/
structure LogSession where
  /-- What messages do from now on. -/
  handler : LogHandler
  /-- What was put out for each message. -/
  shown : Array Text
  /-- The status that the program has ended with, once it has. -/
  ending : Option Int

namespace LogSession

/-- A program that has just begun. -/
def start : LogSession := ⟨.standard, #[], none⟩

/-- Chooses what messages do from now on. -/
def use (s : LogSession) (handler : LogHandler) : LogSession := { s with handler }

/-- Sends a message, unless the program has ended. -/
def send (s : LogSession) (m : LogMessage) : LogSession :=
  match s.ending with
  | some _ => s
  | none =>
    let effect := s.handler m
    { s with shown := s.shown.push effect.output, ending := effect.ending }

/-- Sends messages one after the other. -/
def sendAll (s : LogSession) (messages : List LogMessage) : LogSession := messages.foldl send s

/-- Everything that was put out. -/
def output (s : LogSession) : Text := s.shown.toList.flatten

/-- The status that the operating system sees. -/
def status (s : LogSession) : Nat := ((s.ending.getD 0) % 256).toNat

end LogSession

end ClassAbi
