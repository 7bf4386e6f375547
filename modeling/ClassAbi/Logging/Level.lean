import ClassAbi.Fatal

/-!
# Levels of log messages

A message is logged at a level that says how much it matters.  There are five
levels with names.  A level above them has none, and asking for its name is a
broken internal check.
-/

namespace ClassAbi

/-- How much a log message matters. -/
inductive LogLevel where
  /-- Progress, of interest to whoever looks closer. -/
  | info
  /-- Something said to the user. -/
  | user
  /-- Something that may not be meant. -/
  | warning
  /-- Something that failed. -/
  | error
  /-- The last message before the program ends. -/
  | fatal
  /-- A level above the named ones, by its distance from the first such level. -/
  | beyond (excess : Nat)
deriving DecidableEq, Repr, Inhabited

namespace LogLevel

/-- The number of a level, counted from 0. -/
def rank : LogLevel → Nat
  | info => 0
  | user => 1
  | warning => 2
  | error => 3
  | fatal => 4
  | beyond excess => excess + 5

/-- The level with a number. -/
def ofRank : Nat → LogLevel
  | 0 => info
  | 1 => user
  | 2 => warning
  | 3 => error
  | 4 => fatal
  | excess + 5 => beyond excess

theorem rank_ofRank (n : Nat) : (ofRank n).rank = n := by
  unfold ofRank
  split <;> rfl

/-- The name of a level. -/
def name : LogLevel → Except Fatal Text
  | info => .ok (Text.ascii "INFO")
  | user => .ok (Text.ascii "USER")
  | warning => .ok (Text.ascii "WARNING")
  | error => .ok (Text.ascii "ERROR")
  | fatal => .ok (Text.ascii "FATAL")
  | beyond _ => .error (.check "static_cast<int>(level) < 5"
      (Text.ascii "LogLevelName: level out of range, there are only 5 levels."))

end LogLevel

/-- A logged message. -/
structure LogEntry where
  /-- How much it matters. -/
  level : LogLevel
  /-- What it says. -/
  message : Text
deriving DecidableEq, Repr, Inhabited

end ClassAbi
