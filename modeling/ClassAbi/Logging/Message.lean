import ClassAbi.Decimal
import ClassAbi.Logging.Level

/-!
# Log messages

The text of a message is put together from values.  `LogValue` has the kinds of
values, each with one spelling.

A message also knows where in the program it comes from, if that is known, and the
status that the program ends with should the message be fatal.
-/

namespace ClassAbi

/-- A value in a message. -/
inductive LogValue where
  /-- A text as it is. -/
  | text (t : Text)
  /-- A truth value, written as 1 or 0. -/
  | truth (b : Bool)
  /-- An integer. -/
  | integer (n : Int)
  /-- The 64-bit floating point number with the given bits. -/
  | real (bits : UInt64)
  /-- The address of something, 0 if there is nothing. -/
  | address (n : Nat)
deriving DecidableEq, Repr

/-- The spelling of a value. -/
def LogValue.spelling : LogValue → Text
  | text t => t
  | truth b => Text.ascii (if b then "1" else "0")
  | integer n => Text.ofInt n
  | real bits => Decimal.ofBits bits
  | address n => if n = 0 then Text.ascii "0" else Text.ascii "0x" ++ Text.hex n

/-- A message on its way to where it is shown. -/
structure LogMessage where
  /-- How much it matters. -/
  level : LogLevel
  /-- The file and the line that it comes from. -/
  origin : Option (Text × Nat)
  /-- The status that a fatal message ends the program with. -/
  exit : Int
  /-- What it says. -/
  text : Text
deriving DecidableEq, Repr

namespace LogMessage

/-- The message put together from values. -/
def ofValues (level : LogLevel) (origin : Option (Text × Nat)) (exit : Int)
    (values : List LogValue) : LogMessage :=
  ⟨level, origin, exit, values.flatMap LogValue.spelling⟩

/-- A logged message. -/
def ofEntry (e : LogEntry) : LogMessage := ⟨e.level, none, Fatal.internalError, e.message⟩

/-- The last message of the program. -/
def ofFatal (f : Fatal) : LogMessage := ⟨.fatal, none, f.exit, f.message⟩

/-- The status that the program ends with after the message, if it ends. -/
def ending (m : LogMessage) : Option Int := if m.level = .fatal then some m.exit else none

end LogMessage

end ClassAbi
