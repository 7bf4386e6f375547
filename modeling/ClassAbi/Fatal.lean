import ClassAbi.Text

/-!
# Fatal messages

Most failures are values that a caller may act on.  A few end the program: a
broken internal check and a command line that makes no sense.  `Fatal` carries
what is left to say then, a message and the exit status.
-/

namespace ClassAbi

/-- A message after which the program ends. -/
structure Fatal where
  /-- The exit status the program ends with. -/
  exit : Nat
  /-- The message. -/
  message : Text
deriving DecidableEq, Repr, Inhabited

namespace Fatal

/-- The exit status of a broken internal check. -/
def internalError : Nat := 37

/-- The exit status of a command line that cannot be understood. -/
def badCommandLine : Nat := 2

/-- The failure of an internal check, which quotes the checked condition. -/
def check (condition : String) (message : Text) : Fatal :=
  ⟨internalError, .ascii "CHECK failed: " ++ .ascii condition ++ .ascii ": " ++ message⟩

/-- A mistake on the command line. -/
def usage (message : Text) : Fatal := ⟨badCommandLine, message⟩

end Fatal

end ClassAbi
