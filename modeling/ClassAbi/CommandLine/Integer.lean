import ClassAbi.Text

/-!
# Integers on the command line

An integer is written with decimal digits, perhaps behind a sign.  White space
around it does not count.  It must fit into 32 bits.
-/

namespace ClassAbi

/-- The value of a decimal digit. -/
def digitValue? (c : UInt8) : Option Nat :=
  if 48 ≤ c ∧ c ≤ 57 then some (c.toNat - 48) else none

/-- The number that a text of digits stands for, behind digits for `value`. -/
def readDigits (value : Nat) : Text → Option Nat
  | [] => some value
  | c :: rest => do readDigits (value * 10 + (← digitValue? c)) rest

/-- The number that a text of at least one digit stands for. -/
def readNat? : Text → Option Nat
  | [] => none
  | digits => readDigits 0 digits

/-- The number that digits behind a sign stand for. -/
def readSigned? : Text → Option Int
  | 43 :: digits => (readNat? digits).map Int.ofNat
  | 45 :: digits => (readNat? digits).map fun n => -(n : Int)
  | digits => (readNat? digits).map Int.ofNat

/-- A text without the white space around it. -/
def trimSpace (t : Text) : Text :=
  ((t.dropWhile Text.isSpace).reverse.dropWhile Text.isSpace).reverse

/-- The integer that a text stands for. -/
def readInt32? (t : Text) : Option Int32 := do
  let n ← readSigned? (trimSpace t)
  if Int32.minValue.toInt ≤ n ∧ n ≤ Int32.maxValue.toInt then some (Int32.ofInt n) else none

end ClassAbi
