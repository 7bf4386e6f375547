import ClassAbi.Text

/-!
# Decimal text of floating point numbers

A positive number is given exactly, as a quotient of natural numbers.
`significantDigits` rounds it to so many digits, to the nearest such number and a tie
to the even digit.

`Decimal.ofBits` is the text of a 64-bit floating point number with at most six
digits.  A number from 0.0001 up to a million is written with a decimal point, others
with an exponent of at least two digits.  Zeros at the end of a fraction are left
out.
-/

namespace ClassAbi.Decimal

/-! ## Rounding -/

/-- A quotient rounded to the nearest natural number, a tie to the even one. -/
def roundQuotient (numerator denominator : Nat) : Nat :=
  let quotient := numerator / denominator
  let remainder := numerator % denominator
  if 2 * remainder < denominator then quotient
  else if denominator < 2 * remainder then quotient + 1
  else if quotient % 2 = 0 then quotient
  else quotient + 1

/-- The number of decimal digits. -/
def digitCount (n : Nat) : Nat := (Nat.toDigits 10 n).length

/-- A power of ten. -/
def powerOfTen : Nat → Nat
  | 0 => 1
  | k + 1 => 10 * powerOfTen k

/-- A quotient times a power of ten. -/
def scale (numerator denominator : Nat) : Int → Nat × Nat
  | .ofNat k => (numerator * powerOfTen k, denominator)
  | .negSucc k => (numerator, denominator * powerOfTen (k + 1))

/-- The power of ten that the first digit of a positive quotient stands for.  The
digit counts tell it up to one. -/
def leadingExponent (numerator denominator : Nat) : Int :=
  let exponent : Int := digitCount numerator - digitCount denominator
  let (n, d) := scale numerator denominator (-exponent)
  if d ≤ n then exponent else exponent - 1

/-- A number by its digits. -/
structure Digits where
  /-- The digits as one number. -/
  value : Nat
  /-- The power of ten that the first digit stands for. -/
  exponent : Int
deriving DecidableEq, Repr

/-- A positive quotient rounded to so many digits. -/
def significantDigits (places numerator denominator : Nat) : Digits :=
  let exponent := leadingExponent numerator denominator
  let (n, d) := scale numerator denominator (places - 1 - exponent)
  let value := roundQuotient n d
  if value < powerOfTen places then ⟨value, exponent⟩
  else ⟨powerOfTen (places - 1), exponent + 1⟩

/-! ## Text -/

/-- The zero digit. -/
def zeroDigit : UInt8 := 48

/-- A fraction behind its point, without zeros at its end and without a point if
nothing is left. -/
def fraction (digits : Text) : Text :=
  match (digits.reverse.dropWhile (· == zeroDigit)).reverse with
  | [] => []
  | kept => Text.ascii "." ++ kept

/-- An exponent with its sign and at least two digits. -/
def exponentText (exponent : Int) : Text :=
  Text.ascii (if exponent < 0 then "e-" else "e+") ++
    Text.zeroPadded 2 (Text.ofNat exponent.natAbs)

/-- The text of a number of `places` digits. -/
def layout (places : Nat) (d : Digits) : Text :=
  let digits := Text.ofNat d.value
  if d.exponent < -4 ∨ places ≤ d.exponent then
    digits.take 1 ++ fraction (digits.drop 1) ++ exponentText d.exponent
  else match d.exponent with
    | .ofNat e => digits.take (e + 1) ++ fraction (digits.drop (e + 1))
    | .negSucc e => Text.ascii "0" ++ fraction (List.replicate e zeroDigit ++ digits)

/-- The number of digits that are written. -/
def writtenDigits : Nat := 6

/-- The number of fraction bits of a 64-bit floating point number. -/
def fractionWidth : Nat := 52

/-- One more than the greatest exponent of a number. -/
def exponentLimit : Nat := 2047

/-- The exponent with which the last fraction bit stands for 1. -/
def unitExponent : Nat := 1075

/-- The text of the number without sign that the exponent and the fraction bits of a
64-bit floating point number stand for.  Such a number has a leading bit that is not
stored, unless its exponent is 0. -/
def magnitude (exponent fractionBits : Nat) : Text :=
  if exponent = exponentLimit then Text.ascii (if fractionBits = 0 then "inf" else "nan")
  else
    let leadingBit := if exponent = 0 then 0 else 1 <<< fractionWidth
    let mantissa := leadingBit + fractionBits
    let power := max exponent 1
    if mantissa = 0 then Text.ascii "0"
    else layout writtenDigits (significantDigits writtenDigits
      (mantissa <<< (power - unitExponent)) (1 <<< (unitExponent - power)))

/-- The text of the 64-bit floating point number with the given bits. -/
def ofBits (bits : UInt64) : Text :=
  let exponent := (bits.toNat >>> fractionWidth) % (exponentLimit + 1)
  let fractionBits := bits.toNat % (1 <<< fractionWidth)
  (if bits >>> 63 = 0 then [] else Text.ascii "-") ++ magnitude exponent fractionBits

end ClassAbi.Decimal
