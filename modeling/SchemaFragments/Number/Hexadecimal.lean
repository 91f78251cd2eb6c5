/-!
# Hexadecimal numbers

Digits in either case are read, lower case ones are written.
-/

namespace SchemaFragments.Number

/-- The value of a digit. -/
def hexDigit (c : Char) : Option Nat :=
  if c.isDigit then some (c.toNat - '0'.toNat)
  else if 'a' ≤ c ∧ c ≤ 'f' then some (c.toNat - 'a'.toNat + 10)
  else if 'A' ≤ c ∧ c ≤ 'F' then some (c.toNat - 'A'.toNat + 10)
  else none

/-- The number that digits stand for, of which there has to be one. -/
def hexNumber (digits : List Char) : Option Nat :=
  if digits.isEmpty then none
  else digits.foldl (fun total c => do return (← total) * 16 + (← hexDigit c)) (some 0)

/-- The last two digits of a number. -/
def lastHexDigits (n : Nat) : List Char := [Nat.digitChar (n / 16 % 16), Nat.digitChar (n % 16)]

end SchemaFragments.Number
