import SchemaFragments.Number.Binary64
/-!
# Decimal texts of numbers

Numbers written with digits, a point and an exponent, and the binary64 numbers nearest to them.
-/

namespace SchemaFragments.Number

def digitValue (c : Char) : Nat := c.toNat - '0'.toNat

/-- The number that decimal digits stand for. -/
def natOfDigits (digits : List Char) : Nat := digits.foldl (fun total c => total * 10 + digitValue c) 0

/-- Takes a sign off a text. -/
def cutSign : List Char → Bool × List Char
  | '-' :: rest => (true, rest)
  | '+' :: rest => (false, rest)
  | text => (false, text)

/-- The number `(-1)^negative · significand · 10 ^ exponent`. -/
structure Decimal where
  negative : Bool
  significand : Nat
  exponent : Int
deriving DecidableEq, Repr

def Decimal.toBinary64 (d : Decimal) : Binary64 := .ofDecimal d.negative d.significand d.exponent

/-- What stands after the letter of an exponent: an optional sign and at least one digit. -/
def readExponent (text : List Char) : Option Int :=
  let (negative, digits) := cutSign text
  if digits.isEmpty || !digits.all Char.isDigit then none
  else
    let size : Int := natOfDigits digits
    some (if negative then -size else size)

/-- Reads an optional sign, digits with a point anywhere among or around them, and an optional exponent. -/
def readDecimal (text : List Char) : Option Decimal := do
  let (negative, unsigned) := cutSign text
  let whole := unsigned.takeWhile Char.isDigit
  let afterWhole := unsigned.dropWhile Char.isDigit
  let (fraction, afterFraction) := match afterWhole with
    | '.' :: rest => (rest.takeWhile Char.isDigit, rest.dropWhile Char.isDigit)
    | rest => ([], rest)
  if whole.isEmpty && fraction.isEmpty then none
  else
    let exponent ← match afterFraction with
      | [] => some 0
      | c :: rest => if c = 'e' ∨ c = 'E' then readExponent rest else none
    return ⟨negative, natOfDigits (whole ++ fraction), exponent - fraction.length⟩

/-- Reads a decimal text as the nearest binary64 number. -/
def readBinary64 (text : List Char) : Option Binary64 := (readDecimal text).map Decimal.toBinary64

end SchemaFragments.Number
