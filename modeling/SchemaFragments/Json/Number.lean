import SchemaFragments.Data
import SchemaFragments.Number.Decimal
/-!
# Numbers in JSON

An integer of 64 bits is kept as it is, every other number becomes a binary64 number. It is read as the
product of its digits, as far as they fit into 64 bits, and a power of ten, each rounded by itself, so the
last bit can be off.
-/

namespace SchemaFragments.Json

open Number

/-- Significands have 64 bits. -/
def greatestSignificand : Nat := 18446744073709551615

/-- Bound of the size of an exponent. -/
def greatestExponent : Nat := 2147483647

/-- Adds digits to a significand as long as it fits; gives what is left of the digits. -/
def addDigits (significand : Nat) : List Char → Nat × List Char
  | [] => (significand, [])
  | c :: rest =>
    let next := significand * 10 + digitValue c
    if next ≤ greatestSignificand then addDigits next rest else (significand, c :: rest)

def power (exponent : Nat) : Binary64 := .ofDecimal false 1 exponent

/-- Divides by a power of ten in steps of `10 ^ 308`. -/
def divideByPower (value : Binary64) (exponent : Nat) : Binary64 :=
  if exponent ≤ 308 then value.div (power exponent)
  else if value.isZero then value
  else divideByPower (value.div (power 308)) (exponent - 308)
termination_by exponent

/-- The number `significand · 10 ^ exponent`, none when that is out of range. -/
def scale (significand : Nat) (exponent : Int) : Option Binary64 :=
  let value := Binary64.ofNat significand
  if exponent < 0 then some (divideByPower value (-exponent).toNat)
  else if exponent ≤ 308 then
    let scaled := value.mul (power exponent.toNat)
    if scaled.isFinite then some scaled else none
  else if value.isZero then some value
  else none

/-- The parts of a number: its sign, and the digits before the point, after it and of the exponent. -/
structure Parts where
  negative : Bool
  whole : List Char
  fraction : List Char
  exponent : Option (Bool × List Char)
deriving DecidableEq, Repr

/-- The digits of a number as a significand and the exponent that goes with it. What does not fit counts
before the point and is ignored after it. -/
def Parts.digits (parts : Parts) : Nat × Int :=
  let (whole, dropped) := addDigits 0 parts.whole
  let (significand, ignored) := addDigits whole parts.fraction
  (significand, (dropped.length : Int) - (parts.fraction.length - ignored.length : Nat))

def Parts.float (parts : Parts) : Option Binary64 :=
  let (significand, exponent) := parts.digits
  let value := match parts.exponent with
    | none => scale significand exponent
    | some (negative, digits) =>
      let size := natOfDigits digits
      if greatestExponent < size then
        if significand = 0 || negative then some (Binary64.zero false) else none
      else scale significand (if negative then exponent - size else exponent + size)
  value.map (·.withSign parts.negative)

/-- The value of a number. `-0` is no integer. -/
def Parts.value (parts : Parts) : Option Data :=
  let size := natOfDigits parts.whole
  if parts.fraction.isEmpty && parts.exponent.isNone then
    if !parts.negative && size ≤ greatestSignificand then some (.integer size)
    else if parts.negative && 0 < size && size ≤ Data.leastInteger.natAbs then some (.integer (-size))
    else parts.float.map .float
  else parts.float.map .float

/-- Takes digits off a text, at least one. -/
def cutDigits (text : List Char) : Option (List Char × List Char) :=
  let digits := text.takeWhile Char.isDigit
  if digits.isEmpty then none else some (digits, text.dropWhile Char.isDigit)

/-- Takes the parts of a number off a text. A leading zero stands alone. -/
def cutParts (text : List Char) : Option (Parts × List Char) := do
  let (negative, text) := match text with
    | '-' :: rest => (true, rest)
    | text => (false, text)
  let (whole, text) ← cutDigits text
  if whole.head? = some '0' && 1 < whole.length then none
  else
    let (fraction, text) ← match text with
      | '.' :: rest => cutDigits rest
      | text => some ([], text)
    let (exponent, text) ← match text with
      | c :: rest =>
        if c = 'e' || c = 'E' then
          let (negative, rest) := cutSign rest
          (cutDigits rest).map fun (digits, rest) => (some (negative, digits), rest)
        else some (none, text)
      | [] => some (none, [])
    return (⟨negative, whole, fraction, exponent⟩, text)

/-- Reads a number off a text. -/
def readNumber (text : List Char) : Option (Data × List Char) := do
  let (parts, rest) ← cutParts text
  return (← parts.value, rest)

end SchemaFragments.Json
