/-!
# Binary64 numbers

Numbers of the 64 bit binary format as exact data, with rounding to the nearest one (a tie goes to the
even mantissa). NaN is left out: no text that is read here stands for it.
-/

namespace SchemaFragments.Number

/-- An infinity, or `± mantissa · 2 ^ exponent` with `mantissa < 2 ^ 53`. -/
inductive Binary64 where
  | infinite (negative : Bool)
  | finite (negative : Bool) (mantissa : Nat) (exponent : Int)
deriving DecidableEq, Repr

namespace Binary64

/-- The exponent of the numbers next to zero. -/
def leastExponent : Int := -1074

/-- The exponent of the largest numbers. -/
def greatestExponent : Int := 971

/-- Mantissas from this one up to twice as much have 53 bits, `2 ^ 52` is the first of them. -/
def hiddenBit : Nat := 4503599627370496

def zero (negative : Bool) : Binary64 := .finite negative 0 leastExponent

def isNegative : Binary64 → Bool
  | .infinite negative => negative
  | .finite negative _ _ => negative

def isFinite : Binary64 → Bool
  | .infinite _ => false
  | .finite .. => true

def isZero : Binary64 → Bool
  | .infinite _ => false
  | .finite _ mantissa _ => mantissa == 0

/-- The whole number nearest to a quotient; of two, the even one. -/
def roundedQuotient (numerator denominator : Nat) : Nat :=
  let floor := numerator / denominator
  let twice := 2 * (numerator % denominator)
  if twice < denominator then floor
  else if denominator < twice then floor + 1
  else floor + floor % 2

/-- Numerator and denominator of a fraction divided by `2 ^ exponent`. -/
def divideByPower (numerator denominator : Nat) (exponent : Int) : Nat × Nat :=
  (numerator * Nat.pow 2 (-exponent).toNat, denominator * Nat.pow 2 exponent.toNat)

/-- The largest `k` with `2 ^ k ≤ numerator / denominator`. -/
def magnitude (numerator denominator : Nat) : Int :=
  let estimate : Int := (numerator.log2 : Int) - denominator.log2
  let (above, below) := divideByPower numerator denominator estimate
  if below ≤ above then estimate else estimate - 1

/-- The number nearest to a fraction. -/
def ofFraction (negative : Bool) (numerator denominator : Nat) : Binary64 :=
  if numerator = 0 then zero negative
  else
    let exponent := max (magnitude numerator denominator - 52) leastExponent
    let (above, below) := divideByPower numerator denominator exponent
    let mantissa := roundedQuotient above below
    let (mantissa, exponent) :=
      if mantissa = 2 * hiddenBit then (hiddenBit, exponent + 1) else (mantissa, exponent)
    if greatestExponent < exponent then .infinite negative else .finite negative mantissa exponent

def ofNat (n : Nat) : Binary64 := ofFraction false n 1

/-- The number nearest to `significand · 10 ^ exponent`. Exponents far out are decided by the number of
digits alone. -/
def ofDecimal (negative : Bool) (significand : Nat) (exponent : Int) : Binary64 :=
  let digits : Int := (Nat.toDigits 10 significand).length
  if significand = 0 then zero negative
  else if 310 < digits + exponent then .infinite negative
  else if digits + exponent < -330 then zero negative
  else ofFraction negative (significand * Nat.pow 10 exponent.toNat) (Nat.pow 10 (-exponent).toNat)

/-- Product, rounded; of two finite numbers. -/
def mul : Binary64 → Binary64 → Binary64
  | .finite s m e, .finite s' m' e' =>
    ofFraction (s != s') (m * m' * Nat.pow 2 (e + e').toNat) (Nat.pow 2 (-(e + e')).toNat)
  | a, b => .infinite (a.isNegative != b.isNegative)

/-- Quotient, rounded; of two finite numbers, the second not zero. -/
def div : Binary64 → Binary64 → Binary64
  | .finite s m e, .finite s' m' e' =>
    ofFraction (s != s') (m * Nat.pow 2 (e - e').toNat) (m' * Nat.pow 2 (e' - e).toNat)
  | a, b => .infinite (a.isNegative != b.isNegative)

def withSign (negative : Bool) : Binary64 → Binary64
  | .infinite _ => .infinite negative
  | .finite _ mantissa exponent => .finite negative mantissa exponent

example : ofNat 1 = .finite false hiddenBit (-52) := by decide +kernel
example : ofDecimal false 5 (-324) = .finite false 1 (-1074) := by decide +kernel
example : ofDecimal true 1 400 = .infinite true := by decide +kernel

end Binary64

end SchemaFragments.Number
