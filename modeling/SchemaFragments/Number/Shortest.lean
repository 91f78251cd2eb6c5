import SchemaFragments.Number.Binary64
/-!
# Shortest decimals

The fewest decimal digits that read back as a given binary64 number, and of those the nearest to it.
For each number of digits the two neighbours of the number on that decimal grid are tried; if any point
of a grid lies in the interval of reals that round to the number, then one of these two does.
-/

namespace SchemaFragments.Number

/-- The decimal `digits · 10 ^ exponent`. -/
structure Shortest where
  digits : Nat
  exponent : Int
deriving DecidableEq, Repr

/-- Which of two equally near decimals is taken. -/
inductive Tie where
  | up
  | even
deriving DecidableEq, Repr

namespace Shortest

/-- Drops trailing zeros, at most `bound` of them. -/
def trimZeros : (bound : Nat) → Shortest → Shortest
  | 0, s => s
  | bound + 1, s =>
    if s.digits % 10 = 0 ∧ s.digits ≠ 0 then trimZeros bound ⟨s.digits / 10, s.exponent + 1⟩ else s

/-- The `k` with `10 ^ (k - 1) ≤ above / below < 10 ^ k`. -/
def decimalMagnitude (above below : Nat) : Int :=
  let estimate : Int := (Nat.toDigits 10 above).length - (Nat.toDigits 10 below).length
  if below * Nat.pow 10 estimate.toNat ≤ above * Nat.pow 10 (-estimate).toNat then estimate + 1 else estimate

/-- The interval of `mantissa · 2 ^ exponent` in quarters of `2 ^ exponent`: lower end, number, upper end. -/
def quarters (mantissa : Nat) (exponent : Int) : Nat × Nat × Nat :=
  let below := if mantissa = Binary64.hiddenBit ∧ exponent ≠ Binary64.leastExponent then 1 else 2
  (4 * mantissa - below, 4 * mantissa, 4 * mantissa + 2)

/-- The decimal of `count` digits that reads back, if there is one. -/
def withDigits? (tie : Tie) (mantissa : Nat) (exponent magnitude : Int) (count : Nat) : Option Shortest :=
  let (low, value, high) := quarters mantissa exponent
  let grid := magnitude - count
  let tens := Nat.pow 10 grid.toNat * Nat.pow 2 (2 - exponent).toNat
  let twos := Nat.pow 2 (exponent - 2).toNat * Nat.pow 10 (-grid).toNat
  let reads (digits : Nat) : Bool :=
    if mantissa % 2 = 0 then low * twos ≤ digits * tens && digits * tens ≤ high * twos
    else low * twos < digits * tens && digits * tens < high * twos
  let floor := value * twos / tens
  let twice := 2 * (value * twos % tens)
  let nearestIsFloor := twice < tens || (twice == tens && tie == .even && floor % 2 == 0)
  let (first, second) := if nearestIsFloor then (floor, floor + 1) else (floor + 1, floor)
  if reads first then some ⟨first, grid⟩
  else if reads second then some ⟨second, grid⟩
  else none

/-- The shortest decimal of `mantissa · 2 ^ exponent`. Seventeen digits always suffice. -/
def of (tie : Tie) (mantissa : Nat) (exponent : Int) : Shortest :=
  if mantissa = 0 then ⟨0, 0⟩
  else
    let magnitude := decimalMagnitude (mantissa * Nat.pow 2 exponent.toNat) (Nat.pow 2 (-exponent).toNat)
    let found := (List.range 17).findSome? fun n => withDigits? tie mantissa exponent magnitude (n + 1)
    trimZeros 17 (found.getD ⟨mantissa, 0⟩)

end Shortest

end SchemaFragments.Number
