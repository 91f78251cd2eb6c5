import SchemaFragments.Number.Shortest
/-!
# Layouts of numbers

How a format writes a binary64 number: where positional notation ends, what stands for a whole number,
how an exponent looks.
-/

namespace SchemaFragments.Number

/-- The decisions of a format. Exponents are those of `d.ddd · 10 ^ exponent`. -/
structure Layout where
  tie : Tie
  /-- Exponents from the first up to, not including, the second are written positionally; without
  bounds all are. -/
  positional : Option (Int × Int)
  /-- Whole numbers end in `.0`. -/
  pointZero : Bool
  /-- A positive exponent has a plus sign. -/
  plusSign : Bool
  infinity : String
deriving Repr

/-- The digits of a number with the point `scale` digits from the right. -/
def positionalText (digits : Nat) (exponent : Int) (pointZero : Bool) : String :=
  let text := Nat.toDigits 10 digits
  if 0 ≤ exponent then
    String.ofList (text ++ List.replicate exponent.toNat '0') ++ (if pointZero then ".0" else "")
  else
    let scale := (-exponent).toNat
    let padded := List.replicate (scale + 1 - text.length) '0' ++ text
    let whole := padded.length - scale
    String.ofList (padded.take whole ++ '.' :: padded.drop whole)

/-- The digits of a number as `d.ddd` with an exponent. -/
def scientificText (digits : Nat) (exponent : Int) (plusSign : Bool) : String :=
  let text := Nat.toDigits 10 digits
  let fraction := if text.length ≤ 1 then [] else '.' :: text.drop 1
  let sign := if exponent < 0 then "-" else if plusSign then "+" else ""
  String.ofList (text.take 1 ++ fraction) ++ "e" ++ sign ++ toString exponent.natAbs

def Layout.write (layout : Layout) : Binary64 → String
  | .infinite negative => (if negative then "-" else "") ++ layout.infinity
  | .finite negative mantissa exponent =>
    let shortest := Shortest.of layout.tie mantissa exponent
    let leading := shortest.exponent + (Nat.toDigits 10 shortest.digits).length - 1
    let inside := match layout.positional with
      | none => true
      | some (first, last) => first ≤ leading && leading < last
    (if negative then "-" else "") ++
      if inside then positionalText shortest.digits shortest.exponent layout.pointZero
      else scientificText shortest.digits leading layout.plusSign

end SchemaFragments.Number
