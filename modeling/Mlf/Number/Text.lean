import Mlf.Number.Shortest

/-!
# Written numbers

A number is written with its shortest digits: plainly as long as its leading digit stands between
the fourth place after the point and the sixth before it, else with an exponent of at least two
digits and a sign.
-/

namespace Mlf

/-- The choices in how a number is written. -/
structure NumberFormat where
  /-- The least exponent that is written plainly. -/
  leastPlain : Int
  /-- The least exponent above those that are written plainly. -/
  plainEnd : Int
  /-- The least number of digits of an exponent. -/
  exponentDigits : Nat
  nan : String
  infinity : String
  negativeInfinity : String

/-- How constants are written. -/
def NumberFormat.constants : NumberFormat := ⟨-4, 6, 2, "NaN", "+Inf", "-Inf"⟩

namespace NumberFormat

/-- Digits with an exponent, and a point after the first digit if there are more. -/
def scientific (f : NumberFormat) (d : Decimal) : List Char :=
  let digits := Nat.toDigits 10 d.digits
  let point := if digits.length ≤ 1 then digits else digits.take 1 ++ '.' :: digits.drop 1
  let power := Nat.toDigits 10 d.exponent.natAbs
  point ++ 'e' :: (if d.exponent < 0 then '-' else '+')
    :: (List.replicate (f.exponentDigits - power.length) '0' ++ power)

/-- Digits with the point in its place. -/
def plain (d : Decimal) : List Char :=
  let digits := Nat.toDigits 10 d.digits
  if d.exponent < 0 then
    '0' :: '.' :: (List.replicate (-d.exponent - 1).toNat '0' ++ digits)
  else
    let whole := d.exponent.toNat + 1
    if digits.length ≤ whole then digits ++ List.replicate (whole - digits.length) '0'
    else digits.take whole ++ '.' :: digits.drop whole

/-- A number as it is written. -/
def render (f : NumberFormat) : Number → String
  | .nan => f.nan
  | .infinite false => f.infinity
  | .infinite true => f.negativeInfinity
  | .finite negative m q =>
    let text :=
      if m = 0 then ['0']
      else
        let d := Decimal.shortest m q
        if d.exponent < f.leastPlain ∨ f.plainEnd ≤ d.exponent then f.scientific d else plain d
    String.ofList (if negative then '-' :: text else text)

end NumberFormat

end Mlf
