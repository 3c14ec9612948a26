/-!
# Numbers in double precision

A number is `± m · 2^q` with at most 53 bits in `m`, or infinite, or no number at all. The finite
ones are kept in one form each: `m` has exactly 53 bits unless `q` is the least exponent.

Numbers come from decimal notation, rounded to the nearest; of two equally near ones the one with an
even `m` is taken.
-/

namespace Mlf

/-- A number in double precision; `finite` stands for `± mantissa · 2^exponent`. -/
inductive Number where
  | nan
  | infinite (negative : Bool)
  | finite (negative : Bool) (mantissa : Nat) (exponent : Int)
deriving DecidableEq, Repr

namespace Number

/-- The number of bits of a mantissa. -/
def precision : Nat := 53

/-- The least binary exponent. -/
def minExponent : Int := -1074

/-- The greatest binary exponent. -/
def maxExponent : Int := 971

/-- The quotient of two naturals rounded to the nearest one, halves to the even one. -/
def roundDiv (num den : Nat) : Nat :=
  let q := num / den
  let r := num % den
  if 2 * r < den then q else if den < 2 * r then q + 1 else q + q % 2

/-- A fraction times a power of `base`, as numerator and denominator. -/
def scale (base num den : Nat) (e : Int) : Nat × Nat :=
  if 0 ≤ e then (num * base.pow e.toNat, den) else (num, den * base.pow (-e).toNat)

/-- The greatest exponent `e` with `base^e ≤ num / den`, when it is `e` or `e - 1`. -/
def floorLog (base num den : Nat) (e : Int) : Int :=
  let (n, d) := scale base num den (-e)
  if d ≤ n then e else e - 1

/-- The number nearest to a positive fraction. -/
def ofFraction (negative : Bool) (num den : Nat) : Number :=
  let top := floorLog 2 num den (Nat.log2 num - Nat.log2 den)
  let q := max (top - (precision - 1)) minExponent
  let (n, d) := scale 2 num den (-q)
  let m := roundDiv n d
  let (m, q) := if m = Nat.pow 2 precision then (Nat.pow 2 (precision - 1), q + 1) else (m, q)
  if maxExponent < q then infinite negative else finite negative m q

/-- A decimal exponent beyond which numbers are infinite, and below whose opposite they are zero. -/
def decimalLimit : Int := 400

/-- The number nearest to `± digits · 10^e`. -/
def ofDecimal (negative : Bool) (digits : Nat) (e : Int) : Number :=
  let size : Int := (Nat.toDigits 10 digits).length + e
  if digits = 0 ∨ size < -decimalLimit then finite negative 0 minExponent
  else if decimalLimit < size then infinite negative
  else
    let (num, den) := scale 10 digits 1 e
    ofFraction negative num den

/-- The number nearest to an integer. -/
def ofInt (i : Int) : Number := ofDecimal (decide (i < 0)) i.natAbs 0

/-- Whether a number is finite. -/
def isFinite : Number → Bool
  | finite .. => true
  | _ => false

end Number

end Mlf
