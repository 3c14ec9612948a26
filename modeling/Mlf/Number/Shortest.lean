import Mlf.Number.Basic

/-!
# Shortest decimal notation

The fewest decimal digits that read back as a given number: of all decimals that round to the
number, one with the fewest digits, and of those the nearest to it.

A positive number `m · 2^q` is what all reals between the midpoints to its neighbours round to; the
midpoints themselves count if `m` is even. For each length the two decimals of that length around
the number are tried.
-/

namespace Mlf

/-- A decimal number `0.d₁d₂… · 10^e` given by its digits as a natural number without trailing
zeros, and the exponent of its leading digit. -/
structure Decimal where
  digits : Nat
  exponent : Int
deriving DecidableEq, Repr

namespace Decimal

/-- Divides by ten as often as it comes out even, at most `fuel` times. -/
def dropZeros : (fuel : Nat) → Nat → Nat
  | 0, n => n
  | f + 1, n => if n % 10 = 0 then dropZeros f (n / 10) else n

/-- The decimal `c · 10^p`. -/
def ofGrid (c : Nat) (p : Int) : Decimal :=
  let size := (Nat.toDigits 10 c).length
  ⟨dropZeros size c, p + size - 1⟩

/-- The reals that round to a positive number, over a common denominator: the number itself and the
two ends. -/
structure Interval where
  low : Nat
  value : Nat
  high : Nat
  den : Nat
  /-- Whether the ends belong to it. -/
  closed : Bool

/-- The reals that round to `m · 2^q`. -/
def Interval.of (m : Nat) (q : Int) : Interval :=
  let narrow := m = Nat.pow 2 (Number.precision - 1) ∧ Number.minExponent < q
  let scaled (x : Nat) : Nat := (Number.scale 2 x 1 (q - 2)).1
  ⟨scaled (4 * m - if narrow then 1 else 2), scaled (4 * m), scaled (4 * m + 2),
    (Number.scale 2 1 1 (q - 2)).2, m % 2 = 0⟩

/-- Whether the decimal `c · 10^p` lies in an interval. -/
def Interval.holds (i : Interval) (c : Nat) (p : Int) : Bool :=
  let (n, d) := Number.scale 10 c 1 p
  let x := n * i.den
  if i.closed then i.low * d ≤ x && x ≤ i.high * d else i.low * d < x && x < i.high * d

/-- The decimal nearest to the number among the two around it that are multiples of `10^p`, if it
lies in the interval. -/
def Interval.onGrid (i : Interval) (p : Int) : Option Decimal :=
  let (n, d) := Number.scale 10 i.value i.den (-p)
  let below := n / d
  let first := Number.roundDiv n d
  let second := if first = below then below + 1 else below
  if i.holds first p then some (ofGrid first p)
  else if i.holds second p then some (ofGrid second p)
  else none

/-- The exponent of the leading digit of the number in an interval. -/
def Interval.exponent (i : Interval) : Int :=
  Number.floorLog 10 i.value i.den
    ((Nat.toDigits 10 i.value).length - (Nat.toDigits 10 i.den).length)

/-- The most digits that a number needs. -/
def maxDigits : Nat := 17

/-- The shortest decimal that reads back as `m · 2^q`, for a positive `m`. -/
def shortest (m : Nat) (q : Int) : Decimal :=
  let i := Interval.of m q
  let e := i.exponent
  ((List.range maxDigits).findSome? fun k : Nat => i.onGrid (e - k)).getD ⟨m, e⟩

end Decimal

end Mlf
