/-
Decimal digits of a double.

Of all decimal numbers that round to a given double, `shortest` takes one with the
fewest digits, and of those the nearest, a tie going to the even last digit.  The
search walks down the powers of ten from above the number.  On each grid the only
candidates are the two neighbours of the exact value, so the first grid on which
one of them still rounds to the double gives the answer.  `rounded` instead fixes
the number of digits and rounds to the nearest, a tie again to the even digit.
-/
import TinyLisp.Numeral.Binary

namespace TinyLisp.Numeral

/-- The number `digits · 10 ^ exponent`. -/
structure Decimal where
  /-- The digits, read as one number. -/
  digits : Nat
  /-- The power of ten of the last digit. -/
  exponent : Int
  deriving DecidableEq, Repr

/-- A power of ten above the number, at most three too large. -/
def Binary.ceiling10 (x : Binary) : Int :=
  ((x.significand.log2 + 1 + x.exponent) * 30103).fdiv 100000 + 1

/-- The reals that round to a double, in quarters of its last place: the ends of the interval
around `4 * significand`.  Below a power of two the doubles lie twice as dense. -/
def Binary.interval (x : Binary) : Nat × Nat :=
  let below := if x.significand = leastFull && x.exponent > -1074 then 1 else 2
  (4 * x.significand - below, 4 * x.significand + 2)

/-- The better of the two multiples of `10 ^ k` next to a double, if one rounds to it. -/
def Binary.onGrid? (x : Binary) (k : Int) : Option Decimal :=
  let scale := pow2 (x.exponent - 2) * pow10 (-k)
  let unit := pow2 (2 - x.exponent) * pow10 k
  let (low, high) := x.interval
  let closed : Bool := x.significand % 2 = 0
  let inside (c : Nat) : Bool :=
    if closed then low * scale ≤ c * unit && c * unit ≤ high * scale
    else low * scale < c * unit && c * unit < high * scale
  let exact := 4 * x.significand * scale
  let lower := exact / unit
  let rounded := roundDiv exact unit
  let other := if rounded = lower then lower + 1 else lower
  if rounded ≠ 0 && inside rounded then some ⟨rounded, k⟩
  else if other ≠ 0 && inside other then some ⟨other, k⟩
  else none

/-- The fewest decimal digits that round to a positive double. -/
def Binary.shortest (x : Binary) : Decimal :=
  ((List.range 24).findSome? fun i : Nat => x.onGrid? (x.ceiling10 - i)).getD ⟨0, 0⟩

/-- Drops the zeros at the end of the digits; `fuel` bounds their number. -/
def Decimal.stripZeros : (fuel : Nat) → Decimal → Decimal
  | 0, d => d
  | fuel + 1, d =>
    if d.digits ≠ 0 && d.digits % 10 = 0 then
      stripZeros fuel ⟨d.digits / 10, d.exponent + 1⟩
    else d

/-- A positive double rounded to `count` significant digits, without zeros at the end. -/
def Binary.rounded (count : Nat) (x : Binary) : Decimal :=
  let atLeast (k : Int) : Bool :=
    pow2 (-x.exponent) * pow10 k ≤ x.significand * pow2 x.exponent * pow10 (-k)
  let top := ((List.range 8).findSome? fun i : Nat =>
    if atLeast (x.ceiling10 - i) then some (x.ceiling10 - i) else none).getD 0
  let k := top - count + 1
  let digits := roundDiv (x.significand * pow2 x.exponent * pow10 (-k))
    (pow2 (-x.exponent) * pow10 k)
  Decimal.stripZeros (count + 1) ⟨digits, k⟩

end TinyLisp.Numeral
