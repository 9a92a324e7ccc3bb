/-
Double-precision numbers as exact fractions.

`Reading.ofFloat` takes a double apart into a sign and a number of the form
`significand · 2 ^ exponent`; `nearest?` goes the other way and rounds any fraction
to the nearest double, a tie to the one with the even significand.  Everything in
between (digits, printing, reading) is arithmetic of natural numbers.
-/

namespace TinyLisp.Numeral

/-- The number `significand · 2 ^ exponent`. -/
structure Binary where
  /-- The factor in front. -/
  significand : Nat
  /-- The power of two. -/
  exponent : Int

/-- The least significand of full length, 2 to the 52nd. -/
def leastFull : Nat := 4503599627370496

/-- The bits of the least negative double, 2 to the 63rd. -/
def signBit : Nat := 9223372036854775808

/-- What a double stands for. -/
inductive Reading where
  /-- No number. -/
  | nan
  /-- An infinity with its sign. -/
  | infinite (negative : Bool)
  /-- A sign and an exact magnitude. -/
  | finite (negative : Bool) (magnitude : Binary)

/-- The sign and the magnitude of a double. -/
def Reading.ofFloat (x : Float) : Reading :=
  let bits := x.toBits.toNat
  let negative : Bool := signBit ≤ bits
  let biased : Nat := bits / leastFull % 2048
  let fraction : Nat := bits % leastFull
  if biased = 2047 then
    if fraction = 0 then .infinite negative else .nan
  else if biased = 0 then .finite negative ⟨fraction, -1074⟩
  else .finite negative ⟨leastFull + fraction, (biased : Int) - 1075⟩

/-- The fraction `a / b` rounded to the nearest integer, a tie to the even one. -/
def roundDiv (a b : Nat) : Nat :=
  let q := a / b
  let r := a % b
  if 2 * r < b then q else if b < 2 * r then q + 1 else q + q % 2

/-- Two to the power of `e`, or one if `e` is negative. -/
def pow2 (e : Int) : Nat := Nat.pow 2 e.toNat

/-- Ten to the power of `e`, or one if `e` is negative. -/
def pow10 (e : Int) : Nat := Nat.pow 10 e.toNat

/-- The exponent at which `num / den` has a significand of 53 bits, or the least one. -/
def roundingExponent (num den : Nat) : Int :=
  let e : Int := (num.log2 : Int) - den.log2 - 53
  let wide : Bool := 2 * leastFull ≤ num * pow2 (-e) / (den * pow2 e)
  max (-1074) (if wide then e + 1 else e)

/-- The non-negative double nearest to `num / den`; none if that is beyond the largest. -/
def nearest? (num den : Nat) : Option Float :=
  if num = 0 then some (Float.ofBits 0)
  else
    let e := roundingExponent num den
    let significand := roundDiv (num * pow2 (-e)) (den * pow2 e)
    let bits := (e + 1074).toNat * leastFull + significand
    if bits < 2047 * leastFull then some (Float.ofBits (UInt64.ofNat bits)) else none

/-- The double nearest to a word, a tie to the one with the even significand. -/
def double (n : Int64) : Float := .ofModel (.ofInt64 n)

/-- A double without its fractional part, as a word; outside the range of a word it is the
least one. -/
def truncate (x : Float) : Int64 :=
  if -9223372036854775808 ≤ x && x < 9223372036854775808 then x.toInt64 else Int64.minValue

end TinyLisp.Numeral
