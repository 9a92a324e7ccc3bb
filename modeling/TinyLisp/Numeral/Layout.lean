/-
The written form of a number.

A number is written positionally as long as the power of ten of its first digit
lies between −4 and a bound that the use chooses; beyond that it has one digit in
front of the point and an exponent with a sign and at least two digits.  Zeros at
the end and a bare point are never written.
-/
import TinyLisp.Numeral.Integer
import TinyLisp.Numeral.Shortest

namespace TinyLisp.Numeral

/-- How many digits a number gets and where positional writing ends. -/
structure Layout where
  /-- The decimal digits of a positive double. -/
  digits : Binary → Decimal
  /-- The least power of ten of the first digit that takes an exponent. -/
  bound : Int

/-- Numbers of the language: the fewest digits that read back, positional below a million. -/
def Layout.value : Layout := ⟨Binary.shortest, 6⟩

/-- Sizes in messages: four significant digits, positional below ten thousand. -/
def Layout.size : Layout := ⟨Binary.rounded 4, 4⟩

/-- `count` zeros. -/
def zeros (count : Nat) : Bytes := List.replicate count Byte.zero

/-- Digits with a point after the first `whole` of them, filled with zeros where needed. -/
def positional (digits : Bytes) (whole : Int) : Bytes :=
  if whole ≤ 0 then utf8 "0." ++ zeros (-whole).toNat ++ digits
  else if digits.length ≤ whole.toNat then digits ++ zeros (whole.toNat - digits.length)
  else digits.take whole.toNat ++ [Byte.dot] ++ digits.drop whole.toNat

/-- Digits with a point after the first and the power of ten of that digit. -/
def scientific (digits : Bytes) (power : Int) : Bytes :=
  let front := digits.take 1
  let back := if digits.length ≤ 1 then [] else Byte.dot :: digits.drop 1
  let sign := if power < 0 then Byte.minus else Byte.plus
  let exponent := decimal power.natAbs
  let padding := zeros (2 - exponent.length)
  front ++ back ++ utf8 "e" ++ [sign] ++ padding ++ exponent

/-- A positive decimal number. -/
def Decimal.write (bound : Int) (d : Decimal) : Bytes :=
  let digits := decimal d.digits
  let power := d.exponent + digits.length - 1
  if power < -4 || bound ≤ power then scientific digits power else positional digits (power + 1)

/-- A double in the given layout. -/
def Layout.write (layout : Layout) (x : Float) : Bytes :=
  match Reading.ofFloat x with
  | .nan => utf8 "NaN"
  | .infinite false => utf8 "+Inf"
  | .infinite true => utf8 "-Inf"
  | .finite negative magnitude =>
    let sign := if negative then [Byte.minus] else []
    let body :=
      if magnitude.significand = 0 then utf8 "0"
      else (layout.digits magnitude).write layout.bound
    sign ++ body

end TinyLisp.Numeral
