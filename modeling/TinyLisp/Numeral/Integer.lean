/-
Decimal integers and the machine words that hold them.

Integers of the language are 64-bit words.  `decimal` and `signed` write a number
in base ten, and `integer?` reads it back: an optional sign, at least one digit and
nothing else, with a value that fits a word.
-/
import TinyLisp.Text.Bytes

namespace TinyLisp.Numeral

/-- A number that a 64-bit word can hold. -/
def Fits (z : Int) : Prop := -9223372036854775808 ≤ z ∧ z ≤ 9223372036854775807

instance (z : Int) : Decidable (Fits z) :=
  inferInstanceAs (Decidable (-9223372036854775808 ≤ z ∧ z ≤ 9223372036854775807))

/-- The word for a number, if it fits. -/
def word? (z : Int) : Option Int64 := if Fits z then some (Int64.ofInt z) else none

/-! ### Writing -/

/-- A natural number in base ten, without leading zeros. -/
def decimal (n : Nat) : Bytes :=
  if n < 10 then [UInt8.ofNat (48 + n)]
  else decimal (n / 10) ++ [UInt8.ofNat (48 + n % 10)]
termination_by n

/-- An integer in base ten; only a negative one has a sign. -/
def signed (z : Int) : Bytes :=
  if z < 0 then Byte.minus :: decimal z.natAbs else decimal z.natAbs

/-! ### Reading -/

/-- The number that a list of digits stands for after `acc` has been read. -/
def naturalFrom? (acc : Nat) : Bytes → Option Nat
  | [] => some acc
  | b :: rest => if Byte.isDigit b then naturalFrom? (acc * 10 + Byte.digitValue b) rest else none

/-- The number that a non-empty list of digits stands for. -/
def natural? : Bytes → Option Nat
  | [] => none
  | s => naturalFrom? 0 s

/-- An optional sign and the text after it; `true` is the minus sign. -/
def takeSign : Bytes → Bool × Bytes
  | [] => (false, [])
  | b :: rest =>
    if b = Byte.minus then (true, rest)
    else if b = Byte.plus then (false, rest)
    else (false, b :: rest)

/-- The word that a decimal integer stands for. -/
def integer? (s : Bytes) : Option Int64 :=
  let (negative, digits) := takeSign s
  match natural? digits with
  | some n => word? (if negative then -(n : Int) else n)
  | none => none

end TinyLisp.Numeral
