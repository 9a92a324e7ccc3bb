/-
Reading a double.

The accepted texts are decimal numbers with an optional point and exponent,
numbers of base sixteen (`0x1.8p3`, where the power of two after `p` is required),
`inf`, `infinity` and `nan` in any case.  An underscore may stand between two
digits.  The value is the double nearest to the exact number; a number beyond the
largest double is reported apart from a text that is no number, because messages
tell the two apart.
-/
import TinyLisp.Numeral.Binary
import TinyLisp.Numeral.Integer

namespace TinyLisp.Numeral

/-- The outcome of reading a double. -/
inductive RealResult where
  /-- The nearest double. -/
  | value (x : Float)
  /-- A number, but beyond the largest double. -/
  | outOfRange
  /-- No number. -/
  | malformed

/-- The value of a digit in base ten or sixteen. -/
def digit? (base : Nat) (b : UInt8) : Option Nat :=
  let l := Byte.toLower b
  if Byte.isDigit b then some (Byte.digitValue b)
  else if base = 16 && 97 ≤ l && l ≤ 102 then some (l.toNat - 87)
  else none

/-! ### Underscores -/

/-- What stands in front of a character of a number. -/
inductive Before where
  /-- The beginning of the number. -/
  | start
  /-- A digit, or the mark of a base. -/
  | digit
  /-- An underscore. -/
  | separator
  /-- Anything else. -/
  | other
  deriving DecidableEq

/-- Every underscore stands after a digit and in front of one. -/
def separatorsFrom (base : Nat) : Before → Bytes → Bool
  | before, [] => before != .separator
  | before, b :: rest =>
    if (digit? base b).isSome then separatorsFrom base .digit rest
    else if b = Byte.underscore then before == .digit && separatorsFrom base .separator rest
    else before != .separator && separatorsFrom base .other rest

/-- The base that a mark such as `x` after a leading zero announces. -/
def baseOfMark? (mark : UInt8) : Option Nat :=
  match Byte.toLower mark with
  | 98 => some 2
  | 111 => some 8
  | 120 => some 16
  | _ => none

/-- The underscores of a number without its sign only separate digits.  The mark of a base
counts as a digit. -/
def separatorsOk : Bytes → Bool
  | 48 :: mark :: rest =>
    match baseOfMark? mark with
    | some base => separatorsFrom base .digit rest
    | none => separatorsFrom 10 .start (48 :: mark :: rest)
  | s => separatorsFrom 10 .start s

/-! ### Mantissa and exponent -/

/-- The digits of a number, read up to some place. -/
structure Mantissa where
  /-- The digits as one number. -/
  value : Nat
  /-- How many of them stand after the point. -/
  places : Nat
  /-- The point has been read. -/
  point : Bool
  /-- A digit has been read. -/
  started : Bool

/-- Nothing read yet. -/
def Mantissa.empty : Mantissa := ⟨0, 0, false, false⟩

/-- The mantissa with one more digit. -/
def Mantissa.push (m : Mantissa) (base d : Nat) : Mantissa :=
  { m with value := m.value * base + d, started := true,
           places := if m.point then m.places + 1 else m.places }

/-- Reads digits, underscores and at most one point. -/
def Mantissa.read (base : Nat) : Mantissa → Bytes → Mantissa × Bytes
  | m, [] => (m, [])
  | m, b :: rest =>
    if b = Byte.underscore then read base m rest
    else if b = Byte.dot && !m.point then read base { m with point := true } rest
    else match digit? base b with
      | some d => read base (m.push base d) rest
      | none => (m, b :: rest)

/-- The number after an exponent mark.  Digits beyond the ten thousands change nothing any
more, since such a power is far outside the range of a double. -/
def exponentFrom? (acc : Nat) : Bytes → Option Nat
  | [] => some acc
  | b :: rest =>
    if b = Byte.underscore then exponentFrom? acc rest
    else if Byte.isDigit b then
      exponentFrom? (if acc < 10000 then acc * 10 + Byte.digitValue b else acc) rest
    else none

/-- An exponent: its mark, a sign and digits. -/
def exponent? (mark : UInt8) : Bytes → Option Int
  | [] => none
  | b :: rest =>
    if Byte.toLower b ≠ mark then none
    else
      let (negative, digits) := takeSign rest
      match digits with
      | [] => none
      | d :: _ =>
        if !Byte.isDigit d then none
        else (exponentFrom? 0 digits).map fun e => if negative then -(e : Int) else e

/-- The double nearest to a fraction, with its sign. -/
def RealResult.ofFraction (negative : Bool) (num den : Nat) : RealResult :=
  match nearest? num den with
  | some x => .value (if negative then -x else x)
  | none => .outOfRange

/-- A decimal number without its sign. -/
def readDecimal (negative : Bool) (s : Bytes) : RealResult :=
  let (m, rest) := Mantissa.read 10 .empty s
  let exponent := if rest.isEmpty then some 0 else exponent? 101 rest
  match m.started, exponent with
  | true, some e =>
    let power := e - m.places
    RealResult.ofFraction negative (m.value * pow10 power) (pow10 (-power))
  | _, _ => .malformed

/-- A number of base sixteen, after its mark. -/
def readHexadecimal (negative : Bool) (s : Bytes) : RealResult :=
  let (m, rest) := Mantissa.read 16 .empty s
  match m.started, exponent? 112 rest with
  | true, some e =>
    let power := e - 4 * m.places
    RealResult.ofFraction negative (m.value * pow2 power) (pow2 (-power))
  | _, _ => .malformed

/-- The double that a text stands for. -/
def readReal (s : Bytes) : RealResult :=
  let (negative, body) := takeSign s
  let word := body.map Byte.toLower
  if word = utf8 "inf" || word = utf8 "infinity" then
    .value (if negative then Float.ofBits 0xFFF0000000000000 else Float.ofBits 0x7FF0000000000000)
  else if s.map Byte.toLower = utf8 "nan" then .value (Float.ofBits 0x7FF8000000000000)
  else if body.contains Byte.underscore && !separatorsOk body then .malformed
  else match body with
    | 48 :: mark :: rest =>
      if Byte.toLower mark = 120 then readHexadecimal negative rest else readDecimal negative body
    | _ => readDecimal negative body

/-- The double that a text stands for, if it is a number in range. -/
def real? (s : Bytes) : Option Float :=
  match readReal s with
  | .value x => some x
  | _ => none

end TinyLisp.Numeral
