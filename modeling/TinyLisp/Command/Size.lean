/-
One way to write sizes.

The program leaves sizes to a library, and what is said about the program holds for
any.  This is what it gets when it is started.  A size is read as a number with an
optional unit: `k`, `m`, `g`, `t` and `p` are powers of 1024, each with an optional
`b` or `ib` behind it, and `b` alone is a byte.  Everything up to the last digit,
point or space is the number.  In messages a size is written with four significant
digits and a unit of powers of 1000.
-/
import TinyLisp.Numeral.Layout
import TinyLisp.Numeral.Real
import TinyLisp.Text.Lowercase
import TinyLisp.Text.Quoted

namespace TinyLisp.Command.Size

/-! ### Reading -/

/-- A byte that belongs to the number of a size. -/
def isNumberByte (b : UInt8) : Bool := Byte.isDigit b || b = Byte.dot || b = Byte.space

/-- The power of 1024 that the first letter of a unit stands for. -/
def power? : UInt8 → Option Nat
  | 107 => some 1
  | 109 => some 2
  | 103 => some 3
  | 116 => some 4
  | 112 => some 5
  | _ => none

/-- The factor that a unit of small letters stands for. -/
def factor? (unit : Bytes) : Option Nat :=
  if unit.isEmpty || unit = utf8 "b" then some 1
  else match unit with
    | letter :: rest =>
      match power? letter with
      | some power =>
        if rest.isEmpty || rest = utf8 "b" || rest = utf8 "ib" then some (Nat.pow 1024 power) else none
      | none => none
    | [] => none

/-- The number and the unit of a size; a space between them belongs to neither. -/
def split? (s : Bytes) : Option (Bytes × Bytes) :=
  let unit := (s.reverse.takeWhile (!isNumberByte ·)).reverse
  match (s.reverse.dropWhile (!isNumberByte ·)) with
  | [] => none
  | last :: front =>
    if last = Byte.space then some (front.reverse, unit) else some ((last :: front).reverse, unit)

/-- A size that is none. -/
def invalidSize (s : Bytes) : Bytes := utf8 "invalid size: '" ++ s ++ utf8 "'"

/-- A unit that is none. -/
def invalidUnit (unit : Bytes) : Bytes := utf8 "invalid suffix: '" ++ unit ++ utf8 "'"

/-- A number that is none. -/
def invalidNumber (number reason : Bytes) : Bytes :=
  utf8 "strconv.ParseFloat: parsing " ++ Text.quoted number ++ utf8 ": " ++ reason

/-- The number of bytes that a size stands for, or what is wrong with it. -/
def read (s : Bytes) : Except Bytes Int64 :=
  match split? s with
  | none => .error (invalidSize s)
  | some (number, unit) =>
    match Numeral.readReal number with
    | .malformed => .error (invalidNumber number (utf8 "invalid syntax"))
    | .outOfRange => .error (invalidNumber number (utf8 "value out of range"))
    | .value x =>
      if x < 0 then .error (invalidSize s)
      else if unit.length > 3 then .error (invalidUnit unit)
      else
        let lower := Text.lowercase unit
        match factor? lower with
        | some factor => .ok (Numeral.truncate (x * Float.ofNat factor))
        | none => .error (invalidUnit lower)

/-! ### Writing -/

/-- The units of messages, each a thousand times the one before. -/
def units : List String := ["B", "kB", "MB", "GB", "TB", "PB", "EB", "ZB", "YB"]

/-- A size with the first unit that brings it below a thousand, or the last. -/
def writeWith (x : Float) : List String → Bytes
  | [] => []
  | [unit] => Numeral.Layout.size.write x ++ utf8 unit
  | unit :: larger =>
    if x ≥ 1000 then writeWith (x / 1000) larger else Numeral.Layout.size.write x ++ utf8 unit

/-- A number of bytes as messages have it. -/
def write (x : Float) : Bytes := writeWith x units

end TinyLisp.Command.Size
