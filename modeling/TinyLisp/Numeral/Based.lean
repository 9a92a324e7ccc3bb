/-
Integers in several bases.

Numbers on the command line may announce their base: `0x`, `0o` and `0b` stand for
sixteen, eight and two, and a leading zero alone for eight.  Underscores may
separate digits.  A number that leaves the range of a word is out of range from the
digit on that makes it so, whatever follows.
-/
import TinyLisp.Numeral.Real

namespace TinyLisp.Numeral

/-- Why a text is no word. -/
inductive WordFault where
  /-- It is no number. -/
  | malformed
  /-- It is a number that does not fit. -/
  | outOfRange
  deriving DecidableEq, Repr

/-- A fault in words. -/
def WordFault.message : WordFault → Bytes
  | .malformed => utf8 "parse error"
  | .outOfRange => utf8 "value out of range"

/-- The value of a digit in any base up to thirty-six. -/
def letterDigit? (b : UInt8) : Option Nat :=
  let l := Byte.toLower b
  if Byte.isDigit b then some (Byte.digitValue b)
  else if 97 ≤ l && l ≤ 122 then some (l.toNat - 87)
  else none

/-- The number of words, 2 to the 64th. -/
def wordCount : Nat := 18446744073709551616

/-- Reads digits and underscores after `acc` has been read. -/
def basedFrom (base acc : Nat) : Bytes → Except WordFault Nat
  | [] => .ok acc
  | b :: rest =>
    if b = Byte.underscore then basedFrom base acc rest
    else match letterDigit? b with
      | none => .error .malformed
      | some d =>
        if base ≤ d then .error .malformed
        else if wordCount ≤ acc * base + d then .error .outOfRange
        else basedFrom base (acc * base + d) rest

/-- The base of a number without its sign, and its digits. -/
def announcedBase : Bytes → Nat × Bytes
  | 48 :: mark :: d :: rest =>
    match baseOfMark? mark with
    | some base => (base, d :: rest)
    | none => (8, mark :: d :: rest)
  | 48 :: rest => (8, rest)
  | digits => (10, digits)

/-- The word that a number in any of the bases stands for. -/
def readBased (s : Bytes) : Except WordFault Int :=
  let (negative, body) := takeSign s
  if body.isEmpty then .error .malformed
  else
    let (base, digits) := announcedBase body
    match basedFrom base 0 digits with
    | .error fault => .error fault
    | .ok n =>
      let z : Int := if negative then -(n : Int) else n
      if body.contains Byte.underscore && !separatorsOk body then .error .malformed
      else if Fits z then .ok z
      else .error .outOfRange

end TinyLisp.Numeral
