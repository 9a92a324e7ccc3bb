/-
Characters of a byte string.

`Rune.decode` reads a byte string as UTF-8.  A byte that starts no well-formed
sequence is a rune of its own, so no byte is lost.  Columns count runes, and
quoting chooses an escape for each of them.

A sequence is well formed if its continuation bytes lie in 80–BF, its length is the
least possible for its code point and the code point is no surrogate and at most
10FFFF.  The recursion follows the bytes one by one and skips those of a sequence
already read, so it needs no measure.

White space is meant beyond ASCII here: a title is trimmed of every character that
Unicode calls white space, and a log value that holds one is quoted.  Program texts
know only the four ASCII blanks, which the lexer names itself.
-/
import TinyLisp.Text.Bytes

namespace TinyLisp

/-- One character of a byte string, or one byte that belongs to none. -/
inductive Rune where
  /-- A well-formed character. -/
  | char (c : Char)
  /-- A byte outside every well-formed sequence. -/
  | stray (b : UInt8)
  deriving DecidableEq, Repr

namespace Rune

/-- A continuation byte of a longer sequence. -/
def isTail (b : UInt8) : Bool := 0x80 ≤ b && b ≤ 0xBF

/-- The payload of a continuation byte. -/
def tailBits (b : UInt8) : Nat := b.toNat % 64

/-- The code point of a sequence of two, if it is well formed. -/
def pair? (a b : UInt8) : Option Char :=
  let n := (a.toNat - 0xC0) * 64 + tailBits b
  if 0xC2 ≤ a && a ≤ 0xDF && isTail b then some (Char.ofNat n) else none

/-- The code point of a sequence of three, if it is well formed. -/
def triple? (a b c : UInt8) : Option Char :=
  let n := (a.toNat - 0xE0) * 4096 + tailBits b * 64 + tailBits c
  if 0xE0 ≤ a && a ≤ 0xEF && isTail b && isTail c && 0x800 ≤ n && !(0xD800 ≤ n && n ≤ 0xDFFF) then
    some (Char.ofNat n)
  else none

/-- The code point of a sequence of four, if it is well formed. -/
def quadruple? (a b c d : UInt8) : Option Char :=
  let n := (a.toNat - 0xF0) * 262144 + tailBits b * 4096 + tailBits c * 64 + tailBits d
  if 0xF0 ≤ a && a ≤ 0xF4 && isTail b && isTail c && isTail d && 0x10000 ≤ n && n ≤ 0x10FFFF then
    some (Char.ofNat n)
  else none

/-- The character that `a :: rest` starts with, if it is no ASCII character, and how many
bytes of `rest` belong to it. -/
def longer? (a : UInt8) : Bytes → Option (Char × Nat)
  | [] => none
  | b :: rest =>
    match pair? a b, rest with
    | some ch, _ => some (ch, 1)
    | none, [] => none
    | none, c :: rest =>
      match triple? a b c, rest with
      | some ch, _ => some (ch, 2)
      | none, [] => none
      | none, d :: _ => (quadruple? a b c d).map (·, 3)

/-- The runes of a byte string whose first `skip` bytes belong to a rune already read. -/
def decodeAfter : (skip : Nat) → Bytes → List Rune
  | _, [] => []
  | skip + 1, _ :: rest => decodeAfter skip rest
  | 0, a :: rest =>
    if a < 0x80 then .char (Char.ofNat a.toNat) :: decodeAfter 0 rest
    else match longer? a rest with
      | some (ch, width) => .char ch :: decodeAfter width rest
      | none => .stray a :: decodeAfter 0 rest

/-- The runes of a byte string, from left to right. -/
def decode (s : Bytes) : List Rune := decodeAfter 0 s

/-- The bytes of a rune. -/
def encode : Rune → Bytes
  | .char c => String.utf8EncodeChar c
  | .stray b => [b]

/-- The code point of a rune; a stray byte counts as the replacement character. -/
def code : Rune → Nat
  | .char c => c.toNat
  | .stray _ => 0xFFFD

/-- The rune with a stray byte replaced by the replacement character. -/
def repaired : Rune → Rune
  | .char c => .char c
  | .stray _ => .char (Char.ofNat 0xFFFD)

end Rune

/-- The bytes of a list of runes. -/
def Bytes.ofRunes (runes : List Rune) : Bytes := runes.flatMap Rune.encode

/-! ### White space -/

namespace Text

/-- The character with this code point is white space. -/
def isBlank (code : Nat) : Bool :=
  (0x09 ≤ code && code ≤ 0x0D) || code == 0x20 || code == 0x85 || code == 0xA0 || code == 0x1680 ||
    (0x2000 ≤ code && code ≤ 0x200A) || code == 0x2028 || code == 0x2029 || code == 0x202F ||
    code == 0x205F || code == 0x3000

/-- A rune that is white space; a stray byte is none. -/
def isBlankRune : Rune → Bool
  | .char c => isBlank c.toNat
  | .stray _ => false

/-- The runes without the white space at both ends. -/
def trim (runes : List Rune) : List Rune :=
  ((runes.dropWhile isBlankRune).reverse.dropWhile isBlankRune).reverse

end Text

end TinyLisp
