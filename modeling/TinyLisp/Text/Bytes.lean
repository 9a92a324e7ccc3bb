/-
Texts as byte strings.

A program, the name of a symbol and every line that is printed is a list of
bytes.  Most of them are UTF-8, but nothing forces that: a text read from a file
or from a prompt may hold any bytes, and they are carried through unchanged.  Only
the places that count columns or choose escapes look at characters, and they do it
through `Rune.decode`.
-/

namespace TinyLisp

/-- A text, as the bytes that make it up. -/
abbrev Bytes := List UInt8

/-- The bytes of a text that is spelled out in this library. -/
def utf8 (s : String) : Bytes := s.toUTF8.data.toList

namespace Byte

/-- Line feed, the only byte that ends a line. -/
abbrev lineFeed : UInt8 := 10

/-- Carriage return, blank like a space. -/
abbrev carriageReturn : UInt8 := 13

/-- Horizontal tab. -/
abbrev tab : UInt8 := 9

/-- The space. -/
abbrev space : UInt8 := 32

/-- The double quote, which delimits text literals. -/
abbrev doubleQuote : UInt8 := 34

/-- The number sign, which marks chapter titles in an outline. -/
abbrev hash : UInt8 := 35

/-- The single quote, which quotes a list. -/
abbrev singleQuote : UInt8 := 39

/-- The opening parenthesis. -/
abbrev leftParen : UInt8 := 40

/-- The closing parenthesis. -/
abbrev rightParen : UInt8 := 41

/-- The plus sign. -/
abbrev plus : UInt8 := 43

/-- The minus sign. -/
abbrev minus : UInt8 := 45

/-- The full stop. -/
abbrev dot : UInt8 := 46

/-- The slash between the parts of a path. -/
abbrev slash : UInt8 := 47

/-- The digit zero. -/
abbrev zero : UInt8 := 48

/-- The semicolon, which starts a comment. -/
abbrev semicolon : UInt8 := 59

/-- The equals sign. -/
abbrev equals : UInt8 := 61

/-- The backslash, which starts an escape inside a text literal. -/
abbrev backslash : UInt8 := 92

/-- The underscore. -/
abbrev underscore : UInt8 := 95

/-- The bar between alternatives of a type. -/
abbrev bar : UInt8 := 124

/-- A decimal digit. -/
def isDigit (b : UInt8) : Bool := 48 ≤ b && b ≤ 57

/-- The value of a decimal digit. -/
def digitValue (b : UInt8) : Nat := b.toNat - 48

/-- An ASCII capital is made small; every other byte stays. -/
def toLower (b : UInt8) : UInt8 := if 65 ≤ b && b ≤ 90 then b + 32 else b

/-- The digit of base sixteen that stands for `n`, for `n` below sixteen. -/
def hexDigit (n : Nat) : UInt8 := if n < 10 then UInt8.ofNat (48 + n) else UInt8.ofNat (87 + n)

end Byte

namespace Bytes

/-- The parts of a text between the occurrences of a byte; at least one part. -/
def splitOn (sep : UInt8) : Bytes → List Bytes
  | [] => [[]]
  | b :: rest =>
    if b = sep then [] :: splitOn sep rest
    else match splitOn sep rest with
      | [] => [[b]]
      | part :: parts => (b :: part) :: parts

/-- A text followed by a line feed. -/
def line (s : Bytes) : Bytes := s ++ [Byte.lineFeed]

/-- Several words with one space between them. -/
def words (parts : List Bytes) : Bytes := List.intercalate [Byte.space] parts

end Bytes

end TinyLisp
