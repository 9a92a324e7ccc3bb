/-
Quoted texts.

`quoted s` puts a text between double quotes so that it stays on one line and every
character can be told apart.  Printable characters stand for themselves, the usual
control characters have their letter, and everything else is written by its number:
two digits of base sixteen for a byte, four or eight for a character.

`jsonString s` is the form that trace files hold.  Besides the escapes that JSON
demands, the characters that could end a script element or a line of a script are
written by their number, so that a trace can be embedded in a web page.
-/
import TinyLisp.Text.Printable
import TinyLisp.Text.Rune

namespace TinyLisp.Text

/-- `n` in base sixteen, filled with zeros on the left to `width` digits. -/
def hexNumber (width n : Nat) : Bytes :=
  (List.range width).reverse.map fun i => Byte.hexDigit (n / Nat.pow 16 i % 16)

/-- The letter that stands for a control character after a backslash. -/
def controlLetter? : Nat → Option UInt8
  | 0x07 => some 97
  | 0x08 => some 98
  | 0x0C => some 102
  | 0x0A => some 110
  | 0x0D => some 114
  | 0x09 => some 116
  | 0x0B => some 118
  | _ => none

/-- One rune of a quoted text. -/
def escape : Rune → Bytes
  | .stray b => utf8 "\\x" ++ hexNumber 2 b.toNat
  | .char c =>
    let code := c.toNat
    if code = 0x22 || code = 0x5C then [Byte.backslash, UInt8.ofNat code]
    else if isPrintable code then (Rune.char c).encode
    else match controlLetter? code with
      | some letter => [Byte.backslash, letter]
      | none =>
        if code < 0x20 || code = 0x7F then utf8 "\\x" ++ hexNumber 2 code
        else if code < 0x10000 then utf8 "\\u" ++ hexNumber 4 code
        else utf8 "\\U" ++ hexNumber 8 code

/-- A text between double quotes, with escapes. -/
def quoted (s : Bytes) : Bytes :=
  [Byte.doubleQuote] ++ (Rune.decode s).flatMap escape ++ [Byte.doubleQuote]

/-! ### JSON -/

/-- What releases of the encoder do differently. -/
structure JsonStyle where
  /-- Backspace and form feed have a letter, as other control characters do. -/
  lettersAll : Bool
  /-- A stray byte becomes the escape of the replacement character, not the character itself. -/
  escapesStray : Bool

/-- The letter that stands for a control character in a JSON string. -/
def jsonLetter? (style : JsonStyle) : Nat → Option UInt8
  | 0x08 => if style.lettersAll then some 98 else none
  | 0x0C => if style.lettersAll then some 102 else none
  | 0x0A => some 110
  | 0x0D => some 114
  | 0x09 => some 116
  | _ => none

/-- A character that a script would take for more than text. -/
def isMarkup (code : Nat) : Bool :=
  code == 0x3C || code == 0x3E || code == 0x26 || code == 0x2028 || code == 0x2029

/-- One rune of a JSON string. -/
def jsonEscape (style : JsonStyle) : Rune → Bytes
  | .stray b =>
    if style.escapesStray then utf8 "\\u" ++ hexNumber 4 (Rune.stray b).code
    else (Rune.stray b).repaired.encode
  | .char c =>
    let code := c.toNat
    if code = 0x22 || code = 0x5C then [Byte.backslash, UInt8.ofNat code]
    else match jsonLetter? style code with
      | some letter => [Byte.backslash, letter]
      | none =>
        if code < 0x20 || isMarkup code then utf8 "\\u" ++ hexNumber 4 code
        else (Rune.char c).encode

/-- A text as a JSON string. -/
def jsonString (style : JsonStyle) (s : Bytes) : Bytes :=
  [Byte.doubleQuote] ++ (Rune.decode s).flatMap (jsonEscape style) ++ [Byte.doubleQuote]

end TinyLisp.Text
