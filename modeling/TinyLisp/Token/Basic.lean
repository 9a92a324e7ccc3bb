/-
Tokens.

A token is a lexical unit together with the value it stands for and the place where
it begins.  Two texts describe it: `describe` names it in an error message, and
`display` shows all of it on one line.
-/
import TinyLisp.Text.Quoted
import TinyLisp.Value.Basic

namespace TinyLisp

/-- The place of a character: the name of the text, its line and its column. -/
structure Place where
  /-- The name of the text. -/
  source : Bytes
  /-- The line, counted from one. -/
  line : Int
  /-- The column, counted in characters from one. -/
  column : Int
  deriving DecidableEq, Repr

namespace Place

/-- The place of no text at all. -/
def nowhere : Place := ⟨[], 0, 0⟩

/-- The place where a text begins. -/
def start (source : Bytes) : Place := ⟨source, 1, 1⟩

/-- The place behind one character. -/
def step (p : Place) : Rune → Place
  | .char '\n' => { p with line := p.line + 1, column := 1 }
  | _ => { p with column := p.column + 1 }

/-- The place behind some bytes. -/
def advance (p : Place) (s : Bytes) : Place := (Rune.decode s).foldl step p

/-- A place as messages write it. -/
def render (p : Place) : Bytes :=
  p.source ++ utf8 ":" ++ Numeral.signed p.line ++ utf8 ":" ++ Numeral.signed p.column

end Place

/-- The kinds of lexical units. -/
inductive TokenKind where
  /-- No lexical unit. -/
  | invalid
  /-- An opening parenthesis. -/
  | leftParen
  /-- A closing parenthesis. -/
  | rightParen
  /-- The single quote in front of a list. -/
  | quote
  /-- A symbol. -/
  | symbol
  /-- A number. -/
  | number
  /-- A text literal. -/
  | text
  /-- The literal for true. -/
  | true
  /-- The literal for false. -/
  | false
  /-- The literal for the absent value. -/
  | nil
  /-- The end of the text. -/
  | endOfInput
  deriving DecidableEq, Repr

namespace TokenKind

/-- The kinds in the order of their numbers. -/
def all : List TokenKind :=
  [.invalid, .leftParen, .rightParen, .quote, .symbol, .number, .text, .true, .false, .nil,
    .endOfInput]

/-- The kind with a given number; a number that is not taken names no lexical unit. -/
def ofNumber (n : Nat) : TokenKind := (all[n]?).getD .invalid

/-- The name of a kind in messages. -/
def name : TokenKind → Bytes
  | .invalid => utf8 "invalid"
  | .leftParen => utf8 "("
  | .rightParen => utf8 ")"
  | .quote => utf8 "'"
  | .symbol => utf8 "SYMBOL"
  | .number => utf8 "NUMBER"
  | .text => utf8 "TEXT"
  | .true => utf8 "TRUE"
  | .false => utf8 "FALSE"
  | .nil => utf8 "NIL"
  | .endOfInput => utf8 "EOF"

/-- A token of this kind is an atom on its own. -/
def isAtom : TokenKind → Bool
  | .symbol | .number | .text | .true | .false | .nil => Bool.true
  | _ => Bool.false

end TokenKind

/-- A lexical unit. -/
structure Token where
  /-- What kind of unit it is. -/
  kind : TokenKind
  /-- The bytes it was read from. -/
  lexeme : Bytes
  /-- The value an atom stands for, `nil` for all else. -/
  value : Value
  /-- Where it begins. -/
  place : Place

namespace Token

/-- The end of the text at a given place. -/
def endOfInput (place : Place) : Token := ⟨.endOfInput, [], .nil, place⟩

/-- The token as error messages name it. -/
def describe (t : Token) : Bytes :=
  match t.kind with
  | .endOfInput => utf8 "EOF"
  | .leftParen | .rightParen | .quote => Text.quoted t.lexeme
  | kind => kind.name ++ utf8 " " ++ Text.quoted t.lexeme

/-- The whole token on one line. -/
def display (t : Token) : Bytes :=
  utf8 "(:" ++ t.kind.name ++ utf8 " " ++ Text.quoted t.lexeme ++ utf8 " [" ++
    Numeral.signed t.place.line ++ utf8 " " ++ Numeral.signed t.place.column ++ utf8 "])"

end Token

end TinyLisp
