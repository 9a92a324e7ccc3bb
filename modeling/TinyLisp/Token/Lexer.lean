/-
From pieces to tokens.

Blanks and comments vanish, every other piece is one token, and the end of the text
is the last token.  A token's place is found by walking over the bytes of the
pieces before it.

A word is a constant, a number or a symbol.  Only a word that begins like a number
is read as one, so `inf` and `-` are symbols; a number too large for a word is read
as a double, and one too large for a double is a symbol again.
-/
import TinyLisp.Token.Piece
import TinyLisp.Token.SyntaxError

namespace TinyLisp

/-! ### Literals and words -/

/-- The byte that an escaped byte stands for. -/
def Piece.escaped? (b : UInt8) : Option UInt8 :=
  if b = Byte.doubleQuote then some Byte.doubleQuote
  else if b = Byte.backslash then some Byte.backslash
  else if b = 110 then some Byte.lineFeed
  else if b = 114 then some Byte.carriageReturn
  else if b = 116 then some Byte.tab
  else none

/-- The text that the body of a literal stands for.  A backslash in front of anything that
needs no escape is kept with it. -/
def Piece.unescape : Bytes → Bytes
  | [] => []
  | [b] => [b]
  | b :: c :: rest =>
    if b = Byte.backslash then
      match Piece.escaped? c with
      | some d => d :: unescape rest
      | none => b :: c :: unescape rest
    else b :: unescape (c :: rest)

/-- A word that begins like a number: a sign, a point and a digit, the first two optional. -/
def Piece.looksNumeric (word : Bytes) : Bool :=
  let unsigned := (Numeral.takeSign word).2
  let digits := match unsigned with
    | b :: c :: rest => if b = Byte.dot then c :: rest else unsigned
    | short => short
  match digits with
  | b :: _ => Byte.isDigit b
  | [] => false

/-- The number that a word stands for: an integer if it fits, else a double. -/
def Piece.number? (word : Bytes) : Option Value :=
  if Piece.looksNumeric word then
    match Numeral.integer? word with
    | some n => some (.int n)
    | none => (Numeral.real? word).map .float
  else none

/-- The kind and the value of a word. -/
def Piece.classify (word : Bytes) : TokenKind × Value :=
  if word = utf8 "#t" || word = utf8 "true" then (.true, .bool true)
  else if word = utf8 "#f" || word = utf8 "false" then (.false, .bool false)
  else if word = utf8 "nil" then (.nil, .nil)
  else match Piece.number? word with
    | some v => (.number, v)
    | none => (.symbol, .symbol word)

/-! ### Tokens -/

/-- The kind and the value of the token that a piece makes, if it makes one. -/
def Piece.meaning? : Piece → Option (TokenKind × Value)
  | .blank _ => none
  | .comment _ => none
  | .leftParen => some (.leftParen, .nil)
  | .rightParen => some (.rightParen, .nil)
  | .quote => some (.quote, .nil)
  | .literal body => some (.text, .text (Piece.unescape body))
  | .word w => some (Piece.classify w)

namespace Token

/-- The token of a piece that begins at a place. -/
def ofPiece? (place : Place) (p : Piece) : Option Token :=
  p.meaning?.map fun (kind, value) => ⟨kind, p.bytes, value, place⟩

/-- The tokens of pieces that begin at a place, and the end of the text. -/
def ofPieces (place : Place) : List Piece → List Token
  | [] => [endOfInput place]
  | p :: rest =>
    match ofPiece? place p with
    | some t => t :: ofPieces (place.advance p.bytes) rest
    | none => ofPieces (place.advance p.bytes) rest

/-- A literal that is never closed. -/
def openLiteral (place : Place) (tail : Bytes) : SyntaxError :=
  ⟨⟨.invalid, tail, .nil, place⟩, utf8 "closing \"", .endOfInput⟩

/-- The tokens of a text, the last of them its end. -/
def tokenize (source text : Bytes) : Except SyntaxError (List Token) :=
  let (pieces, tail) := Piece.scan text
  if tail.isEmpty then .ok (ofPieces (.start source) pieces)
  else .error (openLiteral ((Place.start source).advance (pieces.flatMap Piece.bytes)) tail)

/-! ### Top-level groups

A file or a command holds several expressions in a row.  They are told apart by
counting parentheses: a group ends with the token that brings the count back to
zero, and a quote belongs to what follows it.  A parenthesis too many ends a group
as well, and an unbalanced tail is the last group, so that parsing it reports the
error.  Every group gets an end of its own, placed at the token that follows it. -/

/-- The end of a group in front of the given token. -/
def groupEnd (next : Option Token) : Token :=
  endOfInput ((next.map place).getD .nowhere)

/-- The count of open parentheses behind a token. -/
def nesting (depth : Nat) (t : Token) : Nat :=
  match t.kind with
  | .leftParen => depth + 1
  | .rightParen => depth - 1
  | _ => depth

/-- The groups of the tokens up to the first end of the text.  `depth` parentheses are open
and `held` has the tokens of the current group so far, the last one first. -/
def groupsFrom (depth : Nat) (held : List Token) : List Token → List (List Token)
  | [] => if held.isEmpty then [] else [(groupEnd none :: held).reverse]
  | t :: rest =>
    if t.kind = .endOfInput then
      if held.isEmpty then [] else [(groupEnd (some t) :: held).reverse]
    else if t.kind = .quote || nesting depth t ≠ 0 then
      groupsFrom (nesting depth t) (t :: held) rest
    else (groupEnd rest.head? :: t :: held).reverse :: groupsFrom 0 [] rest

/-- The top-level groups of a token stream, each with an end of its own. -/
def groups (tokens : List Token) : List (List Token) := groupsFrom 0 [] tokens

end Token

end TinyLisp
