/-
Syntax errors.

A text is rejected at one token, for one of three causes.  The message gives the
place, the cause, the token and, where only one thing could have stood there, what
was expected instead.
-/
import TinyLisp.Token.Basic

namespace TinyLisp

/-- Why a text is rejected. -/
inductive SyntaxCause where
  /-- The text ends too early. -/
  | endOfInput
  /-- A token stands where it cannot. -/
  | unexpectedToken
  /-- Something is no token at all. -/
  | invalidToken
  deriving DecidableEq, Repr

/-- A cause in words. -/
def SyntaxCause.message : SyntaxCause → Bytes
  | .endOfInput => utf8 "unexpected end of input"
  | .unexpectedToken => utf8 "unexpected token"
  | .invalidToken => utf8 "invalid token"

/-- The rejection of a text. -/
structure SyntaxError where
  /-- The token at which the text is rejected. -/
  token : Token
  /-- What was expected there; empty if nothing in particular. -/
  expected : Bytes
  /-- Why it is rejected. -/
  cause : SyntaxCause

namespace SyntaxError

/-- A token that cannot stand where it does; the end of the text is a cause of its own. -/
def unexpected (t : Token) (expected : Bytes) : SyntaxError :=
  ⟨t, expected, if t.kind = .endOfInput then .endOfInput else .unexpectedToken⟩

/-- The error in words. -/
def message (e : SyntaxError) : Bytes :=
  e.token.place.render ++ utf8 ": syntax error: " ++ e.cause.message ++ utf8 " " ++
    e.token.describe ++
    (if e.expected.isEmpty then [] else utf8 ", expecting " ++ e.expected)

end SyntaxError

end TinyLisp
