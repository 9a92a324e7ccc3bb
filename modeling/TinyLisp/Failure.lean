/-
How an operation fails.

A failure is an error that the language reports.  A mismatch is special: the
operands do not fit the operation, and evaluation then leaves the call as data
instead of reporting anything.  A crash is not a failure but the end of the whole
call; only functions that a host adds, and a registry misused by it, can crash.
-/
import TinyLisp.Token.SyntaxError

namespace TinyLisp

/-- The operands do not fit an operation. -/
structure Mismatch where
  /-- The operation. -/
  op : Bytes
  /-- What does not fit. -/
  reason : Bytes
  deriving DecidableEq, Repr

/-- A mismatch in words. -/
def Mismatch.message (m : Mismatch) : Bytes := m.op ++ utf8 ": " ++ m.reason

/-- An error that is reported. -/
inductive Failure where
  /-- A text that is no expression. -/
  | rejected (e : SyntaxError)
  /-- Operands that do not fit. -/
  | mismatch (m : Mismatch)
  /-- A mismatch inside some other error, which is no mismatch any more. -/
  | wrapped (context : Bytes) (m : Mismatch)
  /-- Calls nested deeper than allowed. -/
  | tooDeep (limit : Nat)
  /-- Output that could not be written, with what was being done. -/
  | output (context : Bytes) (error : Bytes)
  /-- Any other error. -/
  | other (message : Bytes)

/-- A failure in words. -/
def Failure.message : Failure → Bytes
  | .rejected e => e.message
  | .mismatch m => m.message
  | .wrapped context m => context ++ utf8 ": " ++ m.message
  | .tooDeep limit =>
    utf8 "maximum evaluation depth exceeded (" ++ Numeral.decimal limit ++ utf8 ")"
  | .output context error => context ++ error
  | .other message => message

/-- Why an operation ends without a result. -/
inductive Stop where
  /-- It reports an error. -/
  | failure (f : Failure)
  /-- It crashes with a message. -/
  | crash (message : Bytes)

namespace Stop

/-- A stop in words. -/
def message : Stop → Bytes
  | .failure f => f.message
  | .crash message => message

/-- A crash on an element that a sequence of arguments does not have. -/
def outOfRange (index length : Nat) : Stop :=
  .crash (utf8 "runtime error: index out of range [" ++ Numeral.decimal index ++
    utf8 "] with length " ++ Numeral.decimal length)

/-- A crash on the elements of a value that is no list. -/
def notList : Stop := .crash (utf8 "not slice")

/-- A crash on a division of words by zero. -/
def divisionByZero : Stop := .crash (utf8 "runtime error: integer divide by zero")

end Stop

end TinyLisp
