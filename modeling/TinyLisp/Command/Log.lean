/-
Log lines.

A log line is a level, a message and named values.  A value is quoted if it is
empty or holds anything that would blur where it ends: blanks, an equals sign,
quotes, control characters, stray bytes and whatever is not printable.

A log takes the lines from some level on.  The program logs to its diagnostic
output, between whatever else is written there, but a log may also have an output
of its own.
-/
import TinyLisp.Eval.Machine
import TinyLisp.Text.Quoted

namespace TinyLisp

namespace Log

/-- How important a line is. -/
inductive Level where
  /-- Of interest when looking for a mistake. -/
  | debug
  /-- Of interest when asked for. -/
  | info
  /-- Something is odd. -/
  | warn
  /-- Something failed. -/
  | error
  deriving DecidableEq, Repr

/-- The name of a level. -/
def Level.name : Level → Bytes
  | .debug => utf8 "DEBUG"
  | .info => utf8 "INFO"
  | .warn => utf8 "WARN"
  | .error => utf8 "ERROR"

/-- The rank of a level. -/
def Level.rank : Level → Nat
  | .debug => 0
  | .info => 1
  | .warn => 2
  | .error => 3

/-- A character that makes a value need quotes. -/
def needsQuotes : Rune → Bool
  | .stray _ => true
  | .char c =>
    let code := c.toNat
    if code < 0x80 then code ≤ 0x20 || code = 0x22 || code = 0x3D
    else code = 0xFFFD || Text.isBlank code || !Text.isPrintable code

/-- A value of a log line. -/
def value (s : Bytes) : Bytes :=
  if s.isEmpty || (Rune.decode s).any needsQuotes then Text.quoted s else s

/-- A log line. -/
def line (level : Level) (message : Bytes) (fields : List (String × Bytes)) : Bytes :=
  let named := fields.map fun (name, v) => utf8 name ++ utf8 "=" ++ value v
  (Bytes.words ([utf8 "level=" ++ level.name, utf8 "msg=" ++ value message] ++ named)).line

end Log

/-- Writes a chunk to the diagnostic output, whatever becomes of it. -/
def Machine.complain (m : Machine) (chunk : Bytes) : Machine :=
  { m with diagnostics := (m.diagnostics.write chunk).1 }

/-- A log. -/
structure Log where
  /-- The least important lines it takes. -/
  least : Log.Level
  /-- The output it has for itself; without one it writes to that for diagnostic lines. -/
  own? : Option Sink

/-- Writes a line, if the log takes it: the log after it, and the machine.  An error of the output
is not looked at. -/
def Log.note (log : Log) (level : Log.Level) (message : String) (fields : List (String × Bytes))
    (m : Machine) : Log × Machine :=
  let text := Log.line level (utf8 message) fields
  if level.rank < log.least.rank then (log, m)
  else match log.own? with
    | some sink => ({ log with own? := some (sink.write text).1 }, m)
    | none => (log, m.complain text)

end TinyLisp
