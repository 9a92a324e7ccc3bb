/-
A session at the prompt.

Lines are collected until they make a whole expression, which is then evaluated.
An expression is unfinished exactly if its text is rejected because it ends too
early; any other syntax error is shown and the lines so far are dropped.  A call to
`help` is answered by the session itself.

The prompt reads characters, not bytes: a stray byte arrives as the replacement
character.  A line feed or a carriage return hands the line over, and so does the
end of the input if the line is not empty.  The interrupt key drops the line and
the unfinished expression; where there is neither, it ends the session.
-/
import TinyLisp.Eval.Evaluate
import TinyLisp.Registry.Help

namespace TinyLisp

/-- What the session waits for. -/
inductive Prompt where
  /-- A new expression. -/
  | fresh
  /-- The rest of an expression. -/
  | continued
  deriving DecidableEq, Repr

/-- The state between two lines. -/
structure Session where
  /-- The machine that expressions run on; its output is that of the session. -/
  machine : Machine
  /-- The lines of the unfinished expression. -/
  pending : Bytes

namespace Session

/-- The name under which lines are parsed. -/
def source : Bytes := utf8 "user prompt"

/-- What stands in front of a result. -/
def resultMark : Bytes := [27] ++ utf8 "[31m=" ++ [27] ++ utf8 "[0m "

/-- The name that asks for help. -/
def helpName : Bytes := utf8 "help"

/-- The name that a call to `help` asks about, if the expression is one. -/
def helpRequest? : Value → Option Bytes
  | .list (.symbol head :: args) =>
    if head = helpName then some ((args.head?.map Value.render).getD []) else none
  | _ => none

/-- Writes to the output of a machine, whatever becomes of it. -/
def write (chunk : Bytes) (m : Machine) : Machine := { m with out := (m.out.write chunk).1 }

/-- Shows a computation that crashed, with the calls it was in. -/
def crashLine (message stack : Bytes) : Bytes :=
  (Bytes.words [utf8 "panic:", message, stack]).line

section

-- What the runtime system says of the calls that were open at a crash is not the session's
-- to decide; it may be anything that goes with the machine at that moment.
variable (stack : Machine → Bytes) (i : Interpreter)

/-- Shows help. -/
def showHelp (name : Bytes) (m : Machine) : Machine :=
  let (out, stop) := i.registry.help name m.out
  let m := { m with out := out }
  match stop with
  | none => m
  | some (.failure f) => write f.message.line m
  | some (.crash message) => write (crashLine message (stack m)) m

/-- Evaluates an expression and shows its result. -/
def showResult (expr : Value) (m : Machine) : Machine :=
  match i.eval expr [] m with
  | (.ok v, m) => write v.render.line (write resultMark m)
  | (.error (.failure f), m) => write (utf8 "error: " ++ f.message).line m
  | (.error (.crash message), m) => write (crashLine message (stack m)) m

/-- Carries out an expression. -/
def run (expr : Value) (m : Machine) : Machine :=
  match helpRequest? expr with
  | some name => showHelp stack i name m
  | none => showResult stack i expr m

/-- Takes one line: the session after it, and what it waits for then. -/
def feed (s : Session) (line : Bytes) : Session × Prompt :=
  if s.pending.isEmpty && line.isEmpty then (s, .fresh)
  else
    let text := s.pending ++ line
    match Grammar.read source text with
    | .ok expr => (⟨run stack i expr s.machine, []⟩, .fresh)
    | .error e =>
      if e.cause = .endOfInput then (⟨s.machine, text.line⟩, .continued)
      else (⟨write e.message.line s.machine, []⟩, .fresh)

/-! ### Key by key -/

/-- The end of a line. -/
def isLineEnd (r : Rune) : Bool := r == .char '\n' || r == .char '\r'

/-- The interrupt key. -/
def isInterrupt (r : Rune) : Bool := r == .char '\x03'

/-- Reads keys up to the end of the input.  `typed` holds the characters of the current line. -/
def readKeys (s : Session) (typed : Bytes) : List Rune → Session
  | [] => if typed.isEmpty then s else (feed stack i s typed).1
  | r :: rest =>
    if isLineEnd r then readKeys (feed stack i s typed).1 [] rest
    else if isInterrupt r then
      if s.pending.isEmpty && typed.isEmpty then s else readKeys { s with pending := [] } [] rest
    else readKeys s (typed ++ r.repaired.encode) rest

/-- Runs a whole session on a machine. -/
def readAll (input : Bytes) (m : Machine) : Machine :=
  (readKeys stack i ⟨m, []⟩ [] (Rune.decode input)).machine

end

end Session

end TinyLisp
