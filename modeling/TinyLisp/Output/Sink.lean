/-
Where output goes.

A sink takes chunks of bytes, one per call, and may refuse a call with an error, in
which case nothing of the chunk is kept.  Which calls it refuses is fixed in advance
by their number, so that a run against a failing sink is as definite as one against
a good sink, and what is said of failures can be said for every such policy.
-/
import TinyLisp.Text.Bytes

namespace TinyLisp

/-- A place that chunks of output are written to. -/
structure Sink where
  /-- The error with which the call of a given number is refused. -/
  refuses : Nat → Option Bytes
  /-- How many calls there have been. -/
  calls : Nat
  /-- The chunks that were taken, the last one first. -/
  taken : List Bytes

namespace Sink

/-- The chunks that were taken, in order. -/
def chunks (s : Sink) : List Bytes := s.taken.reverse

/-- A sink that never fails. -/
def reliable : Sink := ⟨fun _ => none, 0, []⟩

/-- The error of a sink whose reader has gone. -/
def brokenPipe : Bytes := utf8 "broken pipe"

/-- A sink that takes `n` calls and refuses every later one. -/
def failingAfter (n : Nat) : Sink :=
  ⟨fun call => if call < n then none else some brokenPipe, 0, []⟩

/-- Writes one chunk: the sink after the call, and the error if it was refused. -/
def write (s : Sink) (chunk : Bytes) : Sink × Option Bytes :=
  match s.refuses s.calls with
  | some err => ({ s with calls := s.calls + 1 }, some err)
  | none => ({ s with calls := s.calls + 1, taken := chunk :: s.taken }, none)

/-- Writes one line. -/
def writeLine (s : Sink) (line : Bytes) : Sink × Option Bytes := s.write line.line

/-- Writes several chunks whatever becomes of each, and returns the last one's error. -/
def writeAll (s : Sink) (chunks : List Bytes) : Sink × Option Bytes :=
  chunks.foldl (fun (s, _) chunk => s.write chunk) (s, none)

/-- Everything that was taken. -/
def output (s : Sink) : Bytes := s.chunks.flatten

/-- The same sink with what was taken so far handed on. -/
def drained (s : Sink) : Sink := { s with taken := [] }

end Sink

end TinyLisp
