/-
Trace files.

A trace is a JSON array of events, in the format that trace viewers load.  The
bracket that opens it is written at once and the one that closes it when the trace
is closed; an event after the first has a separator in front of it, which is a
chunk of its own.

Where an event does not bring its time, the clock is read.  What its readings give
is fixed in advance by their number, as it is for the calls that a sink refuses.

The first error of the file is kept: nothing more is written after it, and closing
reports it.  Closing the file itself may fail too, which is reported if nothing
failed before.
-/
import TinyLisp.Numeral.Integer
import TinyLisp.Output.Sink
import TinyLisp.Text.Quoted

namespace TinyLisp

/-- One event of a trace. -/
structure TraceEvent where
  /-- What the event is about. -/
  name : Bytes
  /-- The categories it can be filtered by. -/
  category : Bytes
  /-- `B` where something begins, `E` where it ends, other letters for other events. -/
  phase : Bytes
  /-- Microseconds since the trace was opened. -/
  time : Int
  /-- The process it belongs to. -/
  process : Int
  /-- The thread it belongs to. -/
  thread : Int

/-- One field of a JSON object. -/
private def jsonField (name : String) (value : Bytes) : Bytes :=
  utf8 "\"" ++ utf8 name ++ utf8 "\":" ++ value

/-- An event as a JSON object. -/
def TraceEvent.render (style : Text.JsonStyle) (e : TraceEvent) : Bytes :=
  let fields := [
    jsonField "name" (Text.jsonString style e.name),
    jsonField "cat" (Text.jsonString style e.category),
    jsonField "ph" (Text.jsonString style e.phase),
    jsonField "ts" (Numeral.signed e.time),
    jsonField "pid" (Numeral.signed e.process),
    jsonField "tid" (Numeral.signed e.thread),
    jsonField "s" (Text.jsonString style (utf8 "g"))]
  utf8 "\x7b" ++ List.intercalate (utf8 ",") fields ++ utf8 "\x7d"

/-- An open trace file. -/
structure Trace where
  /-- The file. -/
  file : Sink
  /-- How texts are encoded. -/
  style : Text.JsonStyle
  /-- Microseconds since the trace was opened, by the number of the reading. -/
  clock : Nat → Int
  /-- The error with which closing the file fails. -/
  closeError? : Option Bytes
  /-- No event has been written yet. -/
  fresh : Bool
  /-- How often the clock was read. -/
  readings : Nat
  /-- The first error. -/
  error? : Option Bytes
  /-- How often the file was closed. -/
  closes : Nat

namespace Trace

/-- Writes a chunk unless an earlier one failed. -/
def write (t : Trace) (chunk : Bytes) : Trace :=
  match t.error? with
  | some _ => t
  | none =>
    let (file, err) := t.file.write chunk
    { t with file := file, error? := err }

/-- Starts a trace in a file. -/
def start (file : Sink) (style : Text.JsonStyle) (clock : Nat → Int)
    (closeError? : Option Bytes) : Trace :=
  write ⟨file, style, clock, closeError?, true, 0, none, 0⟩ (utf8 "[")

/-! ### Events -/

/-- Appends an event. -/
def emit (t : Trace) (e : TraceEvent) : Trace :=
  let separated := if t.fresh then { t with fresh := false } else t.write (utf8 ",\n")
  separated.write (e.render t.style)

/-- Appends an event of the present moment, for a process and a thread. -/
def emitNow (t : Trace) (name category phase : Bytes) (thread process : Int) : Trace :=
  { t with readings := t.readings + 1 }.emit
    ⟨name, category, phase, t.clock t.readings, process, thread⟩

/-- Appends an event of the present moment. -/
def event (t : Trace) (name category phase : Bytes) : Trace := t.emitNow name category phase 0 0

/-- Something begins. -/
def enter (t : Trace) (name category : Bytes) : Trace :=
  t.emitNow name category (utf8 "B") 0 0

/-- Something ends. -/
def leave (t : Trace) (name category : Bytes) : Trace :=
  t.emitNow name category (utf8 "E") 0 0

/-- Does something between an event where it begins and one where it ends.  The trace is part of
the state it is done in, where `onTrace` reaches it. -/
def duration {σ α : Type} (onTrace : (Trace → Trace) → σ → σ) (name category : Bytes)
    (inside : σ → α × σ) (s : σ) : α × σ :=
  let (a, s) := inside (onTrace (·.enter name category) s)
  (a, onTrace (·.leave name category) s)

/-- Closes the trace: the trace after it, and the first error there was. -/
def close (t : Trace) : Trace × Option Bytes :=
  let t := t.write (utf8 "]")
  let t := { t with closes := t.closes + 1, error? := t.error?.or t.closeError? }
  (t, t.error?)

/-! ### Calls -/

/-- A call that appends events. -/
inductive Call where
  /-- An event with everything said about it. -/
  | full (e : TraceEvent)
  /-- An event of the present moment, for a process and a thread. -/
  | now (name category phase : Bytes) (thread process : Int)
  /-- An event of the present moment. -/
  | event (name category phase : Bytes)
  /-- Something that takes a while, with the calls that are made meanwhile. -/
  | duration (name category : Bytes) (inside : List Call)

mutual

/-- Carries out a call. -/
def perform (t : Trace) : Call → Trace
  | .full e => t.emit e
  | .now name category phase thread process => t.emitNow name category phase thread process
  | .event name category phase => t.event name category phase
  | .duration name category inside =>
    (duration id name category (fun t => ((), performAll t inside)) t).2

/-- Carries out calls one after another. -/
def performAll (t : Trace) : List Call → Trace
  | [] => t
  | call :: rest => performAll (t.perform call) rest

end

end Trace

end TinyLisp
