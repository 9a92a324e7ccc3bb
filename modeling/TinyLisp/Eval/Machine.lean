/-
The state of an interpreter and actions on it.

An interpreter has a registry, a depth limit and a switch for diagnostic lines,
which never change, and a machine, which does: where output goes and how deep the
calls are nested at the moment.

An action runs on a machine and always leaves one behind, also when it stops with a
failure or a crash.  What has been written before a stop therefore stays written.
-/
import TinyLisp.Output.Trace
import TinyLisp.Registry.Basic

namespace TinyLisp

/-- The fixed part of an interpreter. -/
structure Interpreter where
  /-- The functions it knows. -/
  registry : Registry
  /-- How deep calls may be nested. -/
  limit : Nat
  /-- Every call is announced on the diagnostic output. -/
  debug : Bool

/-- The depth limit where none is given. -/
def Interpreter.defaultLimit : Nat := 10000

/-- An interpreter over a registry.  A limit that is not positive means the default. -/
def Interpreter.new (registry : Registry) (limit : Int) (debug : Bool) : Interpreter :=
  ⟨registry, if limit ≤ 0 then defaultLimit else limit.toNat, debug⟩

/-- The changing part of an interpreter. -/
structure Machine where
  /-- Where printed lines go. -/
  out : Sink
  /-- Where diagnostic lines go. -/
  diagnostics : Sink
  /-- Where events go, if they are recorded. -/
  trace? : Option Trace
  /-- How many calls are being evaluated inside each other. -/
  depth : Nat

/-- A machine on which nothing runs. -/
def Machine.idle (out diagnostics : Sink) (trace? : Option Trace) : Machine :=
  ⟨out, diagnostics, trace?, 0⟩

/-- The machine after something was done to its trace, if it has one. -/
def Machine.onTrace (f : Trace → Trace) (m : Machine) : Machine :=
  { m with trace? := m.trace?.map f }

/-- Something that runs on a machine and ends with a result or a stop. -/
def Action (α : Type) := Machine → Except Stop α × Machine

namespace Action

variable {α β : Type}

/-- Ends at once with a result. -/
def pure (a : α) : Action α := fun m => (.ok a, m)

/-- Ends at once without a result. -/
def stop (s : Stop) : Action α := fun m => (.error s, m)

/-- Ends at once with an error. -/
def fail (f : Failure) : Action α := stop (.failure f)

/-- Runs one action and then, if it has a result, another. -/
def bind (x : Action α) (f : α → Action β) : Action β := fun m =>
  match x m with
  | (.ok a, m) => f a m
  | (.error s, m) => (.error s, m)

instance : Monad Action where
  pure := Action.pure
  bind := Action.bind

/-- Ends at once as given. -/
def ofExcept (r : Except Stop α) : Action α := fun m => (r, m)

/-- Writes a line to the output and returns the error, if there is one. -/
def writeLine (line : Bytes) : Action (Option Bytes) := fun m =>
  let (out, err) := m.out.writeLine line
  (.ok err, { m with out := out })

/-- Writes a line to the diagnostic output; an error there is not looked at. -/
def diagnose (line : Bytes) : Action Unit := fun m =>
  (.ok (), { m with diagnostics := (m.diagnostics.writeLine line).1 })

/-- Runs an action one level deeper.  The level is left however the action ends. -/
def nested (x : Action α) : Action α := fun m =>
  let (r, m) := x { m with depth := m.depth + 1 }
  (r, { m with depth := m.depth - 1 })

/-- Runs an action between two events of the trace, if there is one.  The second event is
recorded however the action ends. -/
def traced (name category : Bytes) (x : Action α) : Action α :=
  Trace.duration Machine.onTrace name category x

theorem traced_apply (name category : Bytes) (x : Action α) (m : Machine) :
    x.traced name category m =
      ((x (m.onTrace (·.enter name category))).1,
        (x (m.onTrace (·.enter name category))).2.onTrace (·.leave name category)) :=
  rfl

/-- Runs an action and returns how it ended. -/
def attempt (x : Action α) : Action (Except Stop α) := fun m =>
  let (r, m) := x m
  (.ok r, m)

/-- Runs an action and replaces a mismatch by a result. -/
def onMismatch (x : Action α) (a : α) : Action α := fun m =>
  match x m with
  | (.error (.failure (.mismatch _)), m) => (.ok a, m)
  | r => r

end Action

end TinyLisp
