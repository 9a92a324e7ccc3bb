/-
What a builtin function does.

A procedure is the behaviour of a function once its arguments are known: it ends
with a result, prints a line and goes on with what became of it, or has an
expression evaluated in some environment and goes on with how that ended.

These are the functions that a host may add here: what one does depends on its
arguments and on what it is told while it runs, and it ends, be it with a value, an
error or a crash.  Left out are functions that keep a state of their own from one
call to the next, look at anything outside the evaluation such as a clock, change
the arguments they are given, or never come back.

A crash inside an evaluation that a function asked for is told to it like any other
ending; `eval` is the usual way, where it passes through.
-/
import TinyLisp.Environment
import TinyLisp.Failure

namespace TinyLisp

/-- The behaviour of a function on given arguments. -/
inductive Procedure where
  /-- It ends. -/
  | done (result : Except Stop Value)
  /-- It prints a line and goes on with the error, if there was one. -/
  | print (line : Bytes) (next : Option Bytes → Procedure)
  /-- It evaluates an expression in an environment and goes on with the outcome. -/
  | evaluate (expr : Value) (env : Env) (next : Except Stop Value → Procedure)

namespace Procedure

/-- It ends with a value. -/
def value (v : Value) : Procedure := .done (.ok v)

/-- It ends with an error. -/
def fail (f : Failure) : Procedure := .done (.error (.failure f))

/-- It crashes. -/
def crash (s : Stop) : Procedure := .done (.error s)

/-- It evaluates an expression in the empty environment and goes on with the outcome, unless
that is a crash. -/
def eval (expr : Value) (next : Except Failure Value → Procedure) : Procedure :=
  .evaluate expr [] fun
    | .ok v => next (.ok v)
    | .error (.failure f) => next (.error f)
    | .error (.crash message) => crash (.crash message)

/-- A function that looks at its first argument only. -/
def unary (f : Value → Procedure) : List Value → Procedure
  | a :: _ => f a
  | [] => crash (.outOfRange 0 0)

/-- A function that looks at its first two arguments only. -/
def binary (f : Value → Value → Procedure) : List Value → Procedure
  | a :: b :: _ => f a b
  | [_] => crash (.outOfRange 1 1)
  | [] => crash (.outOfRange 0 0)

/-- Goes on with the elements of a list. -/
def withItems (v : Value) (f : List Value → Procedure) : Procedure :=
  match v with
  | .list items => f items
  | _ => crash .notList

end Procedure

end TinyLisp
