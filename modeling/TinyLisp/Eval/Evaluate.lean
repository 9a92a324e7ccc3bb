/-
Evaluation.

Atoms and the empty list stand for themselves; a non-empty list is a call on its
head.  A call evaluates the arguments from left to right and runs the function of
that name.  Whatever does not work as a call is data: a head that is no symbol, a
name without a function, operands that do not fit.  Such a call is returned as the
list it is, with its arguments evaluated only if they were evaluated on the way.

`step` is one level of evaluation, given the evaluation of calls one level deeper;
`evaluate` closes the loop by recursion on the number of levels that are left.  The
machine counts the levels in use, and a fresh evaluation starts with those that are
not.
-/
import TinyLisp.Environment
import TinyLisp.Eval.Machine
import TinyLisp.Grammar.Parser

namespace TinyLisp

/-- The evaluation of a call from its head, its arguments and an environment. -/
abbrev Call := Value → List Value → Env → Action Value

namespace Eval

/-- A call as the list it is. -/
def inert (head : Value) (args : List Value) : Value := .list (head :: args)

/-- A non-empty list is a call, everything else stands for itself. -/
def expression (call : Call) (env : Env) : Value → Action Value
  | .list (head :: args) => call head args env
  | v => pure v

/-- Evaluates expressions from left to right. -/
def sequence (call : Call) (env : Env) : List Value → Action (List Value)
  | [] => pure []
  | v :: rest => do
    let v ← expression call env v
    let vs ← sequence call env rest
    pure (v :: vs)

/-- Runs the procedure of a function. -/
def procedure (call : Call) : Procedure → Action Value
  | .done result => .ofExcept result
  | .print line next => (Action.writeLine line).bind fun err => procedure call (next err)
  | .evaluate expr env next =>
    (expression call env expr).attempt.bind fun outcome => procedure call (next outcome)

/-- The category under which calls are traced. -/
def callCategory : Bytes := utf8 "builtin"

/-- Runs a function on evaluated arguments, unless they do not fit. -/
def invoke (call : Call) (d : Declaration) (body : List Value → Procedure) (head : Value)
    (args : List Value) : Action Value :=
  match d.check? args with
  | some _ => pure (inert head args)
  | none =>
    ((procedure call (body args)).traced d.name callCategory).onMismatch (inert head args)

/-- The special form that binds a name in its body.  The value is inserted unevaluated, and
without a body the only argument is evaluated. -/
def binding (call : Call) (head : Value) (args : List Value) (env : Env) : Action Value :=
  match args with
  | [v] => expression call env v
  | [b, body] =>
    match letBinding? b with
    | some (name, value) =>
      let scope := env.bind name value
      expression call scope (substitute scope body)
    | none => pure (inert head args)
  | _ => pure (inert head args)

/-- The special form that keeps its argument as it is. -/
def quotation (head : Value) : List Value → Action Value
  | [v] => pure v
  | args => pure (inert head args)

/-- The line that announces a call. -/
def announcement (name : Bytes) (args : List Value) : Bytes :=
  Bytes.words [utf8 "Calling", name, utf8 "with", (Value.list args).render]

/-- A call to the operation with a given name. -/
def operation (i : Interpreter) (call : Call) (name : Bytes) : Call := fun head args env =>
  if name = Grammar.quoteName then quotation head args
  else if name = letName then binding call head args env
  else match i.registry.lookup? name with
    | none => pure (inert head args)
    | some d =>
      match d.body? with
      | none => pure (inert head args)
      | some body => do
        let args ← sequence call env args
        invoke call d body head args

/-- One level of evaluation. -/
def step (i : Interpreter) (call : Call) : Call := fun head args env =>
  match head with
  | .symbol name => do
    if i.debug then Action.diagnose (announcement name args)
    operation i call name head args env
  | _ => pure (inert head args)

/-- Evaluates a call with a number of levels left. -/
def evaluate (i : Interpreter) : (levels : Nat) → Call
  | 0 => fun _ _ _ => .fail (.tooDeep i.limit)
  | levels + 1 => fun head args env => (step i (evaluate i levels) head args env).nested

/-- The evaluation of calls with all levels that are not in use. -/
def available (i : Interpreter) : Call := fun head args env m =>
  evaluate i (i.limit - m.depth) head args env m

end Eval

namespace Interpreter

/-- Evaluates an expression in an environment. -/
def eval (i : Interpreter) (expr : Value) (env : Env) : Action Value :=
  Eval.expression (Eval.available i) env expr

/-- Runs a procedure outside of any call. -/
def perform (i : Interpreter) (p : Procedure) : Action Value :=
  Eval.procedure (Eval.available i) p

end Interpreter

end TinyLisp
