/-
Evaluating texts.

A text may be meant as one expression or as a program, which is any number of
expressions in a row.  A program stops at the first expression that is rejected or
fails; those before it have been evaluated by then, and their results have been
handed on one by one.
-/
import TinyLisp.Eval.Evaluate

namespace TinyLisp

/-- What a program has delivered when it ends. -/
structure Delivery where
  /-- The results that were handed on, in order. -/
  results : List Value
  /-- How the program ended. -/
  outcome : Except Stop Unit

namespace Interpreter

/-- Evaluates a text that holds exactly one expression. -/
def evalText (i : Interpreter) (source text : Bytes) : Action Value :=
  match Grammar.read source text with
  | .ok expr => i.eval expr []
  | .error e => .fail (.rejected e)

/-- Evaluates groups of tokens one after another.  `each` takes every result with its number,
counted on from `count`, and may end the program. -/
def evalGroups (i : Interpreter) (each : Nat → Value → Action Unit) (count : Nat) :
    List (List Token) → Machine → Delivery × Machine
  | [], m => (⟨[], .ok ()⟩, m)
  | group :: rest, m =>
    match (Grammar.parse group).outcome with
    | .error e => (⟨[], .error (.failure (.rejected e))⟩, m)
    | .ok expr =>
      match i.eval expr [] m with
      | (.error s, m) => (⟨[], .error s⟩, m)
      | (.ok v, m) =>
        match each count v m with
        | (.error s, m) => (⟨[v], .error s⟩, m)
        | (.ok (), m) =>
          let (d, m) := evalGroups i each (count + 1) rest m
          (⟨v :: d.results, d.outcome⟩, m)

/-- Evaluates a program. -/
def evalProgram (i : Interpreter) (source text : Bytes) (each : Nat → Value → Action Unit)
    (m : Machine) : Delivery × Machine :=
  match Token.tokenize source text with
  | .error e => (⟨[], .error (.failure (.rejected e))⟩, m)
  | .ok tokens => i.evalGroups each 0 (Token.groups tokens) m

/-- Hands results on to nobody. -/
def discard : Nat → Value → Action Unit := fun _ _ => pure ()

/-- Writes every result on a line of its own. -/
def report : Nat → Value → Action Unit := fun _ v => do
  match ← Action.writeLine v.render with
  | none => pure ()
  | some err => .fail (.output [] err)

theorem report_apply (count : Nat) (v : Value) (m : Machine) :
    report count v m =
      (match (m.out.writeLine v.render).2 with
        | none => .ok ()
        | some err => .error (.failure (.output [] err)),
        { m with out := (m.out.writeLine v.render).1 }) := by
  simp only [report, Bind.bind, Action.bind, Action.writeLine]
  rcases m.out.writeLine v.render with ⟨out, _ | err⟩ <;> rfl

end Interpreter

end TinyLisp
