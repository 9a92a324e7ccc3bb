/-
What can be asked of an interpreter.

There are three requests: an expression, a text that holds one, and a program whose
results are handed on one by one.  Each is served by runs on the machine, one after
another, and what comes next depends on how the one before ended.  A property of runs
that is kept in a row therefore holds of every request as soon as it holds of
evaluating an expression and of performing a procedure; `serve_kept` is that step.

A receiver of results is a procedure, like a function of the registry: it may print,
evaluate on the same interpreter, fail and crash.
-/
import TinyLisp.Eval.Program

namespace TinyLisp

/-! ### Runs in a row -/

namespace Machine

/-- One run after another, whatever the first one ended with. -/
def andThen {β γ : Type} (x : Machine → β × Machine) (k : β → Machine → γ × Machine) :
    Machine → γ × Machine :=
  fun m => k (x m).1 (x m).2

/-- A property of runs that holds where nothing is done and is kept in a row. -/
structure KeptInRow (P : (β : Type) → (Machine → β × Machine) → Prop) : Prop where
  nothing : ∀ {β : Type} (r : β), P β fun m => (r, m)
  andThen : ∀ {β γ : Type} {x : Machine → β × Machine} {k : β → Machine → γ × Machine},
    P β x → (∀ r, P γ (k r)) → P γ (andThen x k)

end Machine

open Machine

theorem Action.bind_eq {α β : Type} (x : Action α) (f : α → Action β) :
    x.bind f = andThen x fun
      | .ok a => f a
      | .error s => fun m => (.error s, m) := by
  funext m
  unfold Action.bind andThen
  rcases x m with ⟨_ | a, m₁⟩
  · rfl
  · rfl

section

variable {P : (β : Type) → (Machine → β × Machine) → Prop}

theorem Machine.KeptInRow.bind (hP : KeptInRow P) {α β : Type} {x : Action α}
    {f : α → Action β} (hx : P (Except Stop α) x) (hf : ∀ a, P (Except Stop β) (f a)) :
    P (Except Stop β) (x.bind f) := by
  rw [Action.bind_eq]
  refine hP.andThen hx ?_
  intro r
  cases r with
  | ok a => exact hf a
  | error s => exact hP.nothing _

end

/-! ### Programs -/

namespace Interpreter

variable (i : Interpreter)

/-- A group that is an expression: it is evaluated, the value is handed on, and the rest of the
program follows. -/
theorem evalGroups_cons {group : List Token} {expr : Value}
    (hp : (Grammar.parse group).outcome = .ok expr) (each : Nat → Value → Action Unit)
    (count : Nat) (rest : List (List Token)) :
    i.evalGroups each count (group :: rest) =
      andThen (i.eval expr []) fun
        | .error s => fun m => (⟨[], .error s⟩, m)
        | .ok v => andThen (each count v) fun
          | .error s => fun m => (⟨[v], .error s⟩, m)
          | .ok () => andThen (i.evalGroups each (count + 1) rest) fun d m =>
              (⟨v :: d.results, d.outcome⟩, m) := by
  funext m
  simp only [evalGroups, hp, andThen]
  rcases i.eval expr [] m with ⟨_ | v, m₁⟩
  · rfl
  · simp only [andThen]
    rcases each count v m₁ with ⟨_ | u, m₂⟩
    · rfl
    · rfl

theorem evalGroups_cons_error {group : List Token} {e : SyntaxError}
    (hp : (Grammar.parse group).outcome = .error e) (each : Nat → Value → Action Unit)
    (count : Nat) (rest : List (List Token)) :
    i.evalGroups each count (group :: rest) =
      fun m => (⟨[], .error (.failure (.rejected e))⟩, m) := by
  funext m
  rw [evalGroups, hp]

theorem evalProgram_ok {source text : Bytes} {tokens : List Token}
    (ht : Token.tokenize source text = .ok tokens) (each : Nat → Value → Action Unit) :
    i.evalProgram source text each = i.evalGroups each 0 (Token.groups tokens) := by
  funext m
  rw [evalProgram, ht]

theorem evalProgram_error {source text : Bytes} {e : SyntaxError}
    (ht : Token.tokenize source text = .error e) (each : Nat → Value → Action Unit) :
    i.evalProgram source text each = fun m => (⟨[], .error (.failure (.rejected e))⟩, m) := by
  funext m
  rw [evalProgram, ht]

section

variable {P : (β : Type) → (Machine → β × Machine) → Prop} {i}

theorem evalGroups_kept (hP : KeptInRow P) (heval : ∀ expr env, P _ (i.eval expr env))
    {each : Nat → Value → Action Unit} (heach : ∀ n v, P _ (each n v))
    (groups : List (List Token)) : ∀ count, P _ (i.evalGroups each count groups) := by
  induction groups with
  | nil =>
      intro count
      exact hP.nothing _
  | cons group rest ih =>
      intro count
      cases hp : (Grammar.parse group).outcome with
      | error e =>
          rw [i.evalGroups_cons_error hp]
          exact hP.nothing _
      | ok expr =>
          rw [i.evalGroups_cons hp]
          refine hP.andThen (heval expr []) ?_
          intro r
          cases r with
          | error s => exact hP.nothing _
          | ok v =>
              refine hP.andThen (heach count v) ?_
              intro u
              cases u with
              | error s => exact hP.nothing _
              | ok u => exact hP.andThen (ih (count + 1)) fun _ => hP.nothing _

theorem evalProgram_kept (hP : KeptInRow P) (heval : ∀ expr env, P _ (i.eval expr env))
    {each : Nat → Value → Action Unit} (heach : ∀ n v, P _ (each n v))
    (source text : Bytes) : P _ (i.evalProgram source text each) := by
  cases ht : Token.tokenize source text with
  | error e =>
      rw [i.evalProgram_error ht]
      exact hP.nothing _
  | ok tokens =>
      rw [i.evalProgram_ok ht]
      exact evalGroups_kept hP heval heach _ 0

end

/-! ### Requests -/

/-- Hands every result on to a procedure, which may end the program. -/
def handing (each : Nat → Value → Procedure) : Nat → Value → Action Unit := fun n v =>
  (i.perform (each n v)).bind fun _ => Action.pure ()

end Interpreter

/-- What can be asked of an interpreter. -/
inductive Request where
  /-- The value of an expression in an environment. -/
  | expression (expr : Value) (env : Env)
  /-- The value of a text that holds one expression. -/
  | text (source text : Bytes)
  /-- The values of a program, each of them handed on. -/
  | program (source text : Bytes) (each : Nat → Value → Procedure)

/-- How a request ends. -/
inductive Answer where
  /-- With a value, an error or a crash. -/
  | value (outcome : Except Stop Value)
  /-- As a program does. -/
  | delivery (delivery : Delivery)

namespace Interpreter

variable (i : Interpreter)

/-- Serves a request.  A crash is an answer like any other, and the machine goes on. -/
def serve : Request → Machine → Answer × Machine
  | .expression expr env => andThen (i.eval expr env) fun r m => (.value r, m)
  | .text source text => andThen (i.evalText source text) fun r m => (.value r, m)
  | .program source text each =>
    andThen (i.evalProgram source text (i.handing each)) fun r m => (.delivery r, m)

/-- The machine after some requests in a row. -/
def serveAll (requests : List Request) (m : Machine) : Machine :=
  requests.foldl (fun m r => (i.serve r m).2) m

section

variable {P : (β : Type) → (Machine → β × Machine) → Prop} {i}

theorem handing_kept (hP : KeptInRow P) (hperform : ∀ p, P _ (i.perform p))
    (each : Nat → Value → Procedure) (n : Nat) (v : Value) : P _ (i.handing each n v) :=
  hP.bind (hperform (each n v)) fun _ => hP.nothing _

/-- **What holds of expressions and procedures and is kept in a row holds of every request.** -/
theorem serve_kept (hP : KeptInRow P) (heval : ∀ expr env, P _ (i.eval expr env))
    (hperform : ∀ p, P _ (i.perform p)) (r : Request) : P _ (i.serve r) := by
  cases r with
  | expression expr env => exact hP.andThen (heval expr env) fun _ => hP.nothing _
  | text source text =>
      refine hP.andThen ?_ fun _ => hP.nothing _
      unfold evalText
      split
      · exact heval _ []
      · exact hP.nothing _
  | program source text each =>
      refine hP.andThen ?_ fun _ => hP.nothing _
      exact evalProgram_kept hP heval (handing_kept hP hperform each) source text

end

end Interpreter

end TinyLisp
