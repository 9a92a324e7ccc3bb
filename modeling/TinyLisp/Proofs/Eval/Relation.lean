/-
Relations that evaluation keeps.

Evaluation is put together from a handful of actions: ending at once, one action
after another, a line that is written, an ending that is looked at, a call that is
traced.  A relation of actions that each of these keeps is kept by one level of
evaluation as a whole, whatever the functions of the registry do, if the calls one
level deeper are related and the announcement of the call is.  This file walks over a
level once, so that a statement about all levels only has to say what its own
relation makes of the handful, and what entering a level does to it.

The two sides may belong to two interpreters that know the same functions.  Nothing
is asked of the functions: what they print, evaluate and end with is a tree, and the
relation goes along it.
-/
import TinyLisp.Eval.Evaluate

namespace TinyLisp

open TinyLisp.Action

/-- A relation of actions that is kept by everything evaluation is made of. -/
structure ActionRelation (R : (α : Type) → Action α → Action α → Prop) : Prop where
  ofExcept : ∀ {α : Type} (r : Except Stop α), R α (ofExcept r) (ofExcept r)
  bind : ∀ {α β : Type} {x y : Action α} {f g : α → Action β},
    R α x y → (∀ a, R β (f a) (g a)) → R β (x.bind f) (y.bind g)
  writeLine : ∀ line, R (Option Bytes) (writeLine line) (writeLine line)
  attempt : ∀ {α : Type} {x y : Action α}, R α x y → R (Except Stop α) x.attempt y.attempt
  traced : ∀ {α : Type} {x y : Action α} (name category : Bytes),
    R α x y → R α (x.traced name category) (y.traced name category)

namespace Action

/-- What `onMismatch` makes of an ending. -/
def unlessMismatch {α : Type} (a : α) : Except Stop α → Action α
  | .error (.failure (.mismatch _)) => ofExcept (.ok a)
  | r => ofExcept r

theorem onMismatch_eq {α : Type} (x : Action α) (a : α) :
    x.onMismatch a = x.attempt.bind (unlessMismatch a) := by
  funext m
  unfold onMismatch Action.bind attempt
  rcases x m with ⟨_ | v, m'⟩
  · rename_i s
    cases s with
    | failure f => cases f <;> rfl
    | crash message => rfl
  · rfl

theorem unlessMismatch_cases {α : Type} (a : α) (r : Except Stop α) :
    ∃ r', unlessMismatch a r = ofExcept r' := by
  unfold unlessMismatch
  split
  · exact ⟨_, rfl⟩
  · exact ⟨_, rfl⟩

end Action

namespace Eval

/-- The line in front of a call, if calls are announced. -/
def announce (i : Interpreter) (name : Bytes) (args : List Value) : Action Unit :=
  if i.debug then diagnose (announcement name args) else ofExcept (.ok ())

theorem step_symbol (i : Interpreter) (call : Call) (name : Bytes) (args : List Value)
    (env : Env) :
    step i call (.symbol name) args env
      = (announce i name args).bind fun _ => operation i call name (.symbol name) args env := by
  unfold step announce
  cases i.debug with
  | true => rfl
  | false => rfl

section

variable {R : (α : Type) → Action α → Action α → Prop} {call call' : Call}

theorem related_pure (hR : ActionRelation R) {α : Type} (a : α) :
    R α (Pure.pure a) (Pure.pure a) :=
  hR.ofExcept (.ok a)

theorem related_onMismatch (hR : ActionRelation R) {α : Type} {x y : Action α}
    (h : R α x y) (a : α) : R α (x.onMismatch a) (y.onMismatch a) := by
  rw [onMismatch_eq, onMismatch_eq]
  refine hR.bind (hR.attempt h) ?_
  intro r
  obtain ⟨r', hr⟩ := unlessMismatch_cases a r
  rw [hr]
  exact hR.ofExcept r'

/-- The calls of both sides are related, whatever is called. -/
def CallsRelated (R : (α : Type) → Action α → Action α → Prop) (call call' : Call) : Prop :=
  ∀ head args env, R Value (call head args env) (call' head args env)

theorem expression_related (hR : ActionRelation R) (hc : CallsRelated R call call') (env : Env)
    (v : Value) : R Value (expression call env v) (expression call' env v) := by
  unfold expression
  split
  · rename_i head args
    exact hc head args env
  · exact related_pure hR v

theorem sequence_related (hR : ActionRelation R) (hc : CallsRelated R call call') (env : Env)
    (args : List Value) :
    R (List Value) (sequence call env args) (sequence call' env args) := by
  induction args with
  | nil => exact related_pure hR []
  | cons v rest ih =>
      refine hR.bind (expression_related hR hc env v) ?_
      intro v
      refine hR.bind ih ?_
      intro vs
      exact related_pure hR (v :: vs)

theorem procedure_related (hR : ActionRelation R) (hc : CallsRelated R call call')
    (p : Procedure) : R Value (procedure call p) (procedure call' p) := by
  induction p with
  | done result => exact hR.ofExcept result
  | print line next ih => exact hR.bind (hR.writeLine line) ih
  | evaluate expr env next ih =>
      exact hR.bind (hR.attempt (expression_related hR hc env expr)) ih

theorem invoke_related (hR : ActionRelation R) (hc : CallsRelated R call call')
    (d : Declaration) (body : List Value → Procedure) (head : Value) (args : List Value) :
    R Value (invoke call d body head args) (invoke call' d body head args) := by
  unfold invoke
  split
  · exact related_pure hR _
  · exact related_onMismatch hR (hR.traced _ _ (procedure_related hR hc (body args))) _

theorem binding_related (hR : ActionRelation R) (hc : CallsRelated R call call')
    (head : Value) (args : List Value) (env : Env) :
    R Value (binding call head args env) (binding call' head args env) := by
  unfold binding
  split
  · exact expression_related hR hc env _
  · split
    · exact expression_related hR hc _ _
    · exact related_pure hR _
  · exact related_pure hR _

theorem quotation_related (hR : ActionRelation R) (head : Value) (args : List Value) :
    R Value (quotation head args) (quotation head args) := by
  unfold quotation
  split
  · exact related_pure hR _
  · exact related_pure hR _

theorem operation_related {i i' : Interpreter} (hR : ActionRelation R)
    (hi : i'.registry = i.registry) (hc : CallsRelated R call call') (name : Bytes)
    (head : Value) (args : List Value) (env : Env) :
    R Value (operation i call name head args env) (operation i' call' name head args env) := by
  unfold operation
  rw [hi]
  split
  · exact quotation_related hR head args
  · split
    · exact binding_related hR hc head args env
    · split
      · exact related_pure hR _
      · split
        · exact related_pure hR _
        · refine hR.bind (sequence_related hR hc env args) ?_
          intro vs
          exact invoke_related hR hc _ _ head vs

/-- **One level of evaluation keeps a relation that everything it is made of keeps.** -/
theorem step_related {i i' : Interpreter} (hR : ActionRelation R)
    (hi : i'.registry = i.registry)
    (ha : ∀ name args, R Unit (announce i name args) (announce i' name args))
    (hc : CallsRelated R call call') : CallsRelated R (step i call) (step i' call') := by
  intro head args env
  cases head with
  | symbol name =>
      rw [step_symbol, step_symbol]
      refine hR.bind (ha name args) ?_
      intro _
      exact operation_related hR hi hc name _ args env
  | _ => exact related_pure hR _

end

end Eval

/-! ### Two functions of a host

What is said of all registries is tried on one that knows these two. -/

namespace Registry

/-- It has its argument evaluated once more. -/
def again : Declaration where
  name := utf8 "again"
  description := []
  least := 1
  greatest? := some 1
  parameters := []
  returns := utf8 "any"
  body? := some (Procedure.unary fun v => .eval v fun
    | .ok v => .value v
    | .error f => .fail f)

/-- It prints a line and crashes. -/
def boom : Declaration where
  name := utf8 "boom"
  description := []
  least := 0
  greatest? := some 0
  parameters := []
  returns := utf8 "any"
  body? := some fun _ => .print (utf8 "boom") fun _ => .crash (.crash (utf8 "out of order"))

/-- Both of them. -/
def eventful : Registry := ⟨[again, boom], [], false⟩

end Registry

/-- An expression that is evaluated once more. -/
def Value.evaluatedAgain (v : Value) : Value :=
  .list [.symbol (utf8 "again"), .list [.symbol Grammar.quoteName, v]]

/-- A crash in a call inside of another one. -/
def crashInside : Value := .evaluatedAgain (.list [.symbol (utf8 "boom")])

end TinyLisp
