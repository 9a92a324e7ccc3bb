/-
The rules of evaluation.

Evaluation is defined as one function for each of its parts.  Here it is given a second
time, by rules in the style of a natural semantics: which task, on which machine, ends how
and leaves which machine.  What the rules add is a log of the functions that were run.
There is one rule that makes an entry, `invoked`, for arguments that fit their declaration.
A call that is cut by the limit (`tooDeep`), has no name (`nameless`), names nothing or a
special form (`valued`, `rewritten`) or is refused by its declaration (`rejected`) goes by a
rule that makes none.

The rules do not speak of the trace, and the machines in them keep whatever trace they
have.  Two things are shown here about the rules alone: every task ends by them, whatever
the functions of the registry do, and it ends in one way only.  So there is such a thing
as the log of an evaluation.  That evaluation does what the rules say is shown together
with what it adds to a trace, in the file on nesting.
-/
import TinyLisp.Proofs.Eval.Counter

namespace TinyLisp

/-! ### Logs of calls -/

/-- The functions that were run one after another, each with those that were run while it was
running. -/
inductive CallLog where
  | nothing
  | ran (name : Bytes) (inside after : CallLog)

namespace CallLog

/-- One log and then another. -/
def append : CallLog → CallLog → CallLog
  | nothing, later => later
  | ran name inside after, later => ran name inside (append after later)

instance : Append CallLog := ⟨append⟩

@[simp] theorem nothing_append (later : CallLog) : nothing ++ later = later := rfl

@[simp] theorem ran_append (name : Bytes) (inside after later : CallLog) :
    ran name inside after ++ later = ran name inside (after ++ later) := rfl

/-- The names of the functions in the order in which they were started. -/
def names : CallLog → List Bytes
  | nothing => []
  | ran name inside after => name :: (names inside ++ names after)

end CallLog

/-! ### What a call on a name stands for -/

/-- What a call on a name is taken for, before anything is evaluated. -/
inductive Reading where
  /-- A value as it is. -/
  | value (v : Value)
  /-- Another expression. -/
  | expression (env : Env) (v : Value)
  /-- The application of a function. -/
  | function (d : Declaration) (body : List Value → Procedure)

namespace Eval

/-- The special forms stand for values or expressions, and a name without a function of its own
for the call as data. -/
def reading (i : Interpreter) (name : Bytes) (args : List Value) (env : Env) : Reading :=
  if name = Grammar.quoteName then
    match args with
    | [v] => .value v
    | _ => .value (inert (.symbol name) args)
  else if name = letName then
    match args with
    | [v] => .expression env v
    | [b, body] =>
      match letBinding? b with
      | some (x, value) => .expression (env.bind x value) (substitute (env.bind x value) body)
      | none => .value (inert (.symbol name) args)
    | _ => .value (inert (.symbol name) args)
  else
    match (i.registry.lookup? name).bind fun d => d.body?.map (d, ·) with
    | some (d, body) => .function d body
    | none => .value (inert (.symbol name) args)

theorem operation_eq_reading (i : Interpreter) (call : Call) (name : Bytes) (args : List Value)
    (env : Env) :
    operation i call name (.symbol name) args env =
      match reading i name args env with
      | .value v => .ofExcept (.ok v)
      | .expression env v => expression call env v
      | .function d body =>
        (sequence call env args).bind fun values => invoke call d body (.symbol name) values := by
  unfold operation reading
  by_cases hquote : name = Grammar.quoteName
  · rw [if_pos hquote, if_pos hquote]
    rcases args with _ | ⟨v, _ | ⟨w, rest⟩⟩ <;> rfl
  · rw [if_neg hquote, if_neg hquote]
    by_cases hlet : name = letName
    · rw [if_pos hlet, if_pos hlet]
      rcases args with _ | ⟨v, _ | ⟨body, _ | ⟨w, rest⟩⟩⟩
      · rfl
      · rfl
      · simp only [binding]
        cases letBinding? v <;> rfl
      · rfl
    · rw [if_neg hlet, if_neg hlet]
      rcases i.registry.lookup? name with _ | d
      · rfl
      · simp only [Option.bind_some]
        cases d.body? <;> rfl

end Eval

/-! ### Tasks and rules -/

/-- What evaluation can be about to do. -/
inductive Task where
  /-- To evaluate an expression. -/
  | expression (env : Env) (v : Value)
  /-- To evaluate a call, one level deeper. -/
  | call (head : Value) (args : List Value) (env : Env)
  /-- To carry out a call on a name. -/
  | operation (name : Bytes) (args : List Value) (env : Env)
  /-- To evaluate the other arguments of a function and run it. -/
  | application (d : Declaration) (body : List Value → Procedure) (head : Value)
      (values args : List Value) (env : Env)
  /-- To go on with a function that is running. -/
  | procedure (p : Procedure)

/-- The ending of a call whose function ended as given: with a mismatch it is data. -/
def orData {α : Type} (data : α) : Except Stop α → Except Stop α
  | .error (.failure (.mismatch _)) => .ok data
  | ending => ending

/-- The machine inside a call on a name. -/
def Machine.entered (i : Interpreter) (name : Bytes) (args : List Value) (m : Machine) :
    Machine :=
  { m with
    diagnostics := if i.debug then (m.diagnostics.writeLine (Eval.announcement name args)).1
      else m.diagnostics
    depth := m.depth + 1 }

open Eval (inert)

/-- The task on the first machine runs the functions of the log, ends as given and leaves the
second machine. -/
inductive Runs (i : Interpreter) :
    Task → Machine → CallLog → Except Stop Value → Machine → Prop
  /-- Atoms and the empty list stand for themselves. -/
  | atom {env v m} (hatom : ∀ head args, v ≠ .list (head :: args)) :
      Runs i (.expression env v) m .nothing (.ok v) m
  | compound {env head args m calls ending m'}
      (hcall : Runs i (.call head args env) m calls ending m') :
      Runs i (.expression env (.list (head :: args))) m calls ending m'
  | tooDeep {head args env m} (hlimit : i.limit ≤ m.depth) :
      Runs i (.call head args env) m .nothing (.error (.failure (.tooDeep i.limit))) m
  | nameless {head args env m} (hlimit : m.depth < i.limit)
      (hhead : ∀ name, head ≠ .symbol name) :
      Runs i (.call head args env) m .nothing (.ok (inert head args)) m
  | named {name args env m calls ending m'} (hlimit : m.depth < i.limit)
      (hop : Runs i (.operation name args env) (m.entered i name args) calls ending m') :
      Runs i (.call (.symbol name) args env) m calls ending { m' with depth := m'.depth - 1 }
  | valued {name args env v m} (hreading : Eval.reading i name args env = .value v) :
      Runs i (.operation name args env) m .nothing (.ok v) m
  | rewritten {name args env scope v m calls ending m'}
      (hreading : Eval.reading i name args env = .expression scope v)
      (hexpr : Runs i (.expression scope v) m calls ending m') :
      Runs i (.operation name args env) m calls ending m'
  | applied {name args env d body m calls ending m'}
      (hreading : Eval.reading i name args env = .function d body)
      (happ : Runs i (.application d body (.symbol name) [] args env) m calls ending m') :
      Runs i (.operation name args env) m calls ending m'
  | argument {d body head values v w rest env m calls m₁ later ending m'}
      (harg : Runs i (.expression env v) m calls (.ok w) m₁)
      (hrest : Runs i (.application d body head (values ++ [w]) rest env) m₁ later ending m') :
      Runs i (.application d body head values (v :: rest) env) m (calls ++ later) ending m'
  | argumentStops {d body head values v rest env m calls s m'}
      (harg : Runs i (.expression env v) m calls (.error s) m') :
      Runs i (.application d body head values (v :: rest) env) m calls (.error s) m'
  | rejected {d body head values env m mismatch} (hcheck : d.check? values = some mismatch) :
      Runs i (.application d body head values [] env) m .nothing (.ok (inert head values)) m
  /-- The arguments fit, so the function is run, and the log has an entry for it. -/
  | invoked {d body head values env m inside ending m'} (hcheck : d.check? values = none)
      (hrun : Runs i (.procedure (body values)) m inside ending m') :
      Runs i (.application d body head values [] env) m (.ran d.name inside .nothing)
        (orData (inert head values) ending) m'
  | done {ending m} : Runs i (.procedure (.done ending)) m .nothing ending m
  | print {line next m calls ending m'}
      (hnext : Runs i (.procedure (next (m.out.writeLine line).2))
        { m with out := (m.out.writeLine line).1 } calls ending m') :
      Runs i (.procedure (.print line next)) m calls ending m'
  /-- Whatever the evaluation ended with, also a crash, is told to the function. -/
  | evaluate {expr env next m calls outcome m₁ later ending m'}
      (hexpr : Runs i (.expression env expr) m calls outcome m₁)
      (hnext : Runs i (.procedure (next outcome)) m₁ later ending m') :
      Runs i (.procedure (.evaluate expr env next)) m (calls ++ later) ending m'

namespace Runs

variable {i : Interpreter}

/-- A task leaves the counter of nested calls as it found it. -/
theorem depth_eq {t : Task} {m m' : Machine} {calls : CallLog} {ending : Except Stop Value}
    (h : Runs i t m calls ending m') : m'.depth = m.depth := by
  induction h with
  | named hlimit hop ih =>
      show _ - 1 = _
      rw [ih]
      rfl
  | argument harg hrest iharg ihrest => rw [ihrest, iharg]
  | evaluate hexpr hnext ihexpr ihnext => rw [ihnext, ihexpr]
  | print hnext ih => exact ih
  | compound hcall ih => exact ih
  | rewritten hreading hexpr ih => exact ih
  | applied hreading happ ih => exact ih
  | argumentStops harg ih => exact ih
  | invoked hcheck hrun ih => exact ih
  | _ => rfl

/-! ### A task ends in one way -/

theorem unique {t : Task} {m m₁ m₂ : Machine} {calls₁ calls₂ : CallLog}
    {ending₁ ending₂ : Except Stop Value} (h₁ : Runs i t m calls₁ ending₁ m₁)
    (h₂ : Runs i t m calls₂ ending₂ m₂) : calls₁ = calls₂ ∧ ending₁ = ending₂ ∧ m₁ = m₂ := by
  induction h₁ generalizing calls₂ ending₂ m₂ with
  | atom hatom =>
      cases h₂ with
      | atom => exact ⟨rfl, rfl, rfl⟩
      | compound => exact absurd rfl (hatom _ _)
  | compound hcall ih =>
      cases h₂ with
      | atom hatom => exact absurd rfl (hatom _ _)
      | compound hcall₂ => exact ih hcall₂
  | tooDeep hlimit =>
      cases h₂ with
      | tooDeep => exact ⟨rfl, rfl, rfl⟩
      | nameless hlimit₂ | named hlimit₂ => omega
  | nameless hlimit hhead =>
      cases h₂ with
      | tooDeep hlimit₂ => omega
      | nameless => exact ⟨rfl, rfl, rfl⟩
      | named => exact absurd rfl (hhead _)
  | named hlimit hop ih =>
      cases h₂ with
      | tooDeep hlimit₂ => omega
      | nameless _ hhead => exact absurd rfl (hhead _)
      | named _ hop₂ =>
          obtain ⟨rfl, rfl, rfl⟩ := ih hop₂
          exact ⟨rfl, rfl, rfl⟩
  | valued hreading =>
      cases h₂ with
      | valued hreading₂ =>
          obtain rfl : _ = _ := Reading.value.inj (hreading.symm.trans hreading₂)
          exact ⟨rfl, rfl, rfl⟩
      | rewritten hreading₂ | applied hreading₂ => cases hreading.symm.trans hreading₂
  | rewritten hreading hexpr ih =>
      cases h₂ with
      | rewritten hreading₂ hexpr₂ =>
          cases hreading.symm.trans hreading₂
          exact ih hexpr₂
      | valued hreading₂ | applied hreading₂ => cases hreading.symm.trans hreading₂
  | applied hreading happ ih =>
      cases h₂ with
      | applied hreading₂ happ₂ =>
          cases hreading.symm.trans hreading₂
          exact ih happ₂
      | valued hreading₂ | rewritten hreading₂ => cases hreading.symm.trans hreading₂
  | argument harg hrest iharg ihrest =>
      cases h₂ with
      | argument harg₂ hrest₂ =>
          obtain ⟨rfl, hw, rfl⟩ := iharg harg₂
          cases hw
          obtain ⟨rfl, rfl, rfl⟩ := ihrest hrest₂
          exact ⟨rfl, rfl, rfl⟩
      | argumentStops harg₂ => cases (iharg harg₂).2.1
  | argumentStops harg ih =>
      cases h₂ with
      | argument harg₂ => cases (ih harg₂).2.1
      | argumentStops harg₂ => exact ih harg₂
  | rejected hcheck =>
      cases h₂ with
      | rejected => exact ⟨rfl, rfl, rfl⟩
      | invoked hcheck₂ => simp_all
  | invoked hcheck hrun ih =>
      cases h₂ with
      | rejected hcheck₂ => simp_all
      | invoked _ hrun₂ =>
          obtain ⟨rfl, rfl, rfl⟩ := ih hrun₂
          exact ⟨rfl, rfl, rfl⟩
  | done =>
      cases h₂
      exact ⟨rfl, rfl, rfl⟩
  | print hnext ih =>
      cases h₂ with
      | print hnext₂ => exact ih hnext₂
  | evaluate hexpr hnext ihexpr ihnext =>
      cases h₂ with
      | evaluate hexpr₂ hnext₂ =>
          obtain ⟨rfl, rfl, rfl⟩ := ihexpr hexpr₂
          obtain ⟨rfl, rfl, rfl⟩ := ihnext hnext₂
          exact ⟨rfl, rfl, rfl⟩

end Runs

/-! ### Every task ends

The levels that are left bound how deep calls can go.  Between two levels there is only the
recursion over the arguments of a call and over the tree of what a function does. -/

/-- The task ends on the machine. -/
def Ends (i : Interpreter) (t : Task) (m : Machine) : Prop :=
  ∃ calls ending m', Runs i t m calls ending m'

/-- Calls end on machines of a given depth. -/
def CallsEnd (i : Interpreter) (d : Nat) : Prop :=
  ∀ head args env m, m.depth = d → Ends i (.call head args env) m

section

variable {i : Interpreter} {d : Nat}

theorem expression_ends (hcalls : CallsEnd i d) (env : Env) (v : Value) {m : Machine}
    (hm : m.depth = d) : Ends i (.expression env v) m := by
  by_cases hcall : ∃ head args, v = .list (head :: args)
  · obtain ⟨head, args, rfl⟩ := hcall
    obtain ⟨calls, ending, m', h⟩ := hcalls head args env m hm
    exact ⟨calls, ending, m', .compound h⟩
  · refine ⟨_, _, _, .atom ?_⟩
    intro head args hv
    exact hcall ⟨head, args, hv⟩

theorem procedure_ends (hcalls : CallsEnd i d) (p : Procedure) {m : Machine}
    (hm : m.depth = d) : Ends i (.procedure p) m := by
  induction p generalizing m with
  | done result => exact ⟨_, _, _, .done⟩
  | print line next ih =>
      obtain ⟨calls, ending, m', h⟩ := ih (m.out.writeLine line).2
        (m := { m with out := (m.out.writeLine line).1 }) hm
      exact ⟨calls, ending, m', .print h⟩
  | evaluate expr env next ih =>
      obtain ⟨calls, outcome, m₁, hexpr⟩ := expression_ends hcalls env expr hm
      obtain ⟨later, ending, m', hnext⟩ := ih outcome (hexpr.depth_eq.trans hm)
      exact ⟨calls ++ later, ending, m', .evaluate hexpr hnext⟩

theorem application_ends (hcalls : CallsEnd i d) (decl : Declaration)
    (body : List Value → Procedure) (head : Value) (args values : List Value) (env : Env)
    {m : Machine} (hm : m.depth = d) : Ends i (.application decl body head values args env) m := by
  induction args generalizing values m with
  | nil =>
      cases hcheck : decl.check? values with
      | some mismatch => exact ⟨_, _, _, .rejected hcheck⟩
      | none =>
          obtain ⟨inside, ending, m', hrun⟩ := procedure_ends hcalls (body values) hm
          exact ⟨_, _, m', .invoked hcheck hrun⟩
  | cons v rest ih =>
      obtain ⟨calls, outcome, m₁, harg⟩ := expression_ends hcalls env v hm
      cases outcome with
      | error s => exact ⟨calls, _, m₁, .argumentStops harg⟩
      | ok w =>
          obtain ⟨later, ending, m', hrest⟩ := ih (values ++ [w]) (harg.depth_eq.trans hm)
          exact ⟨calls ++ later, ending, m', .argument harg hrest⟩

theorem operation_ends (hcalls : CallsEnd i d) (name : Bytes) (args : List Value) (env : Env)
    {m : Machine} (hm : m.depth = d) : Ends i (.operation name args env) m := by
  cases hreading : Eval.reading i name args env with
  | value v => exact ⟨_, _, _, .valued hreading⟩
  | expression scope v =>
      obtain ⟨calls, ending, m', h⟩ := expression_ends hcalls scope v hm
      exact ⟨calls, ending, m', .rewritten hreading h⟩
  | function decl body =>
      obtain ⟨calls, ending, m', h⟩ :=
        application_ends hcalls decl body (.symbol name) args [] env hm
      exact ⟨calls, ending, m', .applied hreading h⟩

end

/-- Calls end on every machine, by the number of levels it has left. -/
theorem callsEnd (i : Interpreter) (levels d : Nat) (hlevels : i.limit - d = levels) :
    CallsEnd i d := by
  induction levels generalizing d with
  | zero =>
      intro head args env m hm
      have hlimit : i.limit ≤ m.depth := by omega
      exact ⟨_, _, _, .tooDeep hlimit⟩
  | succ levels ih =>
      intro head args env m hm
      have hlimit : m.depth < i.limit := by omega
      by_cases hhead : ∃ name, head = .symbol name
      · obtain ⟨name, rfl⟩ := hhead
        have hdeeper : (m.entered i name args).depth = d + 1 := congrArg (· + 1) hm
        obtain ⟨calls, ending, m', h⟩ :=
          operation_ends (ih (d + 1) (by omega)) name args env hdeeper
        exact ⟨calls, ending, _, .named hlimit h⟩
      · refine ⟨_, _, _, .nameless hlimit ?_⟩
        intro name hname
        exact hhead ⟨name, hname⟩

/-- **Every expression is evaluated by the rules in exactly one way.** -/
theorem expression_runs_iff (i : Interpreter) (env : Env) (v : Value) (m : Machine) :
    ∃ calls ending m', ∀ calls₁ ending₁ m₁, Runs i (.expression env v) m calls₁ ending₁ m₁ ↔
      calls₁ = calls ∧ ending₁ = ending ∧ m₁ = m' := by
  obtain ⟨calls, ending, m', h⟩ :=
    expression_ends (callsEnd i (i.limit - m.depth) m.depth rfl) env v rfl
  refine ⟨calls, ending, m', ?_⟩
  intro calls₁ ending₁ m₁
  constructor
  · intro h₁
    exact h₁.unique h
  · rintro ⟨rfl, rfl, rfl⟩
    exact h

end TinyLisp
