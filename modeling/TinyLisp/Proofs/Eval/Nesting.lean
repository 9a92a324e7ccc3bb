/-
Traces are well nested.

While a trace is recorded, a function that is run stands between two events, one where it
begins and one where it ends.  The rules of evaluation say which functions are run, and the
log of an evaluation has them as a forest, each with those that were run inside it.  Written
out, that forest is a list of events, and this list is what an evaluation appends to any
trace, whether it ends with a value, an error or a crash: the event that ends a function is
written on the way out however the function came to its end.

Nothing in the forest has to be matched up afterwards.  A reader of the trace has only the
events, though, and finds the pairs with a stack of open names.  That it can is a property
of lists of events, `WellNested`, and the events of every log have it.
-/
import TinyLisp.Proofs.Eval.Rules
import TinyLisp.Proofs.Output.Trace

namespace TinyLisp

/-! ### Lists of events -/

namespace TraceEvent

/-- A function begins. -/
def begins (name : Bytes) (time : Int) : TraceEvent :=
  ⟨name, Eval.callCategory, utf8 "B", time, 0, 0⟩

/-- A function ends. -/
def ends (name : Bytes) (time : Int) : TraceEvent :=
  ⟨name, Eval.callCategory, utf8 "E", time, 0, 0⟩

/-- The names that are open after an event, the last one first, given those before it.  An end
is only accepted for the name that was opened last, and no other event is. -/
def after? (opened : List Bytes) (e : TraceEvent) : Option (List Bytes) :=
  if e.phase = utf8 "B" then some (e.name :: opened)
  else if e.phase = utf8 "E" ∧ opened.head? = some e.name then some opened.tail
  else none

/-- The names that are open after some events. -/
def stillOpen (opened : List Bytes) (events : List TraceEvent) : Option (List Bytes) :=
  events.foldlM after? opened

/-- Every end closes the name that was opened last, and nothing stays open. -/
def WellNested (events : List TraceEvent) : Prop := stillOpen [] events = some []

instance (events : List TraceEvent) : Decidable (WellNested events) :=
  inferInstanceAs (Decidable (_ = _))

/-- The names that are opened, in order. -/
def opens (events : List TraceEvent) : List Bytes :=
  (events.filter (·.phase = utf8 "B")).map (·.name)

@[simp] theorem after?_begins (opened : List Bytes) (name : Bytes) (time : Int) :
    after? opened (begins name time) = some (name :: opened) := rfl

@[simp] theorem after?_ends (opened : List Bytes) (name : Bytes) (time : Int) :
    after? (name :: opened) (ends name time) = some opened := by
  have hphase : utf8 "E" ≠ utf8 "B" := by decide
  simp [after?, ends, hphase]

-- Pairs may not cross.
example : ¬WellNested [begins [1] 0, begins [2] 1, ends [1] 2, ends [2] 3] := by decide

end TraceEvent

/-! ### The events of a log -/

namespace CallLog

open TraceEvent

/-- The functions of a log, each as something that takes a while. -/
def durations : CallLog → List Trace.Call
  | nothing => []
  | ran name inside after =>
    .duration name Eval.callCategory (durations inside) :: durations after

theorem durations_append (calls later : CallLog) :
    (calls ++ later).durations = calls.durations ++ later.durations := by
  induction calls with
  | nothing => rfl
  | ran name inside after _ ih => simp [durations, ih]

section

variable (clock : Nat → Int)

/-- Every function with its beginning and its end, if the clock was read `n` times before. -/
def events (n : Nat) (calls : CallLog) : List TraceEvent :=
  Trace.Call.eventsOf clock n calls.durations

theorem events_ran (n : Nat) (name : Bytes) (inside after : CallLog) :
    let read := Trace.Call.readingsOf inside.durations
    events clock n (ran name inside after) =
      begins name (clock n) :: (events clock (n + 1) inside ++
        ends name (clock (n + 1 + read)) :: events clock (n + (read + 2)) after) := by
  intro read
  show (_ :: (_ ++ [_])) ++ _ = _
  rw [List.cons_append, List.append_assoc]
  rfl

/-- Whatever is open before a log is open after it. -/
theorem stillOpen_events (calls : CallLog) : ∀ (n : Nat) (opened : List Bytes),
    stillOpen opened (calls.events clock n) = some opened := by
  unfold stillOpen
  induction calls with
  | nothing => intro n opened; rfl
  | ran name inside after ihInside ihAfter =>
      intro n opened
      simp [events_ran, ihInside, ihAfter]

theorem wellNested_events (calls : CallLog) (n : Nat) : WellNested (calls.events clock n) :=
  calls.stillOpen_events clock n []

theorem opens_events (calls : CallLog) : ∀ n, opens (calls.events clock n) = calls.names := by
  have hphase : utf8 "E" ≠ utf8 "B" := by decide
  unfold opens
  induction calls with
  | nothing => intro n; rfl
  | ran name inside after ihInside ihAfter =>
      intro n
      simp [events_ran, names, begins, ends, hphase, ihInside, ihAfter]

end

/-- The trace after the functions of a log, if there is one. -/
def recorded (calls : CallLog) (trace? : Option Trace) : Option Trace :=
  trace?.map (·.performAll calls.durations)

@[simp] theorem recorded_nothing (trace? : Option Trace) : nothing.recorded trace? = trace? := by
  cases trace? <;> rfl

theorem recorded_append (calls later : CallLog) (trace? : Option Trace) :
    (calls ++ later).recorded trace? = later.recorded (calls.recorded trace?) := by
  cases trace? with
  | none => rfl
  | some trace => simp [recorded, durations_append, Trace.performAll_append]

theorem recorded_ran (name : Bytes) (inside : CallLog) (trace? : Option Trace) :
    (ran name inside nothing).recorded trace? =
      (inside.recorded (trace?.map (·.enter name Eval.callCategory))).map
        (·.leave name Eval.callCategory) := by
  cases trace? <;> rfl

end CallLog

/-! ### What actions record -/

theorem Action.bind_assoc {α β γ : Type} (x : Action α) (f : α → Action β) (g : β → Action γ) :
    (x.bind f).bind g = x.bind fun a => (f a).bind g := by
  funext m
  unfold Action.bind
  rcases x m with ⟨_ | a, m₁⟩ <;> rfl

/-- A machine with another trace. -/
def Machine.tracing (m : Machine) (trace? : Option Trace) : Machine := { m with trace? := trace? }

/-- On the first machine the action ends as given and leaves the second one.  With a trace, it
also appends the events of the log. -/
def Records {α : Type} (x : Action α) (m : Machine) (calls : CallLog) (ending : Except Stop α)
    (m' : Machine) : Prop :=
  ∀ trace?, x (m.tracing trace?) = (ending, m'.tracing (calls.recorded trace?))

namespace Records

variable {α β : Type} {x : Action α} {m m₁ m' : Machine} {calls later : CallLog}

theorem ofExcept (ending : Except Stop α) (m : Machine) :
    Records (.ofExcept ending) m .nothing ending m := by
  intro trace?
  rw [CallLog.recorded_nothing]
  rfl

theorem bind {f : α → Action β} {a : α} {ending : Except Stop β}
    (hx : Records x m calls (.ok a) m₁) (hf : Records (f a) m₁ later ending m') :
    Records (x.bind f) m (calls ++ later) ending m' := by
  intro trace?
  unfold Action.bind
  rw [hx trace?, CallLog.recorded_append]
  exact hf (calls.recorded trace?)

theorem bind_stopped {f : α → Action β} {s : Stop} (hx : Records x m calls (.error s) m') :
    Records (x.bind f) m calls (.error s) m' := by
  intro trace?
  unfold Action.bind
  rw [hx trace?]

theorem attempt {ending : Except Stop α} (hx : Records x m calls ending m') :
    Records x.attempt m calls (.ok ending) m' := by
  intro trace?
  unfold Action.attempt
  rw [hx trace?]

theorem onMismatch {ending : Except Stop α} (hx : Records x m calls ending m') (a : α) :
    Records (x.onMismatch a) m calls (orData a ending) m' := by
  intro trace?
  unfold Action.onMismatch
  rw [hx trace?]
  cases ending with
  | ok v => rfl
  | error s =>
      cases s with
      | failure f => cases f <;> rfl
      | crash message => rfl

theorem nested {ending : Except Stop α}
    (hx : Records x { m with depth := m.depth + 1 } calls ending m') :
    Records x.nested m calls ending { m' with depth := m'.depth - 1 } := by
  intro trace?
  have hinside := hx trace?
  unfold Machine.tracing at hinside
  unfold Action.nested Machine.tracing
  rw [hinside]

/-- What is traced becomes one entry of the log, however it ends. -/
theorem traced {ending : Except Stop α} (hx : Records x m calls ending m') (name : Bytes) :
    Records (x.traced name Eval.callCategory) m (.ran name calls .nothing) ending m' := by
  intro trace?
  have hinside := hx (trace?.map (·.enter name Eval.callCategory))
  have hentered : (m.tracing trace?).onTrace (·.enter name Eval.callCategory) =
      m.tracing (trace?.map (·.enter name Eval.callCategory)) := rfl
  rw [Action.traced_apply, hentered, hinside, CallLog.recorded_ran]
  rfl

end Records

/-! ### Evaluation follows the rules -/

/-- What evaluation does at a task. -/
def Task.action (i : Interpreter) : Task → Action Value
  | expression env v => Eval.expression (Eval.available i) env v
  | call head args env => Eval.available i head args env
  | operation name args env => Eval.operation i (Eval.available i) name (.symbol name) args env
  | application d body head values args env =>
    (Eval.sequence (Eval.available i) env args).bind fun others =>
      Eval.invoke (Eval.available i) d body head (values ++ others)
  | procedure p => Eval.procedure (Eval.available i) p

/-- Behind the last argument there is only the function to be run. -/
theorem Task.action_application_nil (i : Interpreter) (d : Declaration)
    (body : List Value → Procedure) (head : Value) (values : List Value) (env : Env) :
    (application d body head values [] env).action i =
      Eval.invoke (Eval.available i) d body head values := by
  show Eval.invoke (Eval.available i) d body head (values ++ []) = _
  rw [List.append_nil]

namespace Eval

variable {i : Interpreter} {call : Call}

theorem expression_atom (env : Env) {v : Value} (hatom : ∀ head args, v ≠ .list (head :: args)) :
    expression call env v = .ofExcept (.ok v) := by
  unfold expression
  split
  · exact absurd rfl (hatom _ _)
  · rfl

theorem step_nameless {head : Value} (args : List Value) (env : Env)
    (hhead : ∀ name, head ≠ .symbol name) :
    step i call head args env = .ofExcept (.ok (inert head args)) := by
  cases head with
  | symbol name => exact absurd rfl (hhead name)
  | _ => rfl

theorem records_announce (name : Bytes) (args : List Value) (m : Machine) :
    Records (announce i name args) { m with depth := m.depth + 1 } .nothing (.ok ())
      (m.entered i name args) := by
  intro trace?
  rw [CallLog.recorded_nothing]
  unfold announce Machine.entered
  cases i.debug <;> rfl

/-- The arguments of a call are evaluated one by one. -/
theorem sequence_cons_bind {α : Type} (env : Env) (v : Value) (rest : List Value)
    (f : List Value → Action α) :
    (sequence call env (v :: rest)).bind f =
      (expression call env v).bind fun w =>
        (sequence call env rest).bind fun others => f (w :: others) := by
  show ((expression call env v).bind fun w => (sequence call env rest).bind fun others =>
    .ofExcept (.ok (w :: others))).bind f = _
  rw [Action.bind_assoc]
  congr
  funext w
  rw [Action.bind_assoc]
  rfl

theorem invoke_rejected {d : Declaration} (body : List Value → Procedure) (head : Value)
    {values : List Value} {mismatch : Mismatch} (hcheck : d.check? values = some mismatch) :
    invoke call d body head values = .ofExcept (.ok (inert head values)) := by
  unfold invoke
  rw [hcheck]
  rfl

theorem invoke_fitting {d : Declaration} (body : List Value → Procedure) (head : Value)
    {values : List Value} (hcheck : d.check? values = none) :
    invoke call d body head values =
      ((procedure call (body values)).traced d.name callCategory).onMismatch
        (inert head values) := by
  unfold invoke
  rw [hcheck]

/-- A call that the limit admits is evaluated one level deeper. -/
theorem records_available {head : Value} {args : List Value} {env : Env} {m m' : Machine}
    {calls : CallLog} {ending : Except Stop Value} (hlimit : m.depth < i.limit)
    (h : Records (step i (available i) head args env).nested m calls ending m') :
    Records (available i head args env) m calls ending m' := by
  intro trace?
  have hdepth : (m.tracing trace?).depth < i.limit := hlimit
  rw [available_eq, if_pos hdepth]
  exact h trace?

end Eval

/-- **Evaluation does what the rules say, and records the functions of their log.** -/
theorem Runs.records {i : Interpreter} {t : Task} {m m' : Machine} {calls : CallLog}
    {ending : Except Stop Value} (h : Runs i t m calls ending m') :
    Records (t.action i) m calls ending m' := by
  induction h with
  | atom hatom =>
      rw [Task.action, Eval.expression_atom _ hatom]
      exact .ofExcept _ _
  | compound hcall ih => exact ih
  | @tooDeep head args env m hlimit =>
      intro trace?
      have hdepth : ¬(m.tracing trace?).depth < i.limit := by
        show ¬m.depth < i.limit
        omega
      rw [Task.action, Eval.available_eq, if_neg hdepth, CallLog.recorded_nothing]
  | nameless hlimit hhead =>
      refine Eval.records_available hlimit ?_
      rw [Eval.step_nameless _ _ hhead]
      exact (Records.ofExcept _ _).nested
  | named hlimit hop ih =>
      refine Eval.records_available hlimit ?_
      rw [Eval.step_symbol]
      exact ((Eval.records_announce _ _ _).bind ih).nested
  | valued hreading =>
      rw [Task.action, Eval.operation_eq_reading, hreading]
      exact .ofExcept _ _
  | rewritten hreading hexpr ih =>
      rw [Task.action, Eval.operation_eq_reading, hreading]
      exact ih
  | applied hreading happ ih =>
      rw [Task.action, Eval.operation_eq_reading, hreading]
      exact ih
  | argument harg hrest iharg ihrest =>
      rw [Task.action, Eval.sequence_cons_bind]
      refine iharg.bind ?_
      rw [Task.action] at ihrest
      simpa using ihrest
  | argumentStops harg ih =>
      rw [Task.action, Eval.sequence_cons_bind]
      exact ih.bind_stopped
  | rejected hcheck =>
      rw [Task.action_application_nil, Eval.invoke_rejected _ _ hcheck]
      exact .ofExcept _ _
  | invoked hcheck hrun ih =>
      rw [Task.action_application_nil, Eval.invoke_fitting _ _ hcheck]
      exact (ih.traced _).onMismatch _
  | done => exact .ofExcept _ _
  | print hnext ih => exact ih
  | evaluate hexpr hnext ihexpr ihnext =>
      rw [Task.action, Eval.procedure]
      exact ihexpr.attempt.bind ihnext

/--
**Traces are well nested.**  By the rules an expression is evaluated in exactly one way, with one
log of the functions that are run, and evaluation ends in that way, with a trace as without one.
To the file of a trace it adds the events of the log in order, whatever the clock shows, up to
the first chunk that is refused.  In these events every end closes the function that was begun
last, all are closed, and the functions begin as they are run, each once.
-/
theorem Interpreter.eval_wellNested (registry : Registry) (limit : Int) (debug : Bool)
    (expr : Value) (env : Env) (m : Machine) :
    let i := Interpreter.new registry limit debug
    ∃ calls ending m',
      (∀ calls₁ ending₁ m₁, Runs i (.expression env expr) m calls₁ ending₁ m₁ ↔
        calls₁ = calls ∧ ending₁ = ending ∧ m₁ = m') ∧
      i.eval expr env { m with trace? := none } = (ending, { m' with trace? := none }) ∧
      ∀ t : Trace, ∃ t',
        let events := calls.events t.clock t.readings
        i.eval expr env { m with trace? := some t } = (ending, { m' with trace? := some t' }) ∧
          t.Wrote t' (t.chunksFor events) ∧
          TraceEvent.WellNested events ∧ TraceEvent.opens events = calls.names := by
  intro i
  obtain ⟨calls, ending, m', hruns⟩ := expression_runs_iff i env expr m
  have hrecords : Records (i.eval expr env) m calls ending m' :=
    ((hruns calls ending m').mpr ⟨rfl, rfl, rfl⟩).records
  refine ⟨calls, ending, m', hruns, hrecords none, ?_⟩
  intro t
  refine ⟨t.performAll calls.durations, hrecords (some t), ?_, calls.wellNested_events _ _,
    calls.opens_events _ _⟩
  rw [Trace.performAll_eq]
  exact t.appended_wrote _ _

/-- A crash of a function is the ending of its call. -/
theorem Runs.crashed {i : Interpreter} {d : Declaration} {body : List Value → Procedure}
    {head : Value} {values : List Value} {env : Env} {m m' : Machine} {inside : CallLog}
    {message : Bytes} (hcheck : d.check? values = none)
    (hrun : Runs i (.procedure (body values)) m inside (.error (.crash message)) m') :
    Runs i (.application d body head values [] env) m (.ran d.name inside .nothing)
      (.error (.crash message)) m' :=
  .invoked hcheck hrun

/-- By the rules a crash inside of two calls makes two entries of the log. -/
theorem runs_crashInside :
    Runs (.new Registry.eventful 2 false) (.expression [] crashInside)
      (.idle .reliable .reliable none)
      (.ran (utf8 "again") (.ran (utf8 "boom") .nothing .nothing) .nothing)
      (.error (.crash (utf8 "out of order")))
      (.idle (Sink.reliable.writeLine (utf8 "boom")).1 .reliable none) := by
  let i : Interpreter := .new Registry.eventful 2 false
  let printed : Sink := (Sink.reliable.writeLine (utf8 "boom")).1
  let call : Value := .list [.symbol (utf8 "boom")]
  have hfirst : 0 < i.limit := by decide
  have hsecond : 1 < i.limit := by decide
  have hargument : Runs i (.operation Grammar.quoteName [call] [])
      ⟨.reliable, .reliable, none, 2⟩ .nothing (.ok call) ⟨.reliable, .reliable, none, 2⟩ :=
    .valued rfl
  have hinside : Runs i (.operation (utf8 "boom") [] []) ⟨.reliable, .reliable, none, 2⟩
      (.ran (utf8 "boom") .nothing .nothing) (.error (.crash (utf8 "out of order")))
      ⟨printed, .reliable, none, 2⟩ :=
    .applied rfl (.crashed rfl (.print .done))
  have hquoted := Runs.named (m := ⟨.reliable, .reliable, none, 1⟩) hsecond hargument
  have hboom := Runs.named (m := ⟨.reliable, .reliable, none, 1⟩) hsecond hinside
  have hagain : Runs i (.operation (utf8 "again") [.list [.symbol Grammar.quoteName, call]] [])
      ⟨.reliable, .reliable, none, 1⟩
      (.ran (utf8 "again") (.ran (utf8 "boom") .nothing .nothing) .nothing)
      (.error (.crash (utf8 "out of order"))) ⟨printed, .reliable, none, 1⟩ :=
    .applied rfl (.argument (.compound hquoted) (.crashed rfl (.evaluate (.compound hboom) .done)))
  have hcall := Runs.named (m := ⟨.reliable, .reliable, none, 0⟩) hfirst hagain
  exact .compound hcall

/-- A trace with a clock that is late. -/
def Trace.late (file : Sink) : Trace :=
  start file ⟨false, true⟩ (fun reading => 5 + 2 * reading) none

/-- Both functions begin and end one inside the other, although neither returns.  In a file without
room for the second one there is the beginning of the first and a separator, and the expression
ends as before. -/
theorem Interpreter.eval_wellNested_crashInside :
    let i := Interpreter.new Registry.eventful 2 false
    let event (e : TraceEvent) := e.render ⟨false, true⟩
    let crash : Except Stop Value := .error (.crash (utf8 "out of order"))
    let m (trace : Trace) := Machine.idle .reliable .reliable (some trace)
    ∃ (m' : Machine) (whole part : Trace),
      i.eval crashInside [] (m (.late .reliable)) = (crash, { m' with trace? := some whole }) ∧
        whole.file.chunks = [utf8 "[",
          event (.begins (utf8 "again") 5), utf8 ",\n", event (.begins (utf8 "boom") 7), utf8 ",\n",
          event (.ends (utf8 "boom") 9), utf8 ",\n", event (.ends (utf8 "again") 11)] ∧
        i.eval crashInside [] (m (.late (.failingAfter 3))) =
          (crash, { m' with trace? := some part }) ∧
        part.file.chunks = [utf8 "[", event (.begins (utf8 "again") 5), utf8 ",\n"] ∧
        part.error? = some Sink.brokenPipe ∧
        event (.begins (utf8 "again") 5) =
          utf8 ("\x7b\"name\":\"again\",\"cat\":\"builtin\",\"ph\":\"B\",\"ts\":5," ++
            "\"pid\":0,\"tid\":0,\"s\":\"g\"\x7d") := by
  intro i event crash m
  obtain ⟨calls, ending, m', hruns, -, htraced⟩ :=
    eval_wellNested Registry.eventful 2 false crashInside [] (.idle .reliable .reliable none)
  obtain ⟨rfl, rfl, rfl⟩ := (hruns _ _ _).mp runs_crashInside
  obtain ⟨whole, hwhole, hwrote, -, -⟩ := htraced (.late .reliable)
  obtain ⟨part, hpart, hcut, -, -⟩ := htraced (.late (.failingAfter 3))
  obtain ⟨hchunks, -⟩ := hwrote.taken rfl fun _ _ => rfl
  obtain ⟨hfirst, herror⟩ := hcut.refused 2 Sink.brokenPipe rfl (by decide) (by decide) rfl
  exact ⟨_, whole, part, hwhole, hchunks, hpart, hfirst, herror, by decide +kernel⟩

end TinyLisp
