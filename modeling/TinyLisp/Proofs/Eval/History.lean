/-
An interpreter keeps no history.

What an evaluation does can depend on the machine in three ways: on the counter of
nested calls, on what the output refuses, and on nothing else.  Diagnostic lines and
the trace are written and never read.  The counter is back after every request, so on
an output that refuses nothing a request is served as by a machine on which nothing
has run yet, whatever was asked before.

A run is definite at a depth if its ending and the lines it writes are the same on all
machines of that depth.  Everything evaluation is made of is definite, a level deeper
or not, and so are the three requests that can be made of an interpreter.  Functions
of the registry and the receiver of a program's results are procedures: they may
print, evaluate on the same interpreter, fail and crash, but their behaviour is a
function of what they are given and told.
-/
import TinyLisp.Proofs.Eval.Counter
import TinyLisp.Proofs.Output.Sink

namespace TinyLisp

open TinyLisp.Action Machine

/-! ### Runs with the same ending and the same lines -/

/-- From depth `d`, where no line is refused, the run ends with `r` after writing `lines` and
is back at that depth. -/
def Says {β : Type} (d : Nat) (x : Machine → β × Machine) (r : β) (lines : List Bytes) : Prop :=
  ∀ m : Machine, m.depth = d → m.out.NeverRefuses →
    (x m).1 = r ∧ (x m).2.out = m.out.taking lines ∧ (x m).2.depth = d

/-- The ending and the lines are the same on all machines of depth `d`. -/
def Definite (d : Nat) (β : Type) (x : Machine → β × Machine) : Prop :=
  ∃ r lines, Says d x r lines

theorem keptInRow_definite (d : Nat) : KeptInRow (Definite d) where
  nothing := by
    intro β r
    refine ⟨r, [], ?_⟩
    intro m hm _
    exact ⟨rfl, rfl, hm⟩
  andThen := by
    intro β γ x k hx hk
    obtain ⟨r, lines, hx⟩ := hx
    obtain ⟨r', lines', hk⟩ := hk r
    refine ⟨r', lines ++ lines', ?_⟩
    intro m hm hout
    obtain ⟨rfl, ho, hd⟩ := hx m hm hout
    have hgood : (x m).2.out.NeverRefuses := by
      rw [ho]
      exact hout.taking lines
    obtain ⟨hr', ho', hd'⟩ := hk (x m).2 hd hgood
    refine ⟨hr', ?_, hd'⟩
    rw [← Sink.taking_taking, ← ho]
    exact ho'

theorem Definite.takes {d : Nat} {β : Type} {x : Machine → β × Machine} (h : Definite d β x)
    {m : Machine} (hm : m.depth = d) (hout : m.out.NeverRefuses) :
    ∃ lines, (x m).2.out = m.out.taking lines := by
  obtain ⟨r, lines, h⟩ := h
  exact ⟨lines, (h m hm hout).2.1⟩

/-- On two machines of one depth a definite run ends alike and writes alike. -/
theorem Definite.alike {d : Nat} {β : Type} {x : Machine → β × Machine} (h : Definite d β x)
    {m m' : Machine} (hm : m.depth = d) (hm' : m'.depth = d) (hout : m.out.NeverRefuses)
    (hout' : m'.out.NeverRefuses) :
    (x m).1 = (x m').1 ∧ ∃ lines, (x m).2.out = m.out.taking lines ∧
      (x m').2.out = m'.out.taking lines := by
  obtain ⟨r, lines, h⟩ := h
  obtain ⟨hr, ho, -⟩ := h m hm hout
  obtain ⟨hr', ho', -⟩ := h m' hm' hout'
  exact ⟨hr.trans hr'.symm, lines, ho, ho'⟩

theorem definite_writeLine (d : Nat) (line : Bytes) : Definite d _ (writeLine line) := by
  refine ⟨.ok none, [line.line], ?_⟩
  intro m hm hout
  unfold writeLine
  rw [Sink.writeLine_taken hout]
  exact ⟨rfl, rfl, hm⟩

theorem Definite.traced {d : Nat} {α : Type} {x : Action α}
    (h : Definite d _ x) (name category : Bytes) : Definite d _ (x.traced name category) := by
  obtain ⟨r, lines, h⟩ := h
  refine ⟨r, lines, ?_⟩
  intro m hm hout
  exact h (m.onTrace (·.enter name category)) hm hout

/-- A level deeper a run starts from the next depth and comes back from it. -/
theorem Definite.nested {d : Nat} {α : Type} {x : Action α} (h : Definite (d + 1) _ x) :
    Definite d _ x.nested := by
  obtain ⟨r, lines, h⟩ := h
  refine ⟨r, lines, ?_⟩
  intro m hm hout
  have hdeeper : m.depth + 1 = d + 1 := by rw [hm]
  obtain ⟨hr, ho, hd⟩ := h { m with depth := m.depth + 1 } hdeeper hout
  refine ⟨hr, ho, ?_⟩
  show (x { m with depth := m.depth + 1 }).2.depth - 1 = d
  omega

/-- The relation that holds of a definite action and itself. -/
def DefiniteTwin (d : Nat) (α : Type) (x y : Action α) : Prop := x = y ∧ Definite d _ x

theorem actionRelation_definiteTwin (d : Nat) : ActionRelation (DefiniteTwin d) where
  ofExcept := by
    intro α r
    exact ⟨rfl, (keptInRow_definite d).nothing r⟩
  bind := by
    intro α β x y f g hx hf
    obtain ⟨rfl, hx⟩ := hx
    obtain rfl : f = g := funext fun a => (hf a).1
    exact ⟨rfl, (keptInRow_definite d).bind hx fun a => (hf a).2⟩
  writeLine := by
    intro line
    exact ⟨rfl, definite_writeLine d line⟩
  attempt := by
    intro α x y h
    obtain ⟨rfl, h⟩ := h
    exact ⟨rfl, (keptInRow_definite d).andThen h fun r => (keptInRow_definite d).nothing _⟩
  traced := by
    intro α x y name category h
    obtain ⟨rfl, h⟩ := h
    exact ⟨rfl, h.traced name category⟩

/-! ### Evaluation is definite -/

namespace Eval

theorem announce_definite (i : Interpreter) (d : Nat) (name : Bytes) (args : List Value) :
    DefiniteTwin d Unit (announce i name args) (announce i name args) := by
  refine ⟨rfl, .ok (), [], ?_⟩
  intro m hm _
  unfold announce
  cases i.debug with
  | true => exact ⟨rfl, rfl, hm⟩
  | false => exact ⟨rfl, rfl, hm⟩

theorem evaluate_definite (i : Interpreter) (levels : Nat) :
    ∀ d, CallsRelated (DefiniteTwin d) (evaluate i levels) (evaluate i levels) := by
  induction levels with
  | zero =>
      intro d head args env
      exact ⟨rfl, (keptInRow_definite d).nothing _⟩
  | succ levels ih =>
      intro d head args env
      have hstep := step_related (actionRelation_definiteTwin (d + 1)) rfl
        (announce_definite i (d + 1)) (ih (d + 1))
      exact ⟨rfl, (hstep head args env).2.nested⟩

theorem available_definite (i : Interpreter) (d : Nat) :
    CallsRelated (DefiniteTwin d) (available i) (available i) := by
  intro head args env
  obtain ⟨-, r, lines, h⟩ := evaluate_definite i (i.limit - d) d head args env
  refine ⟨rfl, r, lines, ?_⟩
  intro m hm hout
  obtain ⟨heq, -⟩ := evaluate_sameFrom_available i d head args env m hm
  rw [← heq]
  exact h m hm hout

end Eval

namespace Interpreter

variable (i : Interpreter) (d : Nat)

theorem eval_definite (expr : Value) (env : Env) : Definite d _ (i.eval expr env) :=
  (Eval.expression_related (actionRelation_definiteTwin d) (Eval.available_definite i d) env
    expr).2

theorem perform_definite (p : Procedure) : Definite d _ (i.perform p) :=
  (Eval.procedure_related (actionRelation_definiteTwin d) (Eval.available_definite i d) p).2

theorem serve_definite (r : Request) : Definite d _ (i.serve r) :=
  serve_kept (keptInRow_definite d) (i.eval_definite d) (i.perform_definite d) r

/-- After any number of requests the counter is where it was, and the output still refuses
nothing. -/
theorem serveAll_keeps (requests : List Request) :
    ∀ {m : Machine}, m.out.NeverRefuses →
      (i.serveAll requests m).depth = m.depth ∧ (i.serveAll requests m).out.NeverRefuses := by
  induction requests with
  | nil => intro m hout; exact ⟨rfl, hout⟩
  | cons r rest ih =>
      intro m hout
      obtain ⟨answer, lines, hsays⟩ := i.serve_definite m.depth r
      obtain ⟨-, ho, hd⟩ := hsays m rfl hout
      have hgood : (i.serve r m).2.out.NeverRefuses := by
        rw [ho]
        exact hout.taking lines
      obtain ⟨hdepth, hrest⟩ := ih hgood
      exact ⟨hdepth.trans hd, hrest⟩

/-- **An interpreter keeps no history.**  Every request, however it ends, leaves the counter of
nested calls where it was; so after any requests, crashes among them, a request is answered
as by a fresh machine and writes the lines that it writes there. -/
theorem serve_after_history (history : List Request) (r : Request)
    (diagnostics diagnostics' : Sink) (trace? trace?' : Option Trace) :
    let used := i.serveAll history (.idle .reliable diagnostics trace?)
    let fresh := Machine.idle .reliable diagnostics' trace?'
    (∀ m, (i.serve r m).2.depth = m.depth) ∧
      (i.serve r used).1 = (i.serve r fresh).1 ∧
      (i.serve r used).2.out.chunks = used.out.chunks ++ (i.serve r fresh).2.out.chunks := by
  intro used fresh
  have hidle : (Machine.idle .reliable diagnostics trace?).out.NeverRefuses :=
    Sink.neverRefuses_reliable
  obtain ⟨(hdepth : used.depth = 0), hout⟩ := i.serveAll_keeps history hidle
  have hzero : fresh.depth = 0 := rfl
  obtain ⟨hanswer, lines, hused, hfresh⟩ :=
    (i.serve_definite 0 r).alike hdepth hzero hout Sink.neverRefuses_reliable
  refine ⟨i.serve_restores r, hanswer, ?_⟩
  rw [hused, hfresh, Sink.chunks_taking, Sink.chunks_taking]
  rfl

/-- After two crashes on the deepest level there is, an expression that needs all levels is
evaluated. -/
theorem serve_after_history_crashes :
    let i := Interpreter.new Registry.eventful 2 false
    let crash := Request.expression crashInside []
    let deep := Request.expression (.evaluatedAgain (.list [.symbol (utf8 "again"), .int 1])) []
    let fresh := Machine.idle .reliable .reliable none
    let used := i.serveAll [crash, crash] fresh
    (i.serve crash fresh).1 = .value (.error (.crash (utf8 "out of order"))) ∧
      (i.serve crash fresh).2.depth = 0 ∧
      used.out.output = utf8 "boom\nboom\n" ∧
      (i.serve deep used).1 = .value (.ok (.int 1)) := by
  intro i crash deep fresh used
  obtain ⟨hdepth, -, -⟩ := i.serve_after_history [] crash .reliable .reliable none none
  obtain ⟨-, hanswer, -⟩ := i.serve_after_history [crash, crash] deep .reliable .reliable none none
  exact ⟨rfl, hdepth fresh, rfl, hanswer⟩

end Interpreter

end TinyLisp
