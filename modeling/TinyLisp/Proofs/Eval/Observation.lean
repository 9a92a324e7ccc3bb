/-
Observation does not disturb evaluation.

A machine has four parts.  Evaluation reads two of them: the output, whose errors a
function that prints is told, and the counter of nested calls.  The other two are for
an observer.  Announcements of calls go to the diagnostic output and events to the
trace, errors of either are not looked at, and nothing is read back.

So take two interpreters that know the same functions and have the same limit, but of
which only one may announce its calls, and two machines that agree on the two parts
that are read.  Whatever the observers of the two are and whichever of their writes
are refused, everything evaluation is made of ends alike on both sides and leaves
machines that agree again.  Functions of the registry are procedures, which can print,
evaluate and end, but have no way to write to the trace.
-/
import TinyLisp.Proofs.Eval.Relation

namespace TinyLisp

open TinyLisp.Action

/-! ### What evaluation reads of a machine -/

/-- The machines may differ in who observes them. -/
structure Machine.Agree (m m' : Machine) : Prop where
  out : m.out = m'.out
  depth : m.depth = m'.depth

/-- On machines that agree both actions end alike and leave machines that agree. -/
def Undisturbed (α : Type) (x y : Action α) : Prop :=
  ∀ m m' : Machine, m.Agree m' → (x m).1 = (y m').1 ∧ (x m).2.Agree (y m').2

theorem Undisturbed.bind {α β : Type} {x y : Action α} {f g : α → Action β}
    (hx : Undisturbed α x y) (hf : ∀ a, Undisturbed β (f a) (g a)) :
    Undisturbed β (x.bind f) (y.bind g) := by
  intro m m' hm
  obtain ⟨hend, hagree⟩ := hx m m' hm
  unfold Action.bind
  rcases hxm : x m with ⟨r, m₁⟩
  rcases hym : y m' with ⟨r', m₁'⟩
  rw [hxm, hym] at hend hagree
  obtain rfl : r = r' := hend
  cases r with
  | error s => exact ⟨rfl, hagree⟩
  | ok a => exact hf a m₁ m₁' hagree

/-- The events around an action go where the action does not look. -/
theorem Undisturbed.traced {α : Type} {x y : Action α} (name category : Bytes)
    (h : Undisturbed α x y) : Undisturbed α (x.traced name category) (y.traced name category) := by
  intro m m' hm
  obtain ⟨hend, hagree⟩ := h (m.onTrace (·.enter name category))
    (m'.onTrace (·.enter name category)) ⟨hm.out, hm.depth⟩
  exact ⟨hend, hagree.out, hagree.depth⟩

theorem Undisturbed.nested {α : Type} {x y : Action α} (h : Undisturbed α x y) :
    Undisturbed α x.nested y.nested := by
  intro m m' hm
  have hdeeper : m.depth + 1 = m'.depth + 1 := by rw [hm.depth]
  obtain ⟨hend, hagree⟩ := h { m with depth := m.depth + 1 } { m' with depth := m'.depth + 1 }
    ⟨hm.out, hdeeper⟩
  exact ⟨hend, hagree.out, congrArg (· - 1) hagree.depth⟩

/-- Output is written alike, also where it is refused. -/
theorem undisturbed_writeLine (line : Bytes) :
    Undisturbed (Option Bytes) (writeLine line) (writeLine line) := by
  intro m m' hm
  unfold writeLine
  rw [hm.out]
  exact ⟨rfl, rfl, hm.depth⟩

theorem actionRelation_undisturbed : ActionRelation Undisturbed where
  ofExcept := by
    intro α r m m' hm
    exact ⟨rfl, hm⟩
  bind := Undisturbed.bind
  writeLine := undisturbed_writeLine
  attempt := by
    intro α x y h m m' hm
    obtain ⟨hend, hagree⟩ := h m m' hm
    exact ⟨congrArg Except.ok hend, hagree⟩
  traced := Undisturbed.traced

/-! ### Evaluation with and without observers -/

namespace Eval

/-- A call that is announced on one side only, or announced to a writer that refuses the line,
goes on as on the other side. -/
theorem announce_undisturbed (i i' : Interpreter) (name : Bytes) (args : List Value) :
    Undisturbed Unit (announce i name args) (announce i' name args) := by
  intro m m' hm
  unfold announce
  cases i.debug <;> cases i'.debug <;> exact ⟨rfl, hm.out, hm.depth⟩

section

variable {i i' : Interpreter}

theorem evaluate_undisturbed (hr : i'.registry = i.registry) (hl : i'.limit = i.limit)
    (levels : Nat) : CallsRelated Undisturbed (evaluate i levels) (evaluate i' levels) := by
  induction levels with
  | zero =>
      intro head args env
      unfold evaluate
      rw [hl]
      exact actionRelation_undisturbed.ofExcept _
  | succ levels ih =>
      intro head args env
      have hstep := step_related actionRelation_undisturbed hr (announce_undisturbed i i') ih
      exact (hstep head args env).nested

/-- Machines that agree have the same levels left. -/
theorem available_undisturbed (hr : i'.registry = i.registry) (hl : i'.limit = i.limit) :
    CallsRelated Undisturbed (available i) (available i') := by
  intro head args env m m' hm
  unfold available
  rw [hl, ← hm.depth]
  exact evaluate_undisturbed hr hl _ head args env m m' hm

end

end Eval

namespace Interpreter

/-- **Observation does not disturb evaluation.**  With or without diagnostic lines and with or
without a trace, an expression is evaluated to the same value, error or crash, and the same
chunks are written to the output and refused there.  The observers are any sinks and traces,
those that refuse some or all of their writes included. -/
theorem eval_undisturbed (registry : Registry) (limit : Int) (expr : Value) (env : Env)
    (out : Sink) (depth : Nat) (debug debug' : Bool) (diagnostics diagnostics' : Sink)
    (trace? trace?' : Option Trace) :
    let observed := (new registry limit debug).eval expr env ⟨out, diagnostics, trace?, depth⟩
    let other := (new registry limit debug').eval expr env ⟨out, diagnostics', trace?', depth⟩
    observed.1 = other.1 ∧ observed.2.out = other.2.out := by
  intro observed other
  have hcalls : Eval.CallsRelated Undisturbed (Eval.available (new registry limit debug))
      (Eval.available (new registry limit debug')) := Eval.available_undisturbed rfl rfl
  have hexpr := Eval.expression_related actionRelation_undisturbed hcalls env expr
  have hagree : Machine.Agree ⟨out, diagnostics, trace?, depth⟩
      ⟨out, diagnostics', trace?', depth⟩ := ⟨rfl, rfl⟩
  obtain ⟨hend, hleft⟩ := hexpr _ _ hagree
  exact ⟨hend, hleft.out⟩

/-- A crash inside of two calls, once unobserved and once with announcements and a trace of which
only the first chunk finds room. -/
theorem eval_undisturbed_crashInside :
    let trace := Trace.start (.failingAfter 1) ⟨false, true⟩ Int.ofNat none
    let observed := (new Registry.eventful 2 true).eval crashInside []
      ⟨.reliable, .failingAfter 1, some trace, 0⟩
    let other := (new Registry.eventful 2 false).eval crashInside [] ⟨.reliable, .reliable, none, 0⟩
    observed.1 = other.1 ∧ observed.2.out = other.2.out ∧
      other.1 = .error (.crash (utf8 "out of order")) ∧
      other.2.out.output = utf8 "boom\n" ∧
      observed.2.diagnostics.output = utf8 "Calling again with ((quote (boom)))\n" ∧
      observed.2.trace?.bind (·.error?) = some Sink.brokenPipe := by
  intro trace
  obtain ⟨hend, hout⟩ := eval_undisturbed Registry.eventful 2 crashInside [] .reliable 0 true false
    (.failingAfter 1) .reliable (some trace) none
  refine ⟨hend, hout, rfl, rfl, ?_, ?_⟩
  · decide +kernel
  · decide +kernel

end Interpreter

end TinyLisp
