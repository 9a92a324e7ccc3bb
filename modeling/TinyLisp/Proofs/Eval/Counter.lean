/-
The counter of nested calls.

A machine counts the calls that are being evaluated inside each other.  Every call
adds one and takes it away again, whether it ends with a value, as data, too deep,
with an error or with a crash, and whatever the functions of the registry do in
between, evaluations of their own included.  So an evaluation leaves the counter as
it found it.

This is also why the counter alone decides how deep an evaluation may go.  Evaluation
recurses on a number of levels that is only read off the counter once, at the start;
`available_eq` says that it may as well be read off again at every call.
-/
import TinyLisp.Proofs.Eval.Relation
import TinyLisp.Proofs.Eval.Request

namespace TinyLisp

open TinyLisp.Action

/-! ### From one depth back to it -/

/-- On machines of depth `d` the two actions do the same and come back to that depth. -/
def SameFrom (d : Nat) (α : Type) (x y : Action α) : Prop :=
  ∀ m : Machine, m.depth = d → x m = y m ∧ (x m).2.depth = d

theorem actionRelation_sameFrom (d : Nat) : ActionRelation (SameFrom d) where
  ofExcept := by
    intro α r m hm
    exact ⟨rfl, hm⟩
  bind := by
    intro α β x y f g hx hf m hm
    obtain ⟨heq, hd⟩ := hx m hm
    unfold Action.bind
    rw [← heq]
    rcases hxm : x m with ⟨_ | a, m₁⟩
    · rw [hxm] at hd
      exact ⟨rfl, hd⟩
    · rw [hxm] at hd
      exact hf a m₁ hd
  writeLine := by
    intro line m hm
    exact ⟨rfl, hm⟩
  attempt := by
    intro α x y h m hm
    obtain ⟨heq, hd⟩ := h m hm
    unfold attempt
    rw [← heq]
    exact ⟨rfl, hd⟩
  traced := by
    intro α x y name category h m hm
    obtain ⟨heq, hd⟩ := h (m.onTrace (·.enter name category)) hm
    rw [traced_apply, traced_apply, ← heq]
    exact ⟨rfl, hd⟩

theorem SameFrom.nested {d : Nat} {α : Type} {x y : Action α} (h : SameFrom (d + 1) α x y) :
    SameFrom d α x.nested y.nested := by
  intro m hm
  have hdeeper : m.depth + 1 = d + 1 := by rw [hm]
  obtain ⟨heq, hd⟩ := h { m with depth := m.depth + 1 } hdeeper
  unfold Action.nested
  rw [← heq]
  refine ⟨rfl, ?_⟩
  show (x { m with depth := m.depth + 1 }).2.depth - 1 = d
  omega

namespace Eval

theorem announce_sameFrom (i : Interpreter) (d : Nat) (name : Bytes) (args : List Value) :
    SameFrom d Unit (announce i name args) (announce i name args) := by
  intro m hm
  unfold announce
  cases i.debug with
  | true => exact ⟨rfl, hm⟩
  | false => exact ⟨rfl, hm⟩

theorem evaluate_sameFrom (i : Interpreter) (levels : Nat) :
    ∀ d, CallsRelated (SameFrom d) (evaluate i levels) (evaluate i levels) := by
  induction levels with
  | zero =>
      intro d head args env m hm
      exact ⟨rfl, hm⟩
  | succ levels ih =>
      intro d head args env
      have hstep := step_related (actionRelation_sameFrom (d + 1)) rfl
        (announce_sameFrom i (d + 1)) (ih (d + 1))
      exact (hstep head args env).nested

/-- At a known depth the levels that are not in use are known. -/
theorem evaluate_sameFrom_available (i : Interpreter) (d : Nat) :
    CallsRelated (SameFrom d) (evaluate i (i.limit - d)) (available i) := by
  intro head args env m hm
  obtain ⟨-, hd⟩ := evaluate_sameFrom i (i.limit - d) d head args env m hm
  refine ⟨?_, hd⟩
  rw [available, hm]

theorem available_sameFrom (i : Interpreter) (d : Nat) :
    CallsRelated (SameFrom d) (available i) (available i) := by
  intro head args env m hm
  obtain ⟨heq, hd⟩ := evaluate_sameFrom_available i d head args env m hm
  rw [heq] at hd
  exact ⟨rfl, hd⟩

/-- **The counter decides at every call whether it is one too many.** -/
theorem available_eq (i : Interpreter) (head : Value) (args : List Value) (env : Env)
    (m : Machine) :
    available i head args env m =
      if m.depth < i.limit then (step i (available i) head args env).nested m
      else (.error (.failure (.tooDeep i.limit)), m) := by
  rw [available]
  by_cases h : m.depth < i.limit
  · have hlevels : i.limit - m.depth = (i.limit - (m.depth + 1)) + 1 := by omega
    have hstep := step_related (actionRelation_sameFrom (m.depth + 1)) rfl
      (announce_sameFrom i (m.depth + 1)) (evaluate_sameFrom_available i (m.depth + 1))
    rw [if_pos h, hlevels]
    exact ((hstep head args env).nested m rfl).1
  · have hlevels : i.limit - m.depth = 0 := by omega
    rw [if_neg h, hlevels]
    rfl

end Eval

/-! ### Requests leave the counter alone -/

/-- The counter is the same after a run as before it. -/
def Restores (β : Type) (x : Machine → β × Machine) : Prop := ∀ m, (x m).2.depth = m.depth

theorem keptInRow_restores : Machine.KeptInRow Restores where
  nothing := by
    intro β r m
    rfl
  andThen := by
    intro β γ x k hx hk m
    exact (hk (x m).1 (x m).2).trans (hx m)

namespace Interpreter

variable (i : Interpreter)

theorem eval_restores (expr : Value) (env : Env) : Restores _ (i.eval expr env) := by
  intro m
  have h := Eval.expression_related (actionRelation_sameFrom m.depth)
    (Eval.available_sameFrom i m.depth) env expr
  exact (h m rfl).2

theorem perform_restores (p : Procedure) : Restores _ (i.perform p) := by
  intro m
  have h := Eval.procedure_related (actionRelation_sameFrom m.depth)
    (Eval.available_sameFrom i m.depth) p
  exact (h m rfl).2

/-- **Every request leaves the counter as it found it, however it ends.** -/
theorem serve_restores (r : Request) : Restores _ (i.serve r) :=
  serve_kept keptInRow_restores i.eval_restores i.perform_restores r

end Interpreter

end TinyLisp
