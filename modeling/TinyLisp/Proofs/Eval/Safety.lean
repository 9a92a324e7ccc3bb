/-
Evaluation over the table of the language never goes wrong.

Every evaluation follows a transcript, and a transcript ends in three ways only: with
its result, with calls nested too deep, or at a line that the output refuses.  There
is no mismatch, no syntax error and no crash among them.

What is refused and why is up to the sink, by the number of the call.  The error that
an evaluation reports is therefore the sink's own, for a call that was made on its
behalf.
-/
import TinyLisp.Proofs.Eval.Levels

namespace TinyLisp

/-! ### The three endings -/

/-- A transcript ends with its result, too deep, or with an error of the output. -/
theorem Transcript.play_cases {α : Type} (limit : Nat) (t : Transcript α) (p : Sink × Sink) :
    (∃ a, (t.play limit p).1 = .ok a) ∨
      (t.play limit p).1 = .error (.failure (.tooDeep limit)) ∨
        ∃ n err, p.1.calls ≤ n ∧ p.1.refuses n = some err ∧
          (t.play limit p).1 = .error (.failure (.output (utf8 "print: ") err)) := by
  unfold play
  rcases hd : deliver t.events p with ⟨_ | err, q⟩
  · unfold ending
    cases t.value? with
    | none => exact .inr (.inl rfl)
    | some a => exact .inl ⟨a, rfl⟩
  · obtain ⟨n, hn, hr⟩ := refuses_of_deliver t.events hd
    exact .inr (.inr ⟨n, err, hn, hr, rfl⟩)

/-- **Evaluation over the table of the language ends with a value, too deep, or with the error
of an output that refused a line.**  It holds of every tree in every environment, for every
limit and on every machine, whatever its sinks refuse.  In particular no mismatch and no
syntax error comes out of it, and nothing crashes: no argument is missing, no list is missing
its elements and no word is divided by zero. -/
theorem eval_builtins_ends (limit : Int) (debug : Bool) (expr : Value) (env : Env) (m : Machine) :
    let i := Interpreter.new Registry.builtins limit debug
    (∃ v, (i.eval expr env m).1 = .ok v) ∨
      (i.eval expr env m).1 = .error (.failure (.tooDeep i.limit)) ∨
        ∃ n err, m.out.calls ≤ n ∧ m.out.refuses n = some err ∧
          (i.eval expr env m).1 = .error (.failure (.output (utf8 "print: ") err)) := by
  intro i
  have hr : i.registry.Sound := Registry.sound_builtins
  obtain ⟨t, ht⟩ := Eval.exists_follows_expression hr (i.limit - m.depth) expr env
  have hplay : (i.eval expr env m).1 = (t.play i.limit m.sinks).1 := by
    rw [Eval.eval_eq, ← ht m]
  rw [hplay]
  exact t.play_cases i.limit m.sinks

theorem Interpreter.eval_ne_crash {i : Interpreter} (hr : i.registry.Sound) (expr : Value)
    (env : Env) (m : Machine) (message : Bytes) :
    (i.eval expr env m).1 ≠ .error (.crash message) := by
  obtain ⟨t, ht⟩ := Eval.exists_follows_expression hr (i.limit - m.depth) expr env
  have hplay : (i.eval expr env m).1 = (t.play i.limit m.sinks).1 := by
    rw [Eval.eval_eq, ← ht m]
  rw [hplay]
  rcases t.play_cases i.limit m.sinks with ⟨a, h⟩ | h | ⟨n, err, -, -, h⟩
  · simp [h]
  · simp [h]
  · simp [h]

end TinyLisp
