/-
Output that is refused.

A program prints on the way and reports its results to the same output.  Run it once on
an output that never refuses a line and once on one that refuses every call from
number `n` on.  The two runs go in lockstep, line by line, until one line too many is
written; then the second run ends with the error of that call, whatever it was in the
middle of, while the first may go on and can only write more.  So either nothing was
refused and the runs are the same, or the second one ends with the error and has
written the first `n` lines of the other.

That an error is never lost inside an expression is what a transcript says: its lines
are written one by one, and the first that is refused is the end of it.  What is left
for this file are runs in a row, where an error has to get past everything that comes
after the run it happened in.
-/
import TinyLisp.Proofs.Eval.History
import TinyLisp.Proofs.Eval.Levels

namespace TinyLisp

open TinyLisp.Action Machine

/-! ### In lockstep, or cut short -/

/-- The output of the first machine never refuses a line, and that of the second is the same but
for refusing every call from number `n` on, which is still to come. -/
structure Lockstep (n : Nat) (error : Nat → Bytes) (m m' : Machine) : Prop where
  reliable : m.out.NeverRefuses
  same : m'.out = m.out.refusingFrom n error
  count : m.out.chunks.length = m.out.calls
  room : m.out.calls ≤ n
  depth : m'.depth = m.depth

/-- The second output holds the first `n` chunks of the first one, which has more. -/
structure CutShort (n : Nat) (s s' : Sink) : Prop where
  more : n < s.chunks.length
  first : s'.chunks = s.chunks.take n

/-- What is cut short stays so, however much more the other output takes. -/
theorem CutShort.mono {n : Nat} {s s' t : Sink} (h : CutShort n s s')
    (hpre : s.chunks <+: t.chunks) : CutShort n t s' := by
  obtain ⟨rest, hrest⟩ := hpre
  have hmore := h.more
  refine ⟨?_, ?_⟩
  · rw [← hrest, List.length_append]
    omega
  · rw [h.first, ← hrest, List.take_append_of_le_length (Nat.le_of_lt hmore)]

section

variable {n : Nat} {error : Nat → Bytes} {m m' : Machine}

theorem Lockstep.taking (h : Lockstep n error m m') {chunks : List Bytes}
    (hfits : m.out.calls + chunks.length ≤ n) {g b : Machine} (hg : g.out = m.out.taking chunks)
    (hb : b.out = (m.out.taking chunks).refusingFrom n error) (hd : b.depth = g.depth) :
    Lockstep n error g b where
  reliable := by
    rw [hg]
    exact h.reliable.taking chunks
  same := by rw [hb, hg]
  count := by
    rw [hg, Sink.chunks_taking, List.length_append, h.count]
    rfl
  room := by
    rw [hg]
    exact hfits
  depth := hd

/-- The same chunks poured into both outputs either fit, or the second output refuses the one
that no longer does. -/
theorem Lockstep.pour (h : Lockstep n error m m') (chunks : List Bytes) :
    (m.out.calls + chunks.length ≤ n ∧
        m'.out.pour chunks = (none, (m.out.taking chunks).refusingFrom n error)) ∨
      ((m'.out.pour chunks).1 = some (error n) ∧
        CutShort n (m.out.taking chunks) (m'.out.pour chunks).2) := by
  rw [h.same]
  by_cases hfits : m.out.calls + chunks.length ≤ n
  · exact .inl ⟨hfits, Sink.pour_refusingFrom_fits chunks hfits⟩
  · have hroom := h.room
    have hcount := h.count
    have hmore : n < m.out.calls + chunks.length := Nat.lt_of_not_le hfits
    obtain ⟨(herr : (Sink.pour _ chunks).1 = some (error n)), hkept⟩ :=
      Sink.pour_refusingFrom_overflows chunks hroom hmore
    refine .inr ⟨herr, ?_, ?_⟩
    · rw [Sink.chunks_taking, List.length_append]
      omega
    · have hall : m.out.chunks.take n = m.out.chunks := List.take_of_length_le (by omega)
      rw [hkept, Sink.chunks_taking, List.take_append, hcount, hall]

end

/-! ### Runs that stop at the first refusal -/

/-- On machines in lockstep the run does the same and leaves them so, or it ends refused on the
second one, whose output is cut short. -/
structure StopsAtRefusal (n : Nat) (error : Nat → Bytes) {β : Type} (Refused : β → Prop)
    (x : Machine → β × Machine) : Prop where
  definite : ∀ d, Definite d β x
  stops : ∀ m m', Lockstep n error m m' →
    ((x m').1 = (x m).1 ∧ Lockstep n error (x m).2 (x m').2) ∨
      (Refused (x m').1 ∧ CutShort n (x m).2.out (x m').2.out)

section

variable {n : Nat} {error : Nat → Bytes} {β γ : Type}

theorem stopsAtRefusal_return {Refused : β → Prop} (r : β) :
    StopsAtRefusal n error Refused fun m => (r, m) where
  definite := fun d => (keptInRow_definite d).nothing r
  stops := by
    intro m m' h
    exact .inl ⟨rfl, h⟩

/-- Runs in a row stop at the first refusal if each does and what follows a refused run ends at
once.  The first machine may have more to run then, which only adds to its output. -/
theorem StopsAtRefusal.andThen {Refused : β → Prop} {Refused' : γ → Prop}
    {x : Machine → β × Machine} {k : β → Machine → γ × Machine}
    (hx : StopsAtRefusal n error Refused x) (hk : ∀ r, StopsAtRefusal n error Refused' (k r))
    (hends : ∀ r, Refused r → ∀ m, Refused' (k r m).1 ∧ (k r m).2 = m) :
    StopsAtRefusal n error Refused' (andThen x k) where
  definite := fun d => (keptInRow_definite d).andThen (hx.definite d) fun r => (hk r).definite d
  stops := by
    intro m m' h
    show ((k (x m').1 (x m').2).1 = (k (x m).1 (x m).2).1 ∧
        Lockstep n error (k (x m).1 (x m).2).2 (k (x m').1 (x m').2).2) ∨
      (Refused' (k (x m').1 (x m').2).1 ∧
        CutShort n (k (x m).1 (x m).2).2.out (k (x m').1 (x m').2).2.out)
    rcases hx.stops m m' h with ⟨hr, hl⟩ | ⟨hr, hc⟩
    · rw [hr]
      exact (hk (x m).1).stops _ _ hl
    · obtain ⟨hr', hstays⟩ := hends _ hr (x m').2
      obtain ⟨lines, hlines⟩ := (hx.definite m.depth).takes rfl h.reliable
      have hreliable : (x m).2.out.NeverRefuses := by
        rw [hlines]
        exact h.reliable.taking lines
      obtain ⟨more, hmore⟩ := ((hk (x m).1).definite (x m).2.depth).takes rfl hreliable
      rw [hstays, hmore]
      refine .inr ⟨hr', hc.mono ?_⟩
      rw [Sink.chunks_taking]
      exact List.prefix_append _ _

end

/-! ### Expressions, results and programs -/

/-- The ending is the error of call `n`, with what was being done. -/
def RefusedAt (n : Nat) (error : Nat → Bytes) {α : Type} (r : Except Stop α) : Prop :=
  ∃ context, r = .error (.failure (.output context (error n)))

section

variable {n : Nat} {error : Nat → Bytes} {i : Interpreter}

theorem eval_stopsAtRefusal (hr : i.registry.Sound) (expr : Value) (env : Env) :
    StopsAtRefusal n error (RefusedAt n error) (i.eval expr env) where
  definite := fun d => i.eval_definite d expr env
  stops := by
    intro m m' h
    obtain ⟨t, ht⟩ := Eval.exists_follows_expression hr (i.limit - m.depth) expr env
    have hd : (i.eval expr env m').2.depth = (i.eval expr env m).2.depth := by
      rw [i.eval_restores expr env m, i.eval_restores expr env m', h.depth]
    have heq : i.eval expr env m'
        = Eval.expression (Eval.evaluate i (i.limit - m.depth)) env expr m' := by
      rw [Eval.eval_eq, h.depth]
    rw [heq] at hd ⊢
    rw [Eval.eval_eq] at hd ⊢
    obtain ⟨hgr, hgo⟩ := ht.pours m
    obtain ⟨hbr, hbo⟩ := ht.pours m'
    rw [Sink.pour_neverRefuses _ h.reliable] at hgr hgo
    rcases h.pour (printed t.events) with ⟨hfits, hpour⟩ | ⟨herr, hcut⟩
    · rw [hpour] at hbr hbo
      exact .inl ⟨hbr.trans hgr.symm, h.taking hfits hgo hbo hd⟩
    · rw [herr] at hbr
      refine .inr ⟨⟨_, hbr⟩, ?_⟩
      rw [hgo, hbo]
      exact hcut

/-- Reporting a result pours one line into the output. -/
theorem report_pours (count : Nat) (v : Value) (m : Machine) :
    Interpreter.report count v m =
      (match (m.out.pour [v.render.line]).1 with
        | none => .ok ()
        | some err => .error (.failure (.output [] err)),
        { m with out := (m.out.pour [v.render.line]).2 }) := by
  rw [Interpreter.report_apply]
  simp only [Sink.writeLine, Sink.pour]
  rcases m.out.write v.render.line with ⟨out, _ | err⟩
  · rfl
  · rfl

theorem report_stopsAtRefusal (count : Nat) (v : Value) :
    StopsAtRefusal n error (RefusedAt n error) (Interpreter.report count v) where
  definite := by
    intro d
    refine ⟨.ok (), [v.render.line], ?_⟩
    intro m hm hout
    rw [report_pours, Sink.pour_neverRefuses _ hout]
    exact ⟨rfl, rfl, hm⟩
  stops := by
    intro m m' h
    rw [report_pours, report_pours, Sink.pour_neverRefuses _ h.reliable]
    rcases h.pour [v.render.line] with ⟨hfits, hpour⟩ | ⟨herr, hcut⟩
    · rw [hpour]
      exact .inl ⟨rfl, h.taking hfits rfl rfl h.depth⟩
    · rw [herr]
      exact .inr ⟨⟨[], rfl⟩, hcut⟩

theorem evalGroups_stopsAtRefusal (hr : i.registry.Sound) {each : Nat → Value → Action Unit}
    (heach : ∀ count v, StopsAtRefusal n error (RefusedAt n error) (each count v))
    (groups : List (List Token)) :
    ∀ count, StopsAtRefusal n error (fun d : Delivery => RefusedAt n error d.outcome)
      (i.evalGroups each count groups) := by
  induction groups with
  | nil =>
      intro count
      exact stopsAtRefusal_return _
  | cons group rest ih =>
      intro count
      cases hp : (Grammar.parse group).outcome with
      | error e =>
          rw [i.evalGroups_cons_error hp]
          exact stopsAtRefusal_return _
      | ok expr =>
          rw [i.evalGroups_cons hp]
          refine (eval_stopsAtRefusal hr expr []).andThen ?_ ?_
          · intro r
            cases r with
            | error s => exact stopsAtRefusal_return _
            | ok v =>
                refine (heach count v).andThen ?_ ?_
                · intro u
                  cases u with
                  | error s => exact stopsAtRefusal_return _
                  | ok u =>
                      refine (ih (count + 1)).andThen (fun d => stopsAtRefusal_return _) ?_
                      intro d hd m
                      exact ⟨hd, rfl⟩
                · rintro _ ⟨context, rfl⟩ m
                  exact ⟨⟨context, rfl⟩, rfl⟩
          · rintro _ ⟨context, rfl⟩ m
            exact ⟨⟨context, rfl⟩, rfl⟩

end

/-- **A refused line is never swallowed, and nothing is written after it.**  A program prints and
reports its results to one output.  If that takes as many calls as the program makes on an
output that never refuses, nothing changes; if it refuses from an earlier call on, the program
ends with the error of that call and has written the lines before it. -/
theorem evalProgram_refused (limit : Int) (debug : Bool) (source text : Bytes) (n : Nat)
    (error : Nat → Bytes) (m : Machine) :
    let i := Interpreter.new Registry.builtins limit debug
    let good := i.evalProgram source text Interpreter.report { m with out := .reliable }
    let bad := i.evalProgram source text Interpreter.report
      { m with out := Sink.reliable.refusingFrom n error }
    let lines := good.2.out.chunks
    (lines.length ≤ n → bad.1 = good.1 ∧ bad.2.out.chunks = lines) ∧
      (n < lines.length →
        (∃ context, bad.1.outcome = .error (.failure (.output context (error n)))) ∧
          bad.2.out.chunks = lines.take n) := by
  intro i good bad lines
  have hr : i.registry.Sound := Registry.sound_builtins
  have hstops : StopsAtRefusal n error (fun d : Delivery => RefusedAt n error d.outcome)
      (i.evalProgram source text Interpreter.report) := by
    cases ht : Token.tokenize source text with
    | error e =>
        rw [i.evalProgram_error ht]
        exact stopsAtRefusal_return _
    | ok tokens =>
        rw [i.evalProgram_ok ht]
        exact evalGroups_stopsAtRefusal hr report_stopsAtRefusal _ 0
  have hstart : Lockstep n error { m with out := .reliable }
      { m with out := Sink.reliable.refusingFrom n error } :=
    ⟨Sink.neverRefuses_reliable, rfl, rfl, Nat.zero_le n, rfl⟩
  rcases hstops.stops _ _ hstart with ⟨hsame, hl⟩ | ⟨hrefused, hcut⟩
  · have hfits : lines.length ≤ n := hl.count ▸ hl.room
    refine ⟨fun _ => ⟨hsame, ?_⟩, fun hmore => absurd hfits (Nat.not_le_of_lt hmore)⟩
    show bad.2.out.chunks = good.2.out.chunks
    rw [show bad.2.out = _ from hl.same, Sink.chunks_refusingFrom]
  · exact ⟨fun hfits => absurd hcut.more (Nat.not_lt_of_le hfits),
      fun _ => ⟨hrefused, hcut.first⟩⟩

/-- A program that prints inside of a `let` and of a call, and reports two results. -/
def printsTwice : Bytes := utf8 "(let ((x 2)) (list x (print x))) (+ (print 3) 1)"

/-- Of its four lines the third is written inside of an addition.  Where that one is refused, the
addition is not left as data, and nothing is reported for it. -/
theorem evalProgram_refused_printsTwice :
    let i := Interpreter.new Registry.builtins 5 false
    let run (out : Sink) :=
      i.evalProgram [] printsTwice Interpreter.report (.idle out .reliable none)
    let lines := [utf8 "2\n", utf8 "(2 nil)\n", utf8 "3\n", utf8 "(+ nil 1)\n"]
    (run .reliable).2.out.chunks = lines ∧
      (run (Sink.reliable.refusingFrom 4 fun _ => Sink.brokenPipe)).2.out.chunks = lines ∧
      (run (Sink.reliable.refusingFrom 2 fun _ => Sink.brokenPipe)).2.out.chunks
        = lines.take 2 ∧
      ∃ context, (run (Sink.reliable.refusingFrom 2 fun _ => Sink.brokenPipe)).1.outcome
        = .error (.failure (.output context Sink.brokenPipe)) := by
  intro i run lines
  have hlines : (run .reliable).2.out.chunks = lines := by decide +kernel
  obtain ⟨henough, -⟩ := evalProgram_refused 5 false [] printsTwice 4 (fun _ => Sink.brokenPipe)
    (.idle .reliable .reliable none)
  obtain ⟨-, hless⟩ := evalProgram_refused 5 false [] printsTwice 2 (fun _ => Sink.brokenPipe)
    (.idle .reliable .reliable none)
  have hfits : (run .reliable).2.out.chunks.length ≤ 4 := by
    rw [hlines]
    decide
  have hmore : 2 < (run .reliable).2.out.chunks.length := by
    rw [hlines]
    decide
  obtain ⟨hcontext, hfirst⟩ := hless hmore
  exact ⟨hlines, (henough hfits).2.trans hlines, hfirst.trans (congrArg _ hlines), hcontext⟩

end TinyLisp
